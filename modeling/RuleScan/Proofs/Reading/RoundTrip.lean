import RuleScan.Operator.Builtin
import RuleScan.Proofs.Reading.Operands
import RuleScan.Proofs.Rule.Closing
import RuleScan.Proofs.Rule.Collection

/-!
# Printing and reading agree

A rule that declares a variable as a printed expression is accepted, and the variable then
holds that expression, unless the expression is too large or nested too deeply for the reader.
The text is cut into the tokens that `Expr.kinds` lists, these are read back as the expression,
and folding leaves it alone, both when the declaration is read and when the rule is closed.

## Main results

* `reads_declaring` — the tokens of the source.
* `parses_rule` — the rule that is read from these tokens.
* `RuleSet.parse_declaring` — the expression that the accepted set holds.
-/

namespace RuleScan

open Lexer

/-- A source whose only rule declares a variable as an expression. -/
def declaring (e : Expr) : String := "rule t \x7b var x = " ++ e.print ++ "; \x7d"

/-- The tokens of such a source. -/
def declaringKinds (e : Expr) : List TokenKind :=
  .keyword .ruleWord :: .ident "t" :: .symbol .braceOpen :: .keyword .varWord :: .ident "x" ::
    .symbol .assign :: (e.kinds ++ [.symbol .semicolon, .symbol .braceClose, .eof])

/-- The rule of such a source, as it is read. -/
def declaringRule (source : String) (e : Expr) : Rule :=
  { Rule.new "t" source with vars := (∅ : Table String Expr).insert "x" e }

/-- The words and symbols around the text of the expression. -/
theorem toList_declaring (e : Expr) :
    (declaring e).toList = Keyword.ruleWord.spelling.toList ++ ' ' ::
      ("t".toList ++ ' ' :: (Symbol.braceOpen.spelling.toList ++ ' ' ::
        (Keyword.varWord.spelling.toList ++ ' ' :: ("x".toList ++ ' ' ::
          (Symbol.assign.spelling.toList ++ ' ' :: (e.print.toList ++
            (Symbol.semicolon.spelling.toList ++ [' ', '\x7d']))))))) := by
  have hprefix : "rule t \x7b var x = ".toList = Keyword.ruleWord.spelling.toList ++ ' ' ::
      ("t".toList ++ ' ' :: (Symbol.braceOpen.spelling.toList ++ ' ' ::
        (Keyword.varWord.spelling.toList ++ ' ' :: ("x".toList ++ ' ' ::
          (Symbol.assign.spelling.toList ++ [' ']))))) := by decide
  have hsuffix : "; \x7d".toList = Symbol.semicolon.spelling.toList ++ [' ', '\x7d'] := by decide
  have htext : (declaring e).toList =
      "rule t \x7b var x = ".toList ++ e.print.toList ++ "; \x7d".toList :=
    String.toList_append.trans (congrArg (· ++ _) String.toList_append)
  refine htext.trans ?_
  refine (congrArg (· ++ e.print.toList ++ _) hprefix).trans ?_
  refine (congrArg (_ ++ ·) hsuffix).trans ?_
  simp only [List.append_assoc, List.cons_append, List.nil_append]

theorem reads_declaring {r : Registry} (hr : r.IsBuilt) {e : Expr} (h : e.IsPrintable r) :
    Reads (declaring e).toList (declaringKinds e) := by
  have hblank : ∀ rest, Delimits (' ' :: rest) := fun rest => delimits_cons rest (by decide)
  have hname : ∀ name ∈ ["t", "x"], IsIdentifier name := by
    unfold IsIdentifier
    decide
  rw [toList_declaring]
  refine (spells_keyword .ruleWord).reads (hblank _) (reads_blank ?_)
  refine reads_identifier (hname "t" (by decide)) (hblank _).stops (reads_blank ?_)
  refine reads_symbol .braceOpen (hblank _).calm (reads_blank ?_)
  refine (spells_keyword .varWord).reads (hblank _) (reads_blank ?_)
  refine reads_identifier (hname "x" (by decide)) (hblank _).stops (reads_blank ?_)
  refine reads_symbol .assign (hblank _).calm (reads_blank ?_)
  refine (h.spells hr).reads ⟨';', _, rfl, by decide⟩ ?_
  refine reads_symbol .semicolon (hblank _).calm (reads_blank ?_)
  exact reads_item _ rfl reads_nil

/-! ## Reading the rule -/

namespace RuleParser

variable {α : Type} {A : α → Prop} {s s' : Place} {ks inner : List TokenKind} {k : TokenKind}
  {low : Nat} {setting : Setting} {F : SyntaxError → Prop} {G : Error → Prop}

/-- The errors of sources whose expressions are too large or too deep. -/
def IsLimit (source : String) (e : Error) : Prop :=
  ∃ cause, e = .malformed source cause ∧ Parser.IsLimit cause

theorem parses_liftRule {a : α} : Parses G (liftRule (.ok a)) s (· = a) s :=
  fun _ hc => ⟨rfl, hc⟩

theorem parses_folded {e e' : Expr} (h : e.simplify = .ok e') (start : Token) :
    Parses G (folded setting e start) s (· = e') s := by
  unfold folded
  rw [h]
  exact Parses.pure rfl

theorem parses_no_metadata :
    Parses F (metadata setting) ⟨.symbol .braceOpen :: ks, low⟩ (· = [])
      ⟨.symbol .braceOpen :: ks, low⟩ :=
  (Parser.parses_eat_other (by simp)).andThen (Parses.pure rfl)

theorem parses_no_parent :
    Parses F parentName ⟨.symbol .braceOpen :: ks, low⟩ (· = none)
      ⟨.symbol .braceOpen :: ks, low⟩ :=
  (Parser.parses_eat_other (by simp)).andThen (Parses.pure rfl)

section

-- Every way to fail on syntax, with the name of the source, is a way to fail on a rule.
variable (hsource : ∀ cause, F cause → G (.malformed setting.source cause))
include hsource

theorem parses_lift {p : Parser α} (h : Parses F p s A s') :
    Parses G (lift setting p) s A s' := by
  intro c hc
  have hpc := h c hc
  unfold lift
  cases hp : p c with
  | error e =>
      rw [hp] at hpc
      exact hsource e hpc
  | ok x => rwa [hp] at hpc

/-- A variable is declared as what the expression whose tokens follow folds to. -/
theorem parses_varDeclaration {e e' : Expr}
    (hread : Parses F (Parser.boundedExpression setting.signatures)
      ⟨inner ++ .symbol .semicolon :: ks, low⟩ (· = e) ⟨.symbol .semicolon :: ks, low⟩)
    (hfold : e.simplify = .ok e') {rule rule' : Rule} {name : String}
    (hdeclare : rule.declare name e' = .ok rule') :
    Parses G (varDeclaration setting rule)
      ⟨.ident name :: .symbol .assign :: (inner ++ .symbol .semicolon :: ks), low⟩ (· = rule')
      ⟨.symbol .semicolon :: ks, low⟩ := by
  refine (parses_lift hsource (Parser.parses_name _ name)).andThen ?_
  refine (parses_lift hsource (Parser.parses_expect .assign)).andThen ?_
  refine (parses_lift hsource Parser.parses_peek_any).bind fun start _ => ?_
  refine (parses_lift hsource hread).andThen ?_
  refine (parses_folded hfold start).andThen ?_
  rw [hdeclare]
  exact parses_liftRule

theorem parses_declaration {e e' : Expr}
    (hread : Parses F (Parser.boundedExpression setting.signatures)
      ⟨inner ++ .symbol .semicolon :: ks, low⟩ (· = e) ⟨.symbol .semicolon :: ks, low⟩)
    (hfold : e.simplify = .ok e') {rule rule' : Rule} {name : String}
    (hdeclare : rule.declare name e' = .ok rule') :
    Parses G (statement setting rule)
      ⟨.keyword .varWord :: .ident name :: .symbol .assign ::
        (inner ++ .symbol .semicolon :: ks), low⟩ (· = rule') ⟨ks, low⟩ := by
  refine (parses_lift hsource Parser.parses_peek).bind fun start hstart => ?_
  dsimp only
  rw [hstart]
  refine (parses_lift hsource (Parser.parses_advance (by simp))).bind fun _ _ => ?_
  refine (parses_varDeclaration hsource hread hfold hdeclare).andThen ?_
  refine (parses_lift hsource (Parser.parses_expect .semicolon)).andThen ?_
  exact Parses.pure rfl

/-- A single statement is read up to the closing brace. -/
theorem parses_statements {R : Rule → Prop} {rule : Rule} (hk : k ≠ .symbol .braceClose)
    (hstatement : Parses G (statement setting rule) ⟨k :: ks, low⟩ R
      ⟨[.symbol .braceClose, .eof], low⟩) {budget : Nat} (hbudget : 2 ≤ budget) :
    Parses G (statements setting budget rule) ⟨k :: ks, low⟩ R ⟨[.eof], low⟩ := by
  obtain ⟨budget, rfl⟩ := Nat.exists_eq_add_of_le' hbudget
  refine (parses_lift hsource (Parser.parses_eat_other hk)).andThen ?_
  refine hstatement.bind fun rule' hrule' => ?_
  refine (parses_lift hsource (Parser.parses_eat .braceClose)).andThen ?_
  exact Parses.pure hrule'

/-- A rule of a single statement is read if the statement is. -/
theorem parses_rule_of_statement {R : Rule → Prop} {id : String} (hk : k ≠ .symbol .braceClose)
    (hstatement : Parses G (statement setting (Rule.new id setting.source)) ⟨k :: ks, low⟩
      R ⟨[.symbol .braceClose, .eof], low⟩) :
    Parses G (rule setting)
      ⟨.keyword .ruleWord :: .ident id :: .symbol .braceOpen :: k :: ks, low⟩ R ⟨[.eof], low⟩ := by
  refine (parses_lift hsource (Parser.parses_expectKind (by simp))).andThen ?_
  refine (parses_lift hsource (Parser.parses_name _ id)).andThen ?_
  refine (parses_lift hsource parses_no_metadata).andThen ?_
  refine Parses.andThen (a := Rule.new id setting.source) (Parses.pure rfl) ?_
  refine (parses_lift hsource parses_no_parent).andThen ?_
  refine Parses.andThen (a := Rule.new id setting.source) (Parses.pure rfl) ?_
  refine (parses_lift hsource (Parser.parses_expect .braceOpen)).andThen ?_
  refine (parses_lift hsource Parser.parses_remaining).andThen ?_
  refine parses_statements hsource hk hstatement ?_
  simp

/-- A source that declares a variable is read as its rule if the expression is read. -/
theorem parses_declaringRule {e e' : Expr}
    (hread : Parses F (Parser.boundedExpression setting.signatures)
      ⟨inner ++ [.symbol .semicolon, .symbol .braceClose, .eof], low⟩ (· = e)
      ⟨[.symbol .semicolon, .symbol .braceClose, .eof], low⟩)
    (hfold : e.simplify = .ok e') :
    Parses G (rule setting)
      ⟨.keyword .ruleWord :: .ident "t" :: .symbol .braceOpen :: .keyword .varWord ::
        .ident "x" :: .symbol .assign ::
          (inner ++ [.symbol .semicolon, .symbol .braceClose, .eof]), low⟩
      (· = declaringRule setting.source e') ⟨[.eof], low⟩ := by
  have hdeclare : (Rule.new "t" setting.source).declare "x" e' =
      .ok (declaringRule setting.source e') := rfl
  exact parses_rule_of_statement hsource (by simp)
    (parses_declaration hsource hread hfold hdeclare)

end

/-- The tokens of a declaring source are read as its rule. -/
theorem parses_rule {r : Registry} {source : String} {e : Expr} (he : e.Legible r)
    (hfolded : e.IsFolded) :
    Parses (IsLimit source) (rule ⟨source, r.signature?⟩) ⟨declaringKinds e, low⟩
      (· = declaringRule source e.bare) ⟨[.eof], low⟩ := by
  have hread : Parses Parser.IsLimit (Parser.boundedExpression r.signature?)
      ⟨e.kinds ++ [.symbol .semicolon, .symbol .braceClose, .eof], low⟩ (· = e.bare)
      ⟨[.symbol .semicolon, .symbol .braceClose, .eof], low⟩ :=
    Parser.parses_bounded (he.whole Parser.nestingLimit (by decide))
  have hsource : ∀ cause, Parser.IsLimit cause →
      IsLimit source (.malformed (Setting.mk source r.signature?).source cause) :=
    fun cause hcause => ⟨cause, rfl, hcause⟩
  exact parses_declaringRule hsource hread hfolded.bare.simplify_eq

end RuleParser

/-! ## Linking the rule -/

namespace RuleSet

/-- A set of one rule without a parent is linked by closing that rule. -/
theorem linked_single {rule : Rule} {s : RuleSet} {i : RuleId}
    (hs : (∅ : RuleSet).insert rule = .ok (s, i)) (hfolded : ∀ e ∈ rule.exprs, e.IsFolded)
    (hopen : rule.closed = false) (hparentName : rule.parentName = none)
    (hparent : rule.parent = none) (hchildren : rule.children = []) :
    ∃ t, s.linked = .ok t ∧
      t.get? rule.id = some (rule.bound (rule.metadata.setParent none)) := by
  obtain ⟨-, hinsert⟩ := of_insert hs
  have hrules : s.rules = #[rule] := by rw [hinsert]; rfl
  have hroots : s.roots = [] := by rw [hinsert]; rfl
  have hlookup : s.lookup rule.id = some 0 := by
    rw [hinsert]
    exact if_pos rfl
  have hattach : attachAll (List.range s.size) s = (.ok (), { s with roots := [0] }) := by
    simp [size, hrules, hroots, attachAll, attach, hparentName]
  have hclose : closeAll (RuleSet.size { s with roots := [0] } + 1) [0] 0 { s with roots := [0] } =
      (.ok 1, RuleSet.setRule { s with roots := [0] } 0
        (rule.bound (rule.metadata.setParent none))) := by
    simp [size, hrules, closeAll, parentMetadata, hparent, hchildren,
      Rule.close_of_isFolded hopen hfolded, Rule.bound]
  refine ⟨RuleSet.setRule { s with roots := [0] } 0
    (rule.bound (rule.metadata.setParent none)), ?_, ?_⟩
  · unfold linked link
    rw [hattach]
    dsimp only
    rw [hclose]
    simp [size, setRule, hrules]
  · show (s.lookup rule.id).bind _ = _
    rw [hlookup]
    simp [setRule, hrules]

/-- The only rule of the accepted source. -/
theorem linked_declaringRule {e : Expr} (h : e.bare.IsFolded) {source : String} {s : RuleSet}
    {i : RuleId} (hs : (∅ : RuleSet).insert (declaringRule source e.bare) = .ok (s, i)) :
    ∃ t rule, s.linked = .ok t ∧ t.get? "t" = some rule ∧
      rule.vars.get? "x" = some (e.bindMetadata rule.metadata) := by
  have hexprs : ∀ e' ∈ (declaringRule source e.bare).exprs, e'.IsFolded := by
    intro e' he'
    obtain rfl : e' = e.bare := by
      simpa [declaringRule, Rule.exprs, Rule.new, Table.insert, Table.insertList, Table.values,
        Table.empty, EmptyCollection.emptyCollection] using he'
    exact h
  obtain ⟨t, hlinked, hget⟩ := linked_single hs hexprs rfl rfl rfl rfl
  refine ⟨t, _, hlinked, hget, ?_⟩
  show some (e.bare.bindMetadata _) = _
  rw [Expr.bindMetadata_bare]
  rfl

/-- Parsing the declaration of a printed expression stores that expression, chained to the
metadata of its rule, or it fails because the expression is too large or nested too deeply. -/
theorem parse_declaring {r : Registry} (hr : r.IsBuilt) (source : String) {e : Expr}
    (h : e.IsPrintable r) (hsimple : e.simplify = .ok e) :
    match parse r.signature? source (declaring e) with
    | .ok s => ∃ rule, s.get? "t" = some rule ∧
        rule.vars.get? "x" = some (e.bindMetadata rule.metadata)
    | .error err => ∃ cause, err = .malformed source cause ∧
        (cause.problem = .tooManyNodes Parser.nodeLimit ∨ cause.problem = .nestedTooDeeply) := by
  have hfolded := Expr.simplify_eq_self_iff.1 hsimple
  obtain ⟨tokens, htokens, hkinds⟩ := reads_declaring hr h ⟨1, 1⟩
  have hparses : Parses (RuleParser.IsLimit source) (RuleParser.rule ⟨source, r.signature?⟩)
      ⟨declaringKinds e, 0⟩ (· = declaringRule source e.bare) ⟨[.eof], 0⟩ :=
    RuleParser.parses_rule (h.legible hr) hfolded
  have hrule := hparses ⟨tokens, 0⟩ ⟨hkinds, Nat.le_refl 0, Nat.zero_le _⟩
  obtain ⟨first, rest, rfl, hfirst, -⟩ := List.map_eq_cons_iff.1 hkinds
  have hpeek : ¬ (Cursor.mk (first :: rest) 0).peek.kind = .eof := by
    show ¬ first.kind = .eof
    rw [hfirst]
    nofun
  unfold parse readSource tokenize
  rw [htokens]
  dsimp only
  rw [List.length_cons, readRules, if_neg hpeek]
  cases hread : RuleParser.rule ⟨source, r.signature?⟩ ⟨first :: rest, 0⟩ with
  | error err =>
      rw [hread] at hrule
      exact hrule
  | ok x =>
      rw [hread] at hrule
      obtain ⟨rule, c⟩ := x
      obtain ⟨rfl, hc⟩ := hrule
      obtain ⟨s, i, hs⟩ : ∃ s i, (∅ : RuleSet).insert (declaringRule source e.bare) = .ok (s, i) :=
        ⟨_, _, rfl⟩
      obtain ⟨t, rule, hlinked, hget⟩ := linked_declaringRule hfolded.bare hs
      dsimp only
      rw [hs]
      dsimp only
      rw [readRules_nil _ _ hc.peek_kind]
      dsimp only
      rw [hlinked]
      exact ⟨rule, hget⟩

/-- An expression with each kind of operation, an operator and an extract with metadata. -/
def sampleExpr : Expr :=
  .binary (.arithmetic .add)
    (.call "Len" [.slice (.var "data") (.number 1) (.var "$n")] (.set ∅ "k" (.bytes [34, 10])))
    (.unary .neg (.binary (.arithmetic .sub) (.index (.var "data") (.number 0))
      (.extractNumber (.number 3) .w8 (.set ∅ "signed" (.bool true)))))

theorem isPrintable_sampleExpr : sampleExpr.IsPrintable Registry.builtins := by
  have hname : ∀ name ∈ ["data", "k", "signed"], IsIdentifier name := by
    unfold IsIdentifier
    decide
  have hentry : ∀ key ∈ ["data", "k", "signed"], ∀ v : Value, v.IsLiteral →
      (Register.set ∅ key v).IsPrintable := by
    intro key hkey v hv entry hentry
    obtain rfl := List.mem_singleton.1 (show entry ∈ [(key, v)] from hentry)
    exact ⟨hname key hkey, hv⟩
  have hnumber : ∀ n < 8, (Expr.number n).IsPrintable Registry.builtins := fun n hn =>
    .literal (.number (by omega))
  have hdata : (Expr.var "data").IsPrintable Registry.builtins := .var (.inl (hname _ (by decide)))
  have hspecial : (Expr.var "$n").IsPrintable Registry.builtins :=
    .var (.inr ⟨['n'], nofun, by simp [isNameChar], by decide⟩)
  have hslice := Expr.IsPrintable.slice hdata rfl (hnumber 1 (by decide)) hspecial
  have hsignature : Registry.builtins.signature? "Len" = some (.fixed [.bytes]) := rfl
  refine .binary _ (.call hsignature (by decide) rfl (by simpa using hslice) ?_)
    (.unary _ (.binary _ (.index hdata rfl (hnumber 0 (by decide))) ?_))
  · exact hentry "k" (by decide) _ (.bytes _)
  · exact .extractNumber _ (hnumber 3 (by decide)) (hentry "signed" (by decide) _ (.bool _))

/-- The sample is read back from its text. -/
theorem parse_declaring_sample :
    declaring sampleExpr = "rule t \x7b var x = Len(data[1:$n], k=\"\\\"\\n\") + " ++
      "-(data[0] - Byte(3, signed=true)); \x7d" ∧
    ∃ s rule, parse Registry.builtins.signature? "sample" (declaring sampleExpr) = .ok s ∧
      s.get? "t" = some rule ∧
      rule.vars.get? "x" = some (sampleExpr.bindMetadata rule.metadata) := by
  refine ⟨by decide +kernel, ?_⟩
  have hparse := parse_declaring Registry.isBuilt_builtins "sample" isPrintable_sampleExpr rfl
  have hok :
      (parse Registry.builtins.signature? "sample" (declaring sampleExpr)).toOption.isSome := by
    decide +kernel
  cases h : parse Registry.builtins.signature? "sample" (declaring sampleExpr) with
  | error err =>
      rw [h] at hok
      cases hok
  | ok s =>
      rw [h] at hparse
      obtain ⟨rule, hget, hvar⟩ := hparse
      exact ⟨s, rule, rfl, hget, hvar⟩

end RuleSet

end RuleScan
