import RuleScan.Proofs.Reading.Counting
import RuleScan.Proofs.Reading.Negation

/-!
# Calling what was registered

The names that a registry accepts are the words of the rule language, less those of the extracts.
Some of these words are keywords, and a registry does not refuse them.  An operator with another
name is called by its name, and a rule that does nothing else is read as it is written.  A keyword
is never read as a name, whatever operators there are, so where an operator is called by a keyword
the rule is malformed (`Keyword.refusal`).

Registration never takes back what was accepted (`get?_of_mem_accepted`), so it does not matter what
was offered before an operator or after it.

## Main results

* `Registry.get?_of_mem_accepted` — what is accepted stays registered.
* `reads_calling` — the tokens of a rule that calls an operator.
* `RuleParser.parses_calling`, `RuleParser.refuses_calling` — what becomes of its only statement.
* `RuleSet.parse_calling` — which registered operators can be called.
-/

namespace RuleScan

/-! ## Registering one by one -/

namespace Registry

/-- The registry after operators were offered one by one; a refusal leaves it as it is. -/
def registerAll (r : Registry) : List (String × Operator) → Registry
  | [] => r
  | (name, op) :: rest =>
    match r.register name op with
    | .ok s => s.registerAll rest
    | .error _ => r.registerAll rest

/-- The operators that are accepted when they are offered one by one. -/
def accepted (r : Registry) : List (String × Operator) → List (String × Operator)
  | [] => []
  | (name, op) :: rest =>
    match r.register name op with
    | .ok s => (name, op) :: s.accepted rest
    | .error _ => r.accepted rest

variable {r s : Registry} {name : String} {op : Operator}

theorem get?_of_register (h : r.register name op = .ok s) : s.get? name = some op := by
  obtain ⟨-, -, rfl⟩ := of_register h
  unfold get?
  rw [Table.get?_insert, if_pos rfl]

/-- A name that is taken is not taken again. -/
theorem get?_register_of_get? {name' : String} {op' : Operator}
    (h : r.register name' op' = .ok s) (hname : r.get? name = some op) : s.get? name = some op := by
  obtain ⟨-, hfree, rfl⟩ := of_register h
  have hne : name ≠ name' := by
    rintro rfl
    unfold get? at hname
    rw [Table.contains, hname] at hfree
    cases hfree
  unfold get?
  rw [Table.get?_insert, if_neg hne]
  exact hname

theorem get?_registerAll_of_get? (hname : r.get? name = some op)
    (offered : List (String × Operator)) : (r.registerAll offered).get? name = some op := by
  induction offered generalizing r with
  | nil => exact hname
  | cons offer rest ih =>
      unfold registerAll
      split
      · next s hs => exact ih (get?_register_of_get? hs hname)
      · exact ih hname

/-- What is accepted has a valid name, and it is found under that name in the end. -/
theorem get?_of_mem_accepted {offered : List (String × Operator)}
    (h : (name, op) ∈ r.accepted offered) :
    (isName name = true ∧ name ∉ reservedNames) ∧
      (r.registerAll offered).get? name = some op := by
  -- The induction is on the offers; what was registered before them may be anything.
  induction offered generalizing r with
  | nil => cases h
  | cons offer rest ih =>
      unfold accepted at h
      unfold registerAll
      split at h
      · next s hs =>
        rcases List.mem_cons.1 h with heq | h
        · cases heq
          exact ⟨(of_register hs).1, get?_registerAll_of_get? (get?_of_register hs) rest⟩
        · exact ih h
      · exact ih h

end Registry

/-! ## The tokens -/

/-- A source whose only rule calls an operator without arguments. -/
def calling (name : String) : String := "rule t \x7b " ++ name ++ "(); \x7d"

/-- The tokens of such a source behind the name. -/
def callEnd : List TokenKind :=
  [.symbol .parenOpen, .symbol .parenClose, .symbol .semicolon, .symbol .braceClose, .eof]

theorem toList_calling (name : String) :
    (calling name).toList = Keyword.ruleWord.spelling.toList ++ ' ' ::
      ("t".toList ++ ' ' :: (Symbol.braceOpen.spelling.toList ++ ' ' ::
        (name.toList ++ (Symbol.parenOpen.spelling.toList ++ (Symbol.parenClose.spelling.toList ++
          (Symbol.semicolon.spelling.toList ++ [' ', '\x7d'])))))) := by
  have hfront : "rule t \x7b ".toList = Keyword.ruleWord.spelling.toList ++ ' ' ::
      ("t".toList ++ ' ' :: (Symbol.braceOpen.spelling.toList ++ [' '])) := by decide
  have hback : "(); \x7d".toList =
      Symbol.parenOpen.spelling.toList ++ (Symbol.parenClose.spelling.toList ++
        (Symbol.semicolon.spelling.toList ++ [' ', '\x7d'])) := by decide
  rw [calling, String.toList_append, String.toList_append, hfront, hback]
  simp only [List.append_assoc, List.cons_append, List.nil_append]

open Lexer in
theorem reads_calling {name : String} (hname : Registry.isName name = true) :
    Reads (calling name).toList (.keyword .ruleWord :: .ident "t" :: .symbol .braceOpen ::
      wordKind name.toList :: callEnd) := by
  have hblank : ∀ rest, Delimits (' ' :: rest) := fun rest => delimits_cons rest (by decide)
  have ht : IsIdentifier "t" := by
    unfold IsIdentifier
    decide
  rw [toList_calling]
  refine (spells_keyword .ruleWord).reads (hblank _) (reads_blank ?_)
  refine reads_identifier ht (hblank _).stops (reads_blank ?_)
  refine reads_symbol .braceOpen (hblank _).calm (reads_blank ?_)
  refine (isWord_of_isName hname).reads ⟨'(', _, rfl, by decide⟩ ?_
  refine reads_symbol .parenOpen ⟨')', _, rfl, by decide⟩ ?_
  refine reads_symbol .parenClose ⟨';', _, rfl, by decide⟩ ?_
  refine reads_symbol .semicolon (hblank _).calm (reads_blank ?_)
  exact reads_item _ rfl reads_nil

/-! ## What becomes of the call -/

/-- What is wrong with a call by a keyword, for the parser of rules. -/
def Keyword.refusal : Keyword → SyntaxProblem
  | .varWord => .expected "variable name"
  | .trueWord | .falseWord => .notCall
  | _ => .expected "an expression"

/-- The rule of such a source, as it is read. -/
def callingRule (source name : String) : Rule :=
  { Rule.new "t" source with actions := [⟨.call name [] ∅, .record⟩] }

/-- The errors of sources where a call is refused. -/
def IsRefusal (source : String) (k : Keyword) (e : Error) : Prop :=
  ∃ cause, e = .malformed source cause ∧ cause.problem = k.refusal

section Statement

variable {signatures : String → Option Signature} {source name : String} {low : Nat}
  {ks : List TokenKind}

namespace Parser

section Tokens

-- The parts of the tokens that do not matter, and the tokens behind the call.
variable {e : Expr} {p q i j : Position} {t u v w : List Char} {rest : List Token}

/-- Nothing is counted between the parentheses of a call without arguments. -/
theorem callTail_empty (h : callNode signatures name [] ∅ = .ok e) (operand : Parser Expr)
    (start : Token) {nodes : Nat} :
    callTail signatures operand name start
      ⟨⟨.symbol .parenOpen, p, t⟩ :: ⟨.symbol .parenClose, q, u⟩ :: rest, nodes⟩ =
      .ok (e, ⟨rest, nodes⟩) := by
  have hopen : expect .parenOpen
      ⟨⟨.symbol .parenOpen, p, t⟩ :: ⟨.symbol .parenClose, q, u⟩ :: rest, nodes⟩ =
      .ok ((), ⟨⟨.symbol .parenClose, q, u⟩ :: rest, nodes⟩) := rfl
  have hitems : listUntil .parenClose (callItem operand)
      ⟨⟨.symbol .parenClose, q, u⟩ :: rest, nodes⟩ =
      .ok ([], ⟨⟨.symbol .parenClose, q, u⟩ :: rest, nodes⟩) := rfl
  have hclose : expect .parenClose ⟨⟨.symbol .parenClose, q, u⟩ :: rest, nodes⟩ =
      .ok ((), ⟨rest, nodes⟩) := rfl
  rw [callTail, bind_of_ok hopen, bind_of_ok hitems, bind_of_ok hclose]
  dsimp only [List.filterMap_nil, List.foldl_nil]
  rw [h]
  rfl

/-- A call without arguments is one node, which is counted before its name is read. -/
theorem expression_call_empty (h : callNode signatures name [] ∅ = .ok e) (room : Nat) :
    expression (unary signatures (room + 1)) ⟨⟨.ident name, i, v⟩ :: ⟨.symbol .parenOpen, p, t⟩ ::
      ⟨.symbol .parenClose, q, u⟩ :: ⟨.symbol .semicolon, j, w⟩ :: rest, 0⟩ =
      .ok (e, ⟨⟨.symbol .semicolon, j, w⟩ :: rest, 1⟩) := by
  have hprimary : primary signatures (unary signatures room) ⟨⟨.ident name, i, v⟩ ::
      ⟨.symbol .parenOpen, p, t⟩ :: ⟨.symbol .parenClose, q, u⟩ ::
        ⟨.symbol .semicolon, j, w⟩ :: rest, 0⟩ =
      .ok (e, ⟨⟨.symbol .semicolon, j, w⟩ :: rest, 1⟩) :=
    callTail_empty h (unary signatures room) ⟨.ident name, i, v⟩
  have hoperand : unary signatures (room + 1) ⟨⟨.ident name, i, v⟩ ::
      ⟨.symbol .parenOpen, p, t⟩ :: ⟨.symbol .parenClose, q, u⟩ ::
        ⟨.symbol .semicolon, j, w⟩ :: rest, 0⟩ =
      .ok (e, ⟨⟨.symbol .semicolon, j, w⟩ :: rest, 1⟩) :=
    bind_of_ok hprimary (brackets (unary signatures room) operationBudget)
  exact bind_of_ok hoperand (climb (unary signatures (room + 1)) operationBudget 1)

end Tokens

/-- A call without arguments is read to its end without reaching a limit. -/
theorem parses_call_empty {F : SyntaxError → Prop} {e : Expr}
    (h : callNode signatures name [] ∅ = .ok e) :
    Parses F (boundedExpression signatures)
      ⟨.ident name :: .symbol .parenOpen :: .symbol .parenClose :: .symbol .semicolon :: ks, low⟩
      (· = e) ⟨.symbol .semicolon :: ks, low⟩ := by
  -- A place tells how many nodes there are at least.  That the limit is far needs the count itself,
  -- which starts at nothing.
  rintro ⟨tokens, nodes⟩ ⟨hkinds, hlow, hlimit⟩
  simp only [List.map_eq_cons_iff] at hkinds
  obtain ⟨⟨_, p₁, t₁⟩, _, rfl, rfl, ⟨_, p₂, t₂⟩, _, rfl, rfl, ⟨_, p₃, t₃⟩, _, rfl, rfl,
    ⟨_, p₄, t₄⟩, rest, rfl, rfl, rfl⟩ := hkinds
  unfold boundedExpression bounded nestingLimit
  dsimp only
  rw [expression_call_empty h 63]
  exact ⟨rfl, rfl, hlow, hlimit⟩

end Parser

namespace RuleParser

variable {G : Error → Prop} {signature : Signature}

/-- The failures of an action are recorded unless a keyword in front of it says otherwise. -/
theorem parses_failureMode :
    Parses G (failureMode ⟨source, signatures⟩) ⟨.ident name :: ks, low⟩ (· = .record)
      ⟨.ident name :: ks, low⟩ := by
  have hsource : ∀ cause : SyntaxError, False → G (.malformed source cause) := fun _ => False.elim
  refine (parses_lift hsource (Parser.parses_eatKind_other (by simp))).andThen ?_
  refine (parses_lift hsource (Parser.parses_eatKind_other (by simp))).andThen ?_
  exact Parses.pure rfl

/-- A call by any other name is an action of the rule. -/
theorem parses_calling (hreserved : name ∉ Registry.reservedNames)
    (hsignature : signatures name = some signature) (haccepts : signature.accepts 0 = true) :
    Parses G (statement ⟨source, signatures⟩ (Rule.new "t" source)) ⟨.ident name :: callEnd, low⟩
      (· = callingRule source name) ⟨[.symbol .braceClose, .eof], low⟩ := by
  have hsource : ∀ cause : SyntaxError, False → G (.malformed source cause) := fun _ => False.elim
  have haction : Parses G (action ⟨source, signatures⟩ (Rule.new "t" source))
      ⟨.ident name :: callEnd, low⟩ (· = callingRule source name)
      ⟨[.symbol .semicolon, .symbol .braceClose, .eof], low⟩ := by
    refine parses_failureMode.andThen ?_
    refine (parses_lift hsource Parser.parses_peek_any).bind fun start _ => ?_
    have hnode : Parser.callNode signatures name [] ∅ = .ok (.call name [] ∅) := by
      refine Expr.callNode_call hreserved hsignature ?_ ∅
      exact haccepts
    refine (parses_lift hsource (Parser.parses_call_empty hnode)).andThen ?_
    exact (parses_folded rfl start).andThen parses_liftRule
  refine (parses_lift hsource Parser.parses_peek).bind fun start hstart => ?_
  dsimp only
  rw [hstart]
  refine haction.andThen ?_
  exact (parses_lift hsource (Parser.parses_expect .semicolon)).andThen (Parses.pure rfl)

/-- A call by a keyword is no statement. -/
theorem refuses_calling (signatures : String → Option Signature) (source : String) (k : Keyword) :
    Parses (IsRefusal source k) (statement ⟨source, signatures⟩ (Rule.new "t" source))
      ⟨.keyword k :: callEnd, low⟩ (fun _ => False) ⟨[.symbol .braceClose, .eof], low⟩ := by
  rintro ⟨tokens, nodes⟩ ⟨hkinds, -, -⟩
  simp only [callEnd, List.map_eq_cons_iff] at hkinds
  obtain ⟨⟨_, p₁, t₁⟩, _, rfl, rfl, ⟨_, p₂, t₂⟩, _, rfl, rfl, ⟨_, p₃, t₃⟩, _, rfl, rfl,
    ⟨_, p₄, t₄⟩, rest, rfl, rfl, -⟩ := hkinds
  -- Each is refused at one of the first three tokens, before an operator is looked up.
  cases k <;> exact ⟨_, rfl, rfl⟩

end RuleParser

end Statement

/-! ## Which operators can be called -/

namespace RuleSet

variable {r : Registry} {name : String} {op : Operator}

/-- A source that calls an operator is read as its only statement is. -/
theorem readSource_calling {signatures : String → Option Signature} (source : String)
    {k : TokenKind} {R : Rule → Prop} {G : Error → Prop} (hname : Registry.isName name = true)
    (hkind : Lexer.wordKind name.toList = k) (hk : k ≠ .symbol .braceClose)
    (hstatement : Parses G (RuleParser.statement ⟨source, signatures⟩ (Rule.new "t" source))
      ⟨k :: callEnd, 0⟩ R ⟨[.symbol .braceClose, .eof], 0⟩) :
    match readSource ∅ signatures source (calling name) with
    | (.ok (), s) => ∃ rule i, R rule ∧ (∅ : RuleSet).insert rule = .ok (s, i)
    | (.error e, _) => G e := by
  subst hkind
  have hsource : ∀ cause : SyntaxError, False → G (.malformed source cause) := fun _ => False.elim
  exact readSource_of_rule (reads_calling hname) (by simp)
    (RuleParser.parses_rule_of_statement hsource hk hstatement)

/-- A name that is no keyword is called as the operator that it was given to. -/
theorem exists_parse_calling (hname : Registry.isName name = true)
    (hreserved : name ∉ Registry.reservedNames) (hop : r.get? name = some op)
    (hparams : op.signature.params = []) (hword : Keyword.ofSpelling? name.toList = none)
    (source : String) :
    ∃ s rule, parse r.signature? source (calling name) = .ok s ∧ s.get? "t" = some rule ∧
      (rule.vars = ∅ ∧ rule.conditions = []) ∧
      rule.actions = [⟨.call name [] (Register.setParent ∅ (some rule.metadata)), .record⟩] := by
  have hsignature : r.signature? name = some op.signature := by
    rw [Registry.signature?, hop]
    rfl
  have haccepts : op.signature.accepts 0 = true := by
    rw [Signature.accepts_iff, hparams]
    exact ⟨Nat.le_refl 0, fun _ => rfl⟩
  have hkind : Lexer.wordKind name.toList = .ident name := by
    rw [Lexer.wordKind, hword, String.ofList_toList]
  have hread := readSource_calling source hname hkind (by simp)
    (RuleParser.parses_calling (G := fun _ => False) hreserved hsignature haccepts)
  split at hread
  · next s heq =>
    obtain ⟨_, i, rfl, hinsert⟩ := hread
    have hfolded : ∀ e ∈ (callingRule source name).exprs, e.IsFolded := by
      intro e he
      obtain rfl : e = .call name [] ∅ := List.mem_singleton.1 he
      rfl
    obtain ⟨t, hlinked, hget⟩ := linked_single hinsert hfolded rfl rfl rfl rfl
    refine ⟨t, _, ?_, hget, ⟨rfl, rfl⟩, rfl⟩
    rw [← hlinked]
    exact parse_eq heq
  · exact hread.elim

/-- A keyword is not called, whatever operators there are. -/
theorem parse_calling_keyword (signatures : String → Option Signature) (source : String)
    {k : Keyword} (hname : Registry.isName name = true)
    (hword : Keyword.ofSpelling? name.toList = some k) :
    ∃ cause, parse signatures source (calling name) = .error (.malformed source cause) ∧
      cause.problem = k.refusal := by
  have hkind : Lexer.wordKind name.toList = .keyword k := by rw [Lexer.wordKind, hword]
  have hread := readSource_calling source hname hkind (by simp)
    (RuleParser.refuses_calling signatures source k)
  split at hread
  · obtain ⟨_, _, hfalse, -⟩ := hread
    exact hfalse.elim
  · next e _ heq =>
    obtain ⟨cause, rfl, hproblem⟩ := hread
    exact ⟨cause, by rw [parse, heq], hproblem⟩

/--
**Which operators can be called.**  Operators are offered to a registry one by one, and one of those
that are accepted has no parameters.  If its name is no keyword, then the rule that calls it is read
as written: its only statement is the call, in the normal mode, and the name means that operator.
If its name is a keyword, then the rule is malformed.
-/
theorem parse_calling (r : Registry) (offered : List (String × Operator)) (source name : String)
    (op : Operator) (haccepted : (name, op) ∈ r.accepted offered)
    (hparams : op.signature.params = []) :
    match Keyword.ofSpelling? name.toList with
    | none => ∃ s rule,
        parse (r.registerAll offered).signature? source ("rule t \x7b " ++ name ++ "(); \x7d") =
          .ok s ∧
        s.get? "t" = some rule ∧ (rule.vars = ∅ ∧ rule.conditions = []) ∧
        rule.actions = [⟨.call name [] (Register.setParent ∅ (some rule.metadata)), .record⟩] ∧
        (r.registerAll offered).get? name = some op
    | some k => ∃ cause,
        parse (r.registerAll offered).signature? source ("rule t \x7b " ++ name ++ "(); \x7d") =
          .error (.malformed source cause) ∧
        cause.problem = k.refusal := by
  obtain ⟨⟨hname, hreserved⟩, hop⟩ := Registry.get?_of_mem_accepted haccepted
  cases hword : Keyword.ofSpelling? name.toList with
  | none =>
      obtain ⟨s, rule, hparse, hget, hempty, hactions⟩ :=
        exists_parse_calling hname hreserved hop hparams hword source
      exact ⟨s, rule, hparse, hget, hempty, hactions, hop⟩
  | some k => exact parse_calling_keyword _ source hname hword

/-- An operator that takes nothing and says yes. -/
def yes : Operator := ⟨.fixed [], fun _ _ _ => pure (.bool true)⟩

theorem parse_calling_check :
    ("Check", yes) ∈ Registry.accepted ∅ [("Byte", yes), ("Check", yes)] ∧
    yes.signature.params = [] ∧ ∃ s rule,
      parse (Registry.registerAll ∅ [("Byte", yes), ("Check", yes)]).signature? "check"
        ("rule t \x7b " ++ "Check" ++ "(); \x7d") = .ok s ∧
      s.get? "t" = some rule ∧ (rule.vars = ∅ ∧ rule.conditions = []) ∧
      rule.actions = [⟨.call "Check" [] (Register.setParent ∅ (some rule.metadata)), .record⟩] ∧
      (Registry.registerAll ∅ [("Byte", yes), ("Check", yes)]).get? "Check" = some yes := by
  have haccepted : ("Check", yes) ∈ Registry.accepted ∅ [("Byte", yes), ("Check", yes)] :=
    List.mem_cons_self
  exact ⟨haccepted, rfl, parse_calling ∅ _ "check" "Check" yes haccepted rfl⟩

/-- An operator can be registered under a keyword, and then it cannot be called. -/
theorem parse_calling_stop :
    ¬ ∀ (r : Registry) (offered : List (String × Operator)) (source name : String) (op : Operator),
      (name, op) ∈ r.accepted offered → op.signature.params = [] →
      ∃ s rule,
        parse (r.registerAll offered).signature? source ("rule t \x7b " ++ name ++ "(); \x7d") =
          .ok s ∧
        s.get? "t" = some rule ∧
        rule.actions = [⟨.call name [] (Register.setParent ∅ (some rule.metadata)), .record⟩] := by
  intro hcalled
  obtain ⟨s, -, hparse, -⟩ := hcalled ∅ [("stop", yes)] "stop" "stop" yes List.mem_cons_self rfl
  have hname : Registry.isName "stop" = true := by decide
  have hword : Keyword.ofSpelling? "stop".toList = some .stopWord := by decide
  obtain ⟨cause, hrefused, -⟩ := parse_calling_keyword
    (Registry.registerAll ∅ [("stop", yes)]).signature? "stop" hname hword
  exact nomatch hparse.symm.trans hrefused

end RuleSet

end RuleScan
