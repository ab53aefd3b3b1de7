import RuleScan.Rule.Parser

/-!
# What parsers yield

A parser either fails or yields something and moves on.  `Yields p P` says that everything the
parser `p` yields satisfies `P`, wherever it is started.  The statement composes along a
sequence of steps, so a property of expressions that all ways of building one preserve
(`Parser.Constructs`) holds of every expression that is read, and a property of expressions
that folding establishes holds of every expression of a rule that is read.

## Main results

* `yields_bind`, `yields_listUntil` — sequences and lists.
* `Parser.Constructs.unary`, `Parser.Constructs.boundedExpression` — every expression that is
  read has a property that is preserved by building.
* `RuleParser.Establishes.rule` — a rule that was read is open and without links, and its
  expressions have the properties that reading and folding establish.
-/

namespace RuleScan

variable {ε α β : Type} {P : α → Prop} {Q : β → Prop}

/-- Everything that the parser yields has the property. -/
def Yields (p : StateT Cursor (Except ε) α) (P : α → Prop) : Prop :=
  ∀ c a c', p c = .ok (a, c') → P a

theorem yields_pure {a : α} (h : P a) : Yields (pure a : StateT Cursor (Except ε) α) P := by
  intro c b c' hb
  cases hb
  exact h

theorem yields_any (p : StateT Cursor (Except ε) α) : Yields p fun _ => True :=
  fun _ _ _ _ => trivial

theorem yields_bind {p : StateT Cursor (Except ε) α} {f : α → StateT Cursor (Except ε) β}
    (hp : Yields p P) (hf : ∀ a, P a → Yields (f a) Q) : Yields (p >>= f) Q := by
  intro c b c' h
  obtain ⟨⟨a, c₁⟩, ha, hb⟩ := Expr.bind_eq_ok (x := p c) (f := fun x => f x.1 x.2) h
  exact hf a (hp c a c₁ ha) c₁ b c' hb

/-- A step whose answer does not matter. -/
theorem yields_then {p : StateT Cursor (Except ε) α} {f : α → StateT Cursor (Except ε) β}
    (hf : ∀ a, Yields (f a) Q) : Yields (p >>= f) Q :=
  yields_bind (yields_any p) fun a _ => hf a

theorem yields_error {p : StateT Cursor (Except ε) α} {error : Cursor → ε}
    (h : ∀ c, p c = .error (error c)) : Yields p P := by
  intro c a c' ha
  rw [h] at ha
  cases ha

theorem yields_ite {b : Prop} [Decidable b] {p q : StateT Cursor (Except ε) α}
    (hp : Yields p P) (hq : Yields q P) : Yields (if b then p else q) P := by
  split <;> assumption

namespace Parser

theorem yields_failAt (t : Token) (problem : SyntaxProblem) :
    Yields (failAt t problem : Parser α) P :=
  yields_error fun _ => rfl

/-! ## Lists -/

theorem yields_commaSeparated {item : Parser α} (h : Yields item P) (budget : Nat) :
    Yields (commaSeparated item budget) fun xs => ∀ x ∈ xs, P x := by
  induction budget with
  | zero => exact yields_pure fun _ hx => nomatch hx
  | succ budget ih =>
      refine yields_bind h fun x hx => yields_then fun more => ?_
      cases more with
      | false => exact yields_pure (by simpa using hx)
      | true => exact yields_bind ih fun rest hrest => yields_pure (by simpa using ⟨hx, hrest⟩)

theorem yields_listUntil {item : Parser α} (h : Yields item P) (close : Symbol) :
    Yields (listUntil close item) fun xs => ∀ x ∈ xs, P x := by
  refine yields_then fun closes => ?_
  cases closes with
  | true => exact yields_pure fun _ hx => nomatch hx
  | false => exact yields_then fun budget => yields_commaSeparated h budget

theorem yields_bounded {p : Parser α} (h : Yields p P) : Yields (bounded p) P := by
  intro c a c' ha
  unfold bounded at ha
  cases hp : p { c with nodes := 0 } with
  | error e => simp [hp] at ha
  | ok r =>
      simp only [hp, Except.ok.injEq, Prod.mk.injEq] at ha
      exact ha.1 ▸ h _ _ _ hp

/-! ## Expressions -/

/-- A property of expressions that every way in which the reader builds one preserves. -/
structure Constructs (signatures : String → Option Signature) (P : Expr → Prop) : Prop where
  literal : ∀ v, P (.literal v)
  var : ∀ name, P (.var name)
  unary : ∀ op {e}, P e → P (.unary op e)
  binary : ∀ op {l r}, P l → P r → P (.binary op l r)
  index : ∀ {e i}, P e → P i → P (.index e i)
  slice : ∀ {e i j}, P e → P i → P j → P (.slice e i j)
  call : ∀ {name args m e}, callNode signatures name args m = .ok e → (∀ a ∈ args, P a) → P e

namespace Constructs

variable {signatures : String → Option Signature} {P : Expr → Prop} {operand : Parser Expr}

theorem climb (hP : Constructs signatures P) (h : Yields operand P) (budget least : Nat)
    {left : Expr} (hleft : P left) : Yields (climb operand budget least left) P := by
  induction budget generalizing least left with
  | zero => exact yields_pure hleft
  | succ budget ih =>
      refine yields_then fun t => ?_
      cases BinaryOp.ofKind? t.kind with
      | none => exact yields_pure hleft
      | some op =>
          refine yields_ite (yields_pure hleft) (yields_then fun _ => ?_)
          refine yields_bind h fun first hfirst => ?_
          refine yields_bind (ih _ hfirst) fun right hright => yields_then fun _ => ?_
          exact ih least (hP.binary op hleft hright)

theorem expression (hP : Constructs signatures P) (h : Yields operand P) :
    Yields (expression operand) P :=
  yields_bind h fun _ hfirst => hP.climb h operationBudget 1 hfirst

theorem brackets (hP : Constructs signatures P) (h : Yields operand P) (budget : Nat)
    {e : Expr} (he : P e) : Yields (brackets operand budget e) P := by
  induction budget generalizing e with
  | zero => exact yields_pure he
  | succ budget ih =>
      refine yields_then fun opens => ?_
      cases opens with
      | false => exact yields_pure he
      | true =>
          refine yields_bind (hP.expression h) fun start hstart => yields_then fun ranges => ?_
          cases ranges with
          | false =>
              exact yields_then fun _ => yields_then fun _ => ih (hP.index he hstart)
          | true =>
              refine yields_bind (hP.expression h) fun stop hstop => ?_
              exact yields_then fun _ => yields_then fun _ => ih (hP.slice he hstart hstop)

theorem callItem (hP : Constructs signatures P) (h : Yields operand P) :
    Yields (callItem operand) fun item => ∀ e, item.getLeft? = some e → P e := by
  refine yields_then fun t => yields_then fun second => ?_
  split
  · exact yields_then fun _ => yields_then fun _ => yields_then fun v =>
      yields_pure fun e he => nomatch he
  · refine yields_bind (hP.expression h) fun e he => yields_pure fun e' he' => ?_
    cases he'
    exact he

theorem callTail (hP : Constructs signatures P) (h : Yields operand P) (name : String)
    (start : Token) : Yields (callTail signatures operand name start) P := by
  refine yields_then fun _ => ?_
  refine yields_bind (yields_listUntil (hP.callItem h) .parenClose) fun items hitems => ?_
  refine yields_then fun _ => ?_
  dsimp only
  split
  · next e he =>
    refine yields_pure (hP.call he fun a ha => ?_)
    obtain ⟨item, hmem, hitem⟩ := List.mem_filterMap.1 ha
    exact hitems item hmem a hitem
  · exact yields_failAt _ _

theorem byteArray (hP : Constructs signatures P) : Yields (byteArray operand) P := by
  unfold Parser.byteArray
  refine yields_then fun bytes => yields_then fun _ => ?_
  exact yields_pure (hP.literal (.bytes bytes))

theorem primary (hP : Constructs signatures P) (h : Yields operand P) :
    Yields (primary signatures operand) P := by
  refine yields_then fun _ => yields_then fun t => ?_
  cases t.kind with
  | number n => exact yields_pure (hP.literal _)
  | string bytes => exact yields_pure (hP.literal _)
  | char b => exact yields_pure (hP.literal _)
  | special name => exact yields_pure (hP.var _)
  | ident name =>
      refine yields_then fun opens => ?_
      exact yields_ite (hP.callTail h _ t) (yields_pure (hP.var _))
  | keyword k =>
      cases k with
      | trueWord => exact yields_pure (hP.literal _)
      | falseWord => exact yields_pure (hP.literal _)
      | _ => exact yields_failAt _ _
  | symbol s =>
      cases s with
      | parenOpen =>
          exact yields_bind (hP.expression h) fun e he => yields_then fun _ => yields_pure he
      | braceOpen => exact hP.byteArray
      | _ => exact yields_failAt _ _
  | eof => exact yields_failAt _ _

theorem operandAround (hP : Constructs signatures P) (h : Yields operand P) :
    Yields (operandAround signatures operand) P := by
  refine yields_then fun t => ?_
  cases UnaryOp.ofKind? t.kind with
  | some op =>
      exact yields_then fun _ => yields_bind h fun e he => yields_then fun _ =>
        yields_pure (hP.unary op he)
  | none => exact yields_bind (hP.primary h) fun e he => hP.brackets h operationBudget he

/-- The induction is on the room: an operand is read with the parser for operands one level
further in. -/
theorem unary_room (hP : Constructs signatures P) (room : Nat) :
    Yields (Parser.unary signatures room) P := by
  induction room with
  | zero => exact yields_error fun _ => rfl
  | succ room ih => exact hP.operandAround ih

theorem boundedExpression (hP : Constructs signatures P) :
    Yields (boundedExpression signatures) P :=
  yields_bounded (hP.expression (hP.unary_room nestingLimit))

end Constructs

end Parser

/-! ## Rules -/

/-- The expressions of a rule: those of its variables, its conditions and its actions. -/
def Rule.exprs (r : Rule) : List Expr :=
  r.vars.values ++ r.conditions ++ r.actions.map RuleAction.expr

theorem Rule.mem_exprs {r : Rule} {e : Expr} :
    e ∈ r.exprs ↔ e ∈ r.vars.values ∨ e ∈ r.conditions ∨ ∃ a ∈ r.actions, a.expr = e := by
  simp [exprs]

/-- A rule as it is read: open, without links, and with a property of its expressions. -/
structure Rule.IsRaw (P : Expr → Prop) (r : Rule) : Prop where
  closed : r.closed = false
  parent : r.parent = none
  children : r.children = []
  outer : r.metadata.outer = []
  exprs : ∀ e ∈ r.exprs, P e

namespace Rule.IsRaw

variable {P : Expr → Prop} {r r' : Rule}

theorem new (id source : String) : (Rule.new id source).IsRaw P :=
  ⟨rfl, rfl, rfl, rfl, fun _ h => nomatch h⟩

/-- An open rule takes every change. -/
theorem of_edit (h : r.IsRaw P) {f : Rule → Except Error Rule} (hr : r.edit f = .ok r') :
    f r = .ok r' := by
  simpa [edit, h.closed] using hr

theorem setMetadata (h : r.IsRaw P) {key : String} {v : Value}
    (hr : r.setMetadata key v = .ok r') : r'.IsRaw P := by
  cases h.of_edit hr
  exact ⟨h.closed, h.parent, h.children, h.outer, h.exprs⟩

theorem setParentName (h : r.IsRaw P) {name : String} (hr : r.setParentName name = .ok r') :
    r'.IsRaw P := by
  cases h.of_edit hr
  exact ⟨h.closed, h.parent, h.children, h.outer, h.exprs⟩

theorem declare (h : r.IsRaw P) {name : String} {e : Expr} (he : P e)
    (hr : r.declare name e = .ok r') : r'.IsRaw P := by
  have hr := h.of_edit hr
  split at hr
  · cases hr
  · cases hr
    refine ⟨h.closed, h.parent, h.children, h.outer, fun e' he' => ?_⟩
    obtain hvar | hother := mem_exprs.1 he'
    · obtain rfl | hold := Table.mem_values_insert hvar
      · exact he
      · exact h.exprs e' (mem_exprs.2 (Or.inl hold))
    · exact h.exprs e' (mem_exprs.2 (Or.inr hother))

theorem addCondition (h : r.IsRaw P) {e : Expr} (he : P e) (hr : r.addCondition e = .ok r') :
    r'.IsRaw P := by
  cases h.of_edit hr
  refine ⟨h.closed, h.parent, h.children, h.outer, fun e' he' => ?_⟩
  obtain hvar | hcond | hact := mem_exprs.1 he'
  · exact h.exprs e' (mem_exprs.2 (Or.inl hvar))
  · obtain hold | hnew := List.mem_append.1 hcond
    · exact h.exprs e' (mem_exprs.2 (Or.inr (Or.inl hold)))
    · exact List.mem_singleton.1 hnew ▸ he
  · exact h.exprs e' (mem_exprs.2 (Or.inr (Or.inr hact)))

theorem addAction (h : r.IsRaw P) {e : Expr} {mode : FailureMode} (he : P e)
    (hr : r.addAction e mode = .ok r') : r'.IsRaw P := by
  cases h.of_edit hr
  refine ⟨h.closed, h.parent, h.children, h.outer, fun e' he' => ?_⟩
  obtain hvar | hcond | ⟨a, ha, rfl⟩ := mem_exprs.1 he'
  · exact h.exprs e' (mem_exprs.2 (Or.inl hvar))
  · exact h.exprs e' (mem_exprs.2 (Or.inr (Or.inl hcond)))
  · obtain hold | hnew := List.mem_append.1 ha
    · exact h.exprs a.expr (mem_exprs.2 (Or.inr (Or.inr ⟨a, hold, rfl⟩)))
    · exact List.mem_singleton.1 hnew ▸ he

end Rule.IsRaw

namespace RuleParser

variable {setting : Setting} {P Q : Expr → Prop}

theorem yields_lift {p : Parser α} {P : α → Prop} (h : Yields p P) :
    Yields (lift setting p) P := by
  intro c a c' ha
  unfold lift at ha
  cases hp : p c with
  | error e => simp [hp] at ha
  | ok r =>
      simp only [hp, Except.ok.injEq] at ha
      exact h c a c' (hp.trans (congrArg Except.ok ha))

theorem yields_liftRule {r : Except Error α} {P : α → Prop} (h : ∀ a, r = .ok a → P a) :
    Yields (liftRule r) P := by
  intro c a c' ha
  unfold liftRule at ha
  cases r with
  | error e => cases ha
  | ok a' =>
      simp only [Except.ok.injEq, Prod.mk.injEq] at ha
      exact ha.1 ▸ h a' rfl

theorem yields_folded (e : Expr) (start : Token) :
    Yields (folded setting e start) fun e' => e.simplify = .ok e' := by
  unfold folded
  cases h : e.simplify with
  | error cause => exact yields_lift (yields_error fun _ => rfl)
  | ok e' => exact yields_pure rfl

/-- A property of expressions that is established by reading and folding them. -/
structure Establishes (setting : Setting) (Q P : Expr → Prop) : Prop where
  read : Yields (Parser.boundedExpression setting.signatures) Q
  folded : ∀ {e e'}, Q e → e.simplify = .ok e' → P e'

namespace Establishes

variable {r : Rule}

/-- Reads an expression, folds it, and puts it into a rule. -/
theorem statement_expr (h : Establishes setting Q P) (start : Token)
    {put : Expr → Except Error Rule} (hput : ∀ e r', P e → put e = .ok r' → r'.IsRaw P) :
    Yields (do
      let e ← lift setting (Parser.boundedExpression setting.signatures)
      let e ← RuleParser.folded setting e start
      liftRule (put e)) (Rule.IsRaw P) :=
  yields_bind (yields_lift h.read) fun _ he => yields_bind (yields_folded _ start) fun e' he' =>
    yields_liftRule fun r' hr' => hput e' r' (h.folded he he') hr'

theorem varDeclaration (h : Establishes setting Q P) (hr : r.IsRaw P) :
    Yields (varDeclaration setting r) (Rule.IsRaw P) :=
  yields_then fun _ => yields_then fun _ => yields_then fun start =>
    h.statement_expr start fun _ _ he hr' => hr.declare he hr'

theorem condition (h : Establishes setting Q P) (hr : r.IsRaw P) :
    Yields (condition setting r) (Rule.IsRaw P) :=
  yields_then fun start => h.statement_expr start fun _ _ he hr' => hr.addCondition he hr'

theorem action (h : Establishes setting Q P) (hr : r.IsRaw P) :
    Yields (action setting r) (Rule.IsRaw P) := by
  refine yields_then fun mode => yields_then fun start => ?_
  refine yields_bind (yields_lift h.read) fun e he => yields_ite ?_ (yields_lift ?_)
  · exact yields_bind (yields_folded e start) fun e' he' =>
      yields_liftRule fun r' hr' => hr.addAction (h.folded he he') hr'
  · exact Parser.yields_failAt start .notCall

theorem statement (h : Establishes setting Q P) (hr : r.IsRaw P) :
    Yields (statement setting r) (Rule.IsRaw P) := by
  have hend : ∀ r', r'.IsRaw P →
      Yields (do lift setting (Parser.expect .semicolon); pure r') (Rule.IsRaw P) :=
    fun _ hr' => yields_then fun _ => yields_pure hr'
  refine yields_then fun start => ?_
  dsimp only
  split
  · exact yields_bind (yields_lift (Parser.yields_failAt start _)) hend
  · exact yields_then fun _ => yields_bind (h.varDeclaration hr) hend
  · exact yields_then fun _ => yields_bind (h.condition hr) hend
  · exact yields_bind (h.action hr) hend

theorem statements (h : Establishes setting Q P) (budget : Nat) (hr : r.IsRaw P) :
    Yields (statements setting budget r) (Rule.IsRaw P) := by
  induction budget generalizing r with
  | zero => exact yields_pure hr
  | succ budget ih =>
      refine yields_then fun ends => ?_
      cases ends with
      | true => exact yields_pure hr
      | false => exact yields_bind (h.statement hr) fun r' hr' => ih hr'

/-- The metadata of a rule is put into it entry by entry. -/
theorem foldlM_setMetadata (hr : r.IsRaw P) (entries : List (String × Value)) :
    Yields (entries.foldlM (fun r (key, v) => liftRule (r.setMetadata key v)) r)
      (Rule.IsRaw P) := by
  induction entries generalizing r with
  | nil => exact yields_pure hr
  | cons entry rest ih =>
      rw [List.foldlM_cons]
      exact yields_bind (yields_liftRule fun r' hr' => hr.setMetadata hr') fun r' hr' => ih hr'

/-- A rule that was read is raw. -/
theorem rule (h : Establishes setting Q P) : Yields (rule setting) (Rule.IsRaw P) := by
  have hend : ∀ r, r.IsRaw P → Yields (do
      lift setting (Parser.expect .braceOpen)
      RuleParser.statements setting ((← lift setting Parser.remaining) + 1) r)
      (Rule.IsRaw P) :=
    fun r hr => yields_then fun _ => yields_then fun n => h.statements (n + 1) hr
  refine yields_then fun _ => yields_then fun id => yields_then fun entries => ?_
  have hnew : (Rule.new id setting.source).IsRaw P := .new id setting.source
  refine yields_bind (foldlM_setMetadata hnew entries) fun r hr => ?_
  refine yields_then fun parent => ?_
  dsimp only
  split
  · exact yields_bind (yields_liftRule fun r' hr' => hr.setParentName hr') hend
  · exact yields_bind (yields_pure hr) hend

end Establishes

end RuleParser

end RuleScan
