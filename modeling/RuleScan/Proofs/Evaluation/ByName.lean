import RuleScan.Evaluation

/-!
# Call by name

The meaning of an expression of a rule, without cache and without marks: a reference to a
variable of the rule stands for its expression and is evaluated anew each time.  What the
meaning depends on does not change while the rule is evaluated, so there is no session
either.

Levels are counted only to have a recursion.  The meaning of an expression is the outcome
that it has whenever there are enough of them, so there is no limit to them.  An expression
that needs itself has no meaning, and neither does one that calls an operator, which may do
anything.

## Main results

* `Ends.unique` — a computation has one outcome.
* `Setting.Means`, `Setting.MeansTruth` — the meanings of expressions and conditions.
* `Setting.Verdict` — the outcomes that the meanings of its expressions allow a rule.
-/

namespace RuleScan

/-! ## Calls -/

/-- Whether an expression calls no operator. -/
def Expr.callFree : Expr → Bool
  | .literal _ => true
  | .var _ => true
  | .unary _ e => e.callFree
  | .binary _ l r => l.callFree && r.callFree
  | .index e i => e.callFree && i.callFree
  | .slice e i j => e.callFree && i.callFree && j.callFree
  | .extract _ o n _ => o.callFree && n.callFree
  | .call .. => false

/-- Whether neither the conditions nor the variables of a rule call an operator. -/
def Rule.callFree (r : Rule) : Prop :=
  (∀ c ∈ r.conditions, c.callFree = true) ∧ ∀ x ∈ r.vars.entries, x.2.callFree = true

/-- The errors by which evaluation gives up: it is nested too deep, or a variable needs
itself. -/
def Error.isLimit : Error → Bool
  | .tooDeep _ => true
  | .circularDependency _ => true
  | _ => false

/-! ## Meanings -/

/-- A value or an error, or nothing where levels run out. -/
abbrev Meaning (α : Type) := ExceptT Error Option α

/-- The outcome of a computation that is given enough levels. -/
def Ends {α : Type} (m : Nat → Meaning α) (r : Except Error α) : Prop :=
  ∃ enough, ∀ levels, enough ≤ levels → (m levels).run = some r

theorem Ends.unique {α : Type} {m : Nat → Meaning α} {r r' : Except Error α} (h : Ends m r)
    (h' : Ends m r') : r = r' := by
  obtain ⟨n, hn⟩ := h
  obtain ⟨n', hn'⟩ := h'
  have hmax := hn (max n n') (Nat.le_max_left n n')
  rw [hn' (max n n') (Nat.le_max_right n n'), Option.some.injEq] at hmax
  exact hmax.symm

theorem ends_const {α : Type} {m : Meaning α} {r : Except Error α} (h : m.run = some r) :
    Ends (fun _ => m) r :=
  ⟨0, fun _ _ => h⟩

/-- A sequence has the outcome of its second part after a success of the first, and else
that of the first. -/
theorem Ends.bind {α β : Type} {m : Nat → Meaning α} {k : α → Nat → Meaning β} {a : α}
    {r : Except Error β} (h : Ends m (.ok a)) (hk : Ends (k a) r) :
    Ends (fun n => m n >>= fun a => k a n) r := by
  obtain ⟨n, hn⟩ := h
  obtain ⟨n', hn'⟩ := hk
  refine ⟨max n n', fun levels hle => ?_⟩
  have hm := hn levels (by omega)
  have hr := hn' levels (by omega)
  simp [ExceptT.run_bind, hm, hr]

theorem Ends.bind_error {α β : Type} {m : Nat → Meaning α} {e : Error} (h : Ends m (.error e))
    (k : α → Nat → Meaning β) : Ends (fun n => m n >>= fun a => k a n) (.error e) := by
  obtain ⟨n, hn⟩ := h
  refine ⟨n, fun levels hle => ?_⟩
  simp [ExceptT.run_bind, hn levels hle]

/-- Where one level more than some is enough, some are. -/
theorem Ends.of_succ {α : Type} {m : Nat → Meaning α} {r : Except Error α}
    (h : Ends (fun n => m (n + 1)) r) : Ends m r := by
  obtain ⟨n, hn⟩ := h
  refine ⟨n + 1, fun levels hle => ?_⟩
  obtain ⟨k, rfl⟩ : ∃ k, levels = k + 1 := ⟨levels - 1, by omega⟩
  exact hn k (by omega)

/-- The meaning of an operation on values. -/
def Meaning.ofValue {α : Type} : Except ValueError α → Meaning α
  | .ok a => pure a
  | .error e => throw (.value e)

/-- What the expressions of a rule depend on: its variables, the frames of its ancestors,
the globals and the current file. -/
structure Setting where
  vars : Table String Expr
  outer : Scope
  globals : Register
  source : Source

namespace Setting

open Meaning

/-- The value of a global. -/
def global (w : Setting) (name : String) : Meaning Value :=
  match w.globals.get? name with
  | some v => pure v
  | none => throw (.unresolvedVariable name)

/-- The value of a name that is not a variable of the rule: that of the innermost ancestor
that declares it, else the global one.  Names with a `$` in front are global. -/
def inherited (w : Setting) (name : String) : Meaning Value :=
  if name.toList.head? = some '$' then w.global name
  else
    match w.outer.value? name with
    | some v => pure v
    | none => w.global name

/-- The value of an extract from the current file. -/
def extract (w : Setting) (format : ExtractFormat) (offset size : Nat) (metadata : Register) :
    Meaning Value :=
  match format with
  | .number =>
    match Width.ofBytes? size with
    | none => throw (.invalidWidth size)
    | some width => do
      let bytes ← ofExcept (w.source.read offset width.bytes)
      pure (Environment.numberOfBytes width metadata bytes)
  | .string => do
    let bytes ← ofExcept (w.source.read offset size)
    pure (.bytes bytes)
  | .stringz => do
    let bytes ← ofExcept (w.source.readTerminated offset size)
    pure (.bytes bytes)

/-- The value of an expression, given the values of the expressions that it needs. -/
def node (w : Setting) (value : Expr → Meaning Value) : Expr → Meaning Value
  | .literal v => pure v
  | .var name =>
    match w.vars.get? name with
    | some e => value e
    | none => w.inherited name
  | .unary op e => do
    let v ← value e
    ofValue (Value.unary op v)
  | .binary (.connective c) l r => do
    let p ← ofValue (← value l).truthy
    if p = c.decisive then pure (.bool p)
    else
      let q ← ofValue (← value r).truthy
      pure (.bool q)
  | .binary op l r => do
    let v ← value l
    let u ← value r
    ofValue (Value.binary op v u)
  | .index e i => do
    let v ← value e
    let start ← value i
    ofValue (Value.index v start)
  | .slice e i j => do
    let v ← value e
    let start ← value i
    let stop ← value j
    ofValue (Value.slice v start stop)
  | .extract format o n metadata => do
    let offset ← ofValue (← value o).asOffset
    let size ← ofValue (← value n).asOffset
    w.extract format offset size metadata
  | .call .. => none

theorem node_own {w : Setting} {name : String} {e : Expr} (h : w.vars.get? name = some e)
    (value : Expr → Meaning Value) : w.node value (.var name) = value e := by
  simp [node, h]

theorem node_inherited {w : Setting} {name : String} (h : w.vars.get? name = none)
    (value : Expr → Meaning Value) : w.node value (.var name) = w.inherited name := by
  simp [node, h]

/-- The value of an expression, as far as so many levels give it. -/
def byName (w : Setting) : Nat → Expr → Meaning Value
  | 0, _ => none
  | levels + 1, e => w.node (w.byName levels) e

/-- The truth value of a condition, as far as so many levels give it. -/
def truth (w : Setting) (levels : Nat) (c : Expr) : Meaning Bool := do
  ofValue (← w.byName levels c).truthy

/-- The outcome of evaluating an expression by name. -/
def Means (w : Setting) (e : Expr) (r : Except Error Value) : Prop :=
  Ends (fun levels => w.byName levels e) r

/-- The outcome of taking the truth value of a condition by name. -/
def MeansTruth (w : Setting) (c : Expr) (r : Except Error Bool) : Prop :=
  Ends (fun levels => w.truth levels c) r

/-! ## Rules -/

/-- All of some conditions are true. -/
def AllTrue (w : Setting) (cs : List Expr) : Prop := ∀ c ∈ cs, w.MeansTruth c (.ok true)

/-- All of some variables have values. -/
def AllDefined (w : Setting) (xs : List (String × Expr)) : Prop :=
  ∀ x ∈ xs, ∃ v, w.Means x.2 (.ok v)

/-- The conditions are true up to one that has this outcome. -/
def Stops (w : Setting) (cs : List Expr) (outcome : Except Error Bool) : Prop :=
  ∃ before c after, cs = before ++ c :: after ∧ w.AllTrue before ∧ w.MeansTruth c outcome

/-- The variables have values up to one that fails. -/
def Fails (w : Setting) (xs : List (String × Expr)) (cause : Error) : Prop :=
  ∃ before x after, xs = before ++ x :: after ∧ w.AllDefined before ∧ w.Means x.2 (.error cause)

/--
The outcomes that the meanings of its expressions allow a rule.  A match has all conditions
true and every variable with its value; without a match the first condition that is not
true is false; and an error that is not one of giving up is the error of the first
condition, else of the first variable, that fails.
-/
inductive Verdict (w : Setting) (r : Rule) : Except Error (Option Match) → Prop
  | matched {m : Match} (conditions : w.AllTrue r.conditions)
      (values : ∀ x ∈ r.vars.entries, ∃ v, w.Means x.2 (.ok v) ∧ m.vars.get? x.1 = some v) :
      Verdict w r (.ok (some m))
  | rejected (conditions : w.Stops r.conditions (.ok false)) : Verdict w r (.ok none)
  | gaveUp {cause : Error} (limit : cause.isLimit = true) : Verdict w r (.error cause)
  | badCondition {cause : Error} (conditions : w.Stops r.conditions (.error cause)) :
      Verdict w r (.error cause)
  | badVariable {cause : Error} (conditions : w.AllTrue r.conditions)
      (failing : w.Fails r.vars.entries cause) : Verdict w r (.error cause)

end Setting

end RuleScan
