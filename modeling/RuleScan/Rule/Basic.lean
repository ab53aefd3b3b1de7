import RuleScan.Error
import RuleScan.Expr.Fold
import RuleScan.Text.Blank

/-!
# Rules

A rule has variables, conditions and actions, metadata that steers how they are
read, and possibly a parent. It is open while it is being put together and closed
when its set is linked: closing chains its metadata to that of the parent, folds
every expression and chains the metadata inside them. A closed rule can no longer be
changed.

## Main results

* `close_closed` — a closed rule cannot be closed again.
* `close_ok` — closing successfully closes.
-/

namespace RuleScan

/-- The position of a rule in its set. -/
abbrev RuleId := Nat

/-- What the failure of an action means for the rule it belongs to. -/
inductive FailureMode where
  /-- The failure is recorded and the next action runs. -/
  | record
  /-- The failure is dropped, unless it is internal. -/
  | ignore
  /-- As `record`, and success keeps the remaining actions from running. -/
  | stop
  deriving DecidableEq, Repr, Inhabited

/-- A call that runs once a rule has matched. -/
structure RuleAction where
  expr : Expr
  mode : FailureMode
  deriving DecidableEq, Inhabited

/-- A rule, open or closed. -/
structure Rule where
  id : String
  source : String
  metadata : Register
  vars : Table String Expr
  conditions : List Expr
  actions : List RuleAction
  parentName : Option String
  parent : Option RuleId
  children : List RuleId
  closed : Bool
  deriving DecidableEq, Inhabited

namespace Rule

/-- An open rule without any statement. -/
def new (id source : String) : Rule :=
  ⟨id, source, ∅, ∅, [], [], none, none, [], false⟩

/-- Changes a rule that is still open. -/
def edit (r : Rule) (f : Rule → Except Error Rule) : Except Error Rule :=
  if r.closed then .error (.ruleClosed r.id) else f r

/-- Sets an entry of the metadata. -/
def setMetadata (r : Rule) (key : String) (value : Value) : Except Error Rule :=
  r.edit fun r => .ok { r with metadata := r.metadata.set key value }

/-- Declares a variable, which must be the first of its name. -/
def declare (r : Rule) (name : String) (e : Expr) : Except Error Rule :=
  r.edit fun r =>
    if r.vars.contains name then .error (.duplicateVariable r.id name)
    else .ok { r with vars := r.vars.insert name e }

/-- Adds a condition after the others. -/
def addCondition (r : Rule) (e : Expr) : Except Error Rule :=
  r.edit fun r => .ok { r with conditions := r.conditions ++ [e] }

/-- Adds an action after the others. -/
def addAction (r : Rule) (e : Expr) (mode : FailureMode) : Except Error Rule :=
  r.edit fun r => .ok { r with actions := r.actions ++ [⟨e, mode⟩] }

/-- Names the parent. -/
def setParentName (r : Rule) (parent : String) : Except Error Rule :=
  r.edit fun r => .ok { r with parentName := some parent }

/-- The pass in which a rule without a parent runs: its metadata `pass`, or else zero. -/
def pass (r : Rule) : Int :=
  match r.metadata.number? "pass" with
  | some n => if n.toInt < 0x8000000000000000 then n.toInt else 0
  | none => 0

/-- The tags listed, between commas, in the metadata `tag`. -/
def tags (r : Rule) : List String :=
  match r.metadata.bytes? "tag" with
  | some b =>
    let parts := (Text.splitOn ',' (Utf8.lossy b).toList).map Text.trimChars
    (parts.filter fun part => !part.isEmpty).map String.ofList
  | none => []

/-! ## Closing -/

/-- An expression as it stands in a closed rule. -/
def settle (metadata : Register) (e : Expr) : Except Error Expr :=
  match e.simplify with
  | .ok e => .ok (e.bindMetadata metadata)
  | .error cause => .error (.value cause)

/-- Settles the expressions of a list up to the first that cannot be. -/
def settleAll (metadata : Register) : List Expr → Option Error × List Expr
  | [] => (none, [])
  | e :: rest =>
    match settle metadata e with
    | .error cause => (some cause, e :: rest)
    | .ok e => ((settleAll metadata rest).1, e :: (settleAll metadata rest).2)

/-- Settles the actions of a list up to the first that cannot be. -/
def settleActions (metadata : Register) : List RuleAction → Option Error × List RuleAction
  | [] => (none, [])
  | a :: rest =>
    match settle metadata a.expr with
    | .error cause => (some cause, a :: rest)
    | .ok e => ((settleActions metadata rest).1, ⟨e, a.mode⟩ :: (settleActions metadata rest).2)

/--
Closes a rule under the metadata of its parent. When an expression cannot be folded
the rule stays open; what was settled before it stays settled.
-/
def close (r : Rule) (parent : Option Register) : Except Error Unit × Rule :=
  if r.closed then (.error (.ruleClosed r.id), r)
  else
    let metadata := r.metadata.setParent parent
    let r := { r with metadata }
    let (fault, vars) := r.vars.update (settle metadata)
    let r := { r with vars }
    match fault with
    | some e => (.error e, r)
    | none =>
      let (fault, conditions) := settleAll metadata r.conditions
      let r := { r with conditions }
      match fault with
      | some e => (.error e, r)
      | none =>
        let (fault, actions) := settleActions metadata r.actions
        let r := { r with actions }
        match fault with
        | some e => (.error e, r)
        | none => (.ok (), { r with closed := true })

theorem close_closed {r : Rule} (h : r.closed) (parent : Option Register) :
    r.close parent = (.error (.ruleClosed r.id), r) := by
  simp [close, h]

theorem close_ok {r : Rule} {parent : Option Register} (h : (r.close parent).1 = .ok ()) :
    (r.close parent).2.closed := by
  unfold close at h ⊢
  by_cases hc : r.closed
  · simp [hc] at h
  · simp only [hc, Bool.false_eq_true, if_false] at h ⊢
    cases h1 : (r.vars.update (settle (r.metadata.setParent parent))).1 with
    | some e => simp [h1] at h
    | none =>
      simp only [h1] at h ⊢
      cases h2 : (settleAll (r.metadata.setParent parent) r.conditions).1 with
      | some e => simp [h2] at h
      | none =>
        simp only [h2] at h ⊢
        cases h3 : (settleActions (r.metadata.setParent parent) r.actions).1 with
        | some e => simp [h3] at h
        | none => simp

end Rule

end RuleScan
