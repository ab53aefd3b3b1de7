import RuleScan.Match
import RuleScan.Operator.Registry

/-!
# Evaluation

Expressions are reduced to values and rules to matches, over a session. Evaluation is
nested: an expression in an operation, the expression of a variable, a child rule each
go one level further in. The session counts the levels; their number is limited, and the
level below the last one fails. So an evaluator is written over the evaluators of the
next level, and the levels that are left when it is called bound its recursion.

A variable is evaluated when it is first needed. Its binding is in progress meanwhile,
so a variable that needs itself is noticed; if its evaluation fails, the binding goes
back to what it was.

## Main results

* `settle_ok`, `settle_error` — how the outcome of its expression settles a variable.
* `resolveWith_dollar`, `resolveWith_outside`, `resolveWith_scoped` — where a name is
  looked up.
* `evaluateWithin_succ`, `evaluateRuleWithin_succ` — how the levels of evaluation hang
  together.
-/

namespace RuleScan

/-- What evaluation is about: the rules, and the operators that they call. -/
structure Environment where
  rules : RuleSet
  operators : Registry

namespace Environment

/-- The number of levels that evaluation may nest. -/
def depthLimit : Nat := 512

/-! ## Variables -/

/-- Evaluates a variable's expression and settles its binding by the outcome. -/
def settle (eval : Expr → Step Value) (level : Nat) (name : String) (e : Expr) : Step Value := do
  Step.change fun s => { s with scope := s.scope.replaceAt level name .inProgress }
  match ← (eval e).attempt with
  | .ok v =>
    Step.change fun s => { s with scope := s.scope.replaceAt level name (.resolved v) }
    pure v
  | .error cause =>
    Step.change fun s => { s with scope := s.scope.replaceAt level name (.unevaluated e) }
    throw cause

/--
The value of a name. Names with a `$` in front are global; other names are looked up
in the scope, which must not be empty, and are global if no frame binds them.
-/
def resolveWith (eval : Expr → Step Value) (name : String) : Step Value := do
  if name.toList.head? = some '$' then Step.global name
  else
    let scope ← Step.view Session.scope
    if scope.isEmpty then throw (.missingScope name)
    else
      match scope.lookup name with
      | none => Step.global name
      | some (_, .resolved v) => pure v
      | some (_, .inProgress) => throw (.circularDependency name)
      | some (level, .unevaluated e) => settle eval level name e

section

variable {eval : Expr → Step Value} {level : Nat} {name : String} {e : Expr} {s s' : Session}

theorem settle_ok {v : Value}
    (h : eval e { s with scope := s.scope.replaceAt level name .inProgress } = .ok v s') :
    settle eval level name e s =
      .ok v { s' with scope := s'.scope.replaceAt level name (.resolved v) } := by
  show EStateM.bind _ _ _ = _
  simp only [bind, EStateM.bind, Step.attempt_ok h]
  rfl

theorem settle_error {cause : Error}
    (h : eval e { s with scope := s.scope.replaceAt level name .inProgress } = .error cause s') :
    settle eval level name e s =
      .error cause { s' with scope := s'.scope.replaceAt level name (.unevaluated e) } := by
  show EStateM.bind _ _ _ = _
  simp only [bind, EStateM.bind, Step.attempt_error h]
  rfl

theorem resolveWith_dollar (h : name.toList.head? = some '$') :
    resolveWith eval name = Step.global name := by
  simp [resolveWith, h]

theorem resolveWith_outside (h : name.toList.head? ≠ some '$') (hs : s.scope.isEmpty = true) :
    resolveWith eval name s = .error (.missingScope name) s := by
  simp only [resolveWith, h, if_false]
  show (if s.scope.isEmpty then (throw (.missingScope name) : Step Value) else _) s = _
  simp [hs]
  rfl

theorem resolveWith_scoped (h : name.toList.head? ≠ some '$') (hs : s.scope.isEmpty = false) :
    resolveWith eval name s =
      (match s.scope.lookup name with
      | none => Step.global name
      | some (_, .resolved v) => pure v
      | some (_, .inProgress) => throw (.circularDependency name)
      | some (level, .unevaluated e) => settle eval level name e : Step Value) s := by
  simp only [resolveWith, h, if_false]
  show (if s.scope.isEmpty then (throw (.missingScope name) : Step Value) else _) s = _
  simp [hs]

theorem resolveWith_resolved {v : Value} (h : name.toList.head? ≠ some '$')
    (hl : s.scope.lookup name = some (level, .resolved v)) :
    resolveWith eval name s = .ok v s := by
  rw [resolveWith_scoped h (Scope.isEmpty_of_lookup hl), hl]
  rfl

theorem resolveWith_inProgress (h : name.toList.head? ≠ some '$')
    (hl : s.scope.lookup name = some (level, .inProgress)) :
    resolveWith eval name s = .error (.circularDependency name) s := by
  rw [resolveWith_scoped h (Scope.isEmpty_of_lookup hl), hl]
  rfl

theorem resolveWith_unevaluated (h : name.toList.head? ≠ some '$')
    (hl : s.scope.lookup name = some (level, .unevaluated e)) :
    resolveWith eval name s = settle eval level name e s := by
  rw [resolveWith_scoped h (Scope.isEmpty_of_lookup hl), hl]

end

/-! ## Extracts and calls -/

/-- The number that bytes stand for, the most significant first. -/
def wordOfBytes (bytes : Bytes) : Nat := bytes.foldl (fun n b => n * 256 + b.toNat) 0

/-- The number that bytes hold; metadata says in which order they are and whether it is
signed. -/
def numberOfBytes (width : Width) (metadata : Register) (bytes : Bytes) : Value :=
  let ordered := if (metadata.bool? "bigendian").getD true then bytes else bytes.reverse
  let signed := (metadata.bool? "signed").getD false
  .number (.ofWord (BitVec.ofNat 64 (wordOfBytes ordered)) width signed)

/-- Reads a number. -/
def extractNumber (offset size : Nat) (metadata : Register) : Step Value := do
  match Width.ofBytes? size with
  | none => throw (.invalidWidth size)
  | some width =>
    let bytes ← Step.read offset width.bytes
    pure (numberOfBytes width metadata bytes)

/-- Reads from the current file. -/
def extract (format : ExtractFormat) (offset size : Nat) (metadata : Register) : Step Value :=
  match format with
  | .number => extractNumber offset size metadata
  | .string => do
    let bytes ← Step.read offset size
    pure (.bytes bytes)
  | .stringz => do
    let bytes ← Step.readTerminated offset size
    pure (.bytes bytes)

/-- Calls the operator with a name. -/
def call (env : Environment) (resolve : String → Step Value) (name : String)
    (args : List Value) (metadata : Register) : Step Value := do
  match env.operators.get? name with
  | none => throw (.unknownFunction name)
  | some op =>
    Step.ofExcept (op.signature.check name args)
    op.run ⟨env.rules, resolve⟩ args metadata

/-! ## Expressions -/

/-- Reduces an expression, given the evaluator for the expressions inside it. -/
def evaluateNode (env : Environment) (eval : Expr → Step Value) : Expr → Step Value
  | .literal v => pure v
  | .var name => resolveWith eval name
  | .unary op e => do
    let v ← eval e
    Step.ofValue (Value.unary op v)
  | .binary (.connective c) l r => do
    let p ← Step.ofValue (← eval l).truthy
    if p = c.decisive then pure (.bool p)
    else
      let q ← Step.ofValue (← eval r).truthy
      pure (.bool q)
  | .binary op l r => do
    let v ← eval l
    let w ← eval r
    Step.ofValue (Value.binary op v w)
  | .index e i => do
    let v ← eval e
    let start ← eval i
    Step.ofValue (Value.index v start)
  | .slice e i j => do
    let v ← eval e
    let start ← eval i
    let stop ← eval j
    Step.ofValue (Value.slice v start stop)
  | .extract format o s metadata => do
    let offset ← Step.ofValue (← eval o).asOffset
    let size ← Step.ofValue (← eval s).asOffset
    extract format offset size metadata
  | .call name args metadata => do
    let values ← args.mapM eval
    env.call (resolveWith eval) name values metadata

/-- Reduces an expression to a value, with a budget of levels to recurse into. -/
def evaluateWithin (env : Environment) (limit : Nat) : Nat → Expr → Step Value
  | 0, _ => throw (.tooDeep limit)
  | budget + 1, e => Step.nested limit (env.evaluateNode (env.evaluateWithin limit budget) e)

theorem evaluateWithin_succ (env : Environment) (limit budget : Nat) (e : Expr) :
    env.evaluateWithin limit (budget + 1) e =
      Step.nested limit (env.evaluateNode (env.evaluateWithin limit budget) e) := rfl

/-- Reduces an expression to a value within so many levels. -/
def evaluate (env : Environment) (limit : Nat) (e : Expr) : Step Value := fun s =>
  env.evaluateWithin limit (s.room limit) e s

/-- The value of a name, with so many levels for its expression to nest in. -/
def resolve (env : Environment) (limit : Nat) (name : String) : Step Value := fun s =>
  resolveWith (env.evaluateWithin limit (s.room limit)) name s

/-! ## Rules -/

section

variable (env : Environment) (eval : Expr → Step Value)

/-- Whether all conditions hold; the first that does not ends the search. -/
def allHold : List Expr → Step Bool
  | [] => pure true
  | c :: rest => do
    let p ← Step.ofValue (← eval c).truthy
    if p then allHold rest else pure false

/-- Evaluates the variables that no one has needed so far. -/
def forceAll : List String → Step Unit
  | [] => pure ()
  | name :: rest => do
    let _ ← resolveWith eval name
    forceAll rest

/-- Runs the actions of a rule that matched, up to one that stops the others. -/
def runActions : List RuleAction → Step Unit
  | [] => pure ()
  | a :: rest => do
    match ← (eval a.expr).attempt with
    | .ok _ => if a.mode = .stop then pure () else runActions rest
    | .error e =>
      if a.mode = .ignore ∧ e.isInternal = false then runActions rest
      else
        Step.recordCurrent env.rules e
        runActions rest

end

/-- Evaluates child rules and sorts them into matches and the ids of the others. -/
def runChildren (env : Environment) (child : RuleId → Step (Option Match)) :
    List RuleId → Step (List Match × List String)
  | [] => pure ([], [])
  | c :: rest => do
    match ← (child c).attempt with
    | .ok (some m) =>
      let (ms, us) ← runChildren env child rest
      pure (m :: ms, us)
    | .ok none =>
      let (ms, us) ← runChildren env child rest
      pure (ms, (env.rules.idAt? c).getD "" :: us)
    | .error e =>
      Step.recordFailure env.rules (some c) e
      let (ms, us) ← runChildren env child rest
      pure (ms, (env.rules.idAt? c).getD "" :: us)

/-- What a rule does once its conditions hold and its variables have values. -/
def runMatched (env : Environment) (eval : Expr → Step Value)
    (child : RuleId → Step (Option Match)) (i : RuleId) (r : Rule) : Step Match := do
  let scope ← Step.view Session.scope
  runActions env eval r.actions
  let (children, unmatched) ← runChildren env child r.children
  pure (.node i r.id scope.snapshot children unmatched)

/-- Evaluates a rule whose frame is the innermost. -/
def runRule (env : Environment) (eval : Expr → Step Value)
    (child : RuleId → Step (Option Match)) (i : RuleId) (r : Rule) : Step (Option Match) := do
  if ← allHold eval r.conditions then
    forceAll eval r.vars.keys
    let m ← runMatched env eval child i r
    pure (some m)
  else pure none

/-- Runs a step in a frame of its own. -/
def inFrame {α : Type} (i : RuleId) (r : Rule) (t : Step α) : Step α := do
  Step.change fun s => { s with scope := s.scope.push i r.vars.entries }
  let outcome ← t.attempt
  Step.change fun s => { s with scope := s.scope.pop }
  Step.ofExcept outcome

/-- Evaluates a rule and its children, with a budget of levels to recurse into. -/
def evaluateRuleWithin (env : Environment) (limit : Nat) : Nat → RuleId → Step (Option Match)
  | 0, _ => throw (.tooDeep limit)
  | budget + 1, i =>
    match env.rules.rules[i]? with
    | none => throw (.internal "no such rule")
    | some r =>
      Step.nested limit <| inFrame i r <|
        runRule env (env.evaluateWithin limit budget) (env.evaluateRuleWithin limit budget) i r

theorem evaluateRuleWithin_succ (env : Environment) (limit budget : Nat) {i : RuleId} {r : Rule}
    (h : env.rules.rules[i]? = some r) :
    env.evaluateRuleWithin limit (budget + 1) i =
      Step.nested limit (inFrame i r (runRule env (env.evaluateWithin limit budget)
        (env.evaluateRuleWithin limit budget) i r)) := by
  simp [evaluateRuleWithin, h]

/--
Evaluates a rule and its children against the current file within so many levels.
There is no match when a condition does not hold, and the rule fails when a condition
or a variable cannot be evaluated; failures of actions and of children are recorded.
-/
def evaluateRule (env : Environment) (limit : Nat) (i : RuleId) : Step (Option Match) := fun s =>
  env.evaluateRuleWithin limit (s.room limit) i s

end Environment

end RuleScan
