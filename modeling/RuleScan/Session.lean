import RuleScan.Output
import RuleScan.Rule.Set
import RuleScan.Scope
import RuleScan.Source

/-!
# Sessions

A session is everything that can change while rules are evaluated against one file:
the globals, the scope, the output directory and the file system, the effects that
accumulate until the end, and how many levels evaluation is nested. A step works on a
session and may fail; what it changed before failing stays changed.

## Main results

* `attempt_ok`, `attempt_error` — attempting a step keeps its changes and its outcome.
* `run_changed` — a change is seen by what follows.
-/

namespace RuleScan

/-- A failure, and the rule during whose evaluation it happened. -/
structure Failure where
  rule : Option String
  error : Error
  deriving DecidableEq

/-- What evaluation leaves behind besides matches, each in order of occurrence. -/
structure Effects where
  created : List Path
  logs : List String
  warnings : List String
  failures : List Failure
  deriving DecidableEq, Inhabited

/-- The state of the evaluation of one file. -/
structure Session where
  globals : Register
  source : Source
  scope : Scope
  output : Option OutputDir
  files : FileSystem
  effects : Effects
  /-- The levels that evaluation has entered and not yet left. -/
  depth : Nat
  deriving Inhabited

namespace Session

/-- A session before anything was evaluated. -/
def start (files : FileSystem) (source : Source) (globals : Register)
    (output : Option OutputDir) : Session :=
  ⟨globals, source, ∅, output, files, ⟨[], [], [], []⟩, 0⟩

/-- The levels that evaluation can still enter when it may enter so many. -/
def room (s : Session) (limit : Nat) : Nat := limit - s.depth

/-- Whether a recorded failure is internal. -/
def hasInternalFailure (s : Session) : Bool := s.effects.failures.any fun f => f.error.isInternal

/-- Changes the effects. -/
def withEffects (s : Session) (f : Effects → Effects) : Session :=
  { s with effects := f s.effects }

end Session

/-- A step of evaluation. -/
abbrev Step (α : Type) := EStateM Error Session α

namespace Step

variable {α : Type}

/-- Takes over an outcome. -/
def ofExcept : Except Error α → Step α
  | .ok a => pure a
  | .error e => throw e

/-- Takes over the outcome of an operation on values. -/
def ofValue : Except ValueError α → Step α
  | .ok a => pure a
  | .error e => throw (.value e)

/-- Runs a step and hands its failure on as a value. -/
def attempt (t : Step α) : Step (Except Error α) := fun s =>
  match t s with
  | .ok a s => .ok (.ok a) s
  | .error e s => .ok (.error e) s

theorem attempt_ok {t : Step α} {s s' : Session} {a : α} (h : t s = .ok a s') :
    attempt t s = .ok (.ok a) s' := by
  simp [attempt, h]

theorem attempt_error {t : Step α} {s s' : Session} {e : Error} (h : t s = .error e s') :
    attempt t s = .ok (.error e) s' := by
  simp [attempt, h]

/-- Reads from the session. -/
def view (f : Session → α) : Step α := fun s => .ok (f s) s

/-- Changes the session. -/
def change (f : Session → Session) : Step Unit := fun s => .ok () (f s)

theorem run_changed (f : Session → Session) (t : Step α) (s : Session) :
    (change f >>= fun _ => t) s = t (f s) := rfl

/--
Runs a step one level further in and comes back out, whatever the outcome; with so many
levels entered there is none left.
-/
def nested (limit : Nat) (t : Step α) : Step α := fun s =>
  if limit ≤ s.depth then .error (.tooDeep limit) s
  else
    match t { s with depth := s.depth + 1 } with
    | .ok a s => .ok a { s with depth := s.depth - 1 }
    | .error e s => .error e { s with depth := s.depth - 1 }

/-! ## The current file -/

/-- The size of the current file. -/
def size : Step Nat := view fun s => s.source.size

/-- Reads bytes of the current file. -/
def read (offset length : Nat) : Step Bytes := fun s =>
  match s.source.read offset length with
  | .ok bytes => .ok bytes s
  | .error e => .error e s

/-- Reads bytes of the current file up to a zero byte. -/
def readTerminated (offset limit : Nat) : Step Bytes := fun s =>
  match s.source.readTerminated offset limit with
  | .ok bytes => .ok bytes s
  | .error e => .error e s

/-- The value of a global. -/
def global (name : String) : Step Value := fun s =>
  match s.globals.get? name with
  | some v => .ok v s
  | none => .error (.unresolvedVariable name) s

/-! ## Effects -/

/-- Emits a log message. -/
def log (message : String) : Step Unit :=
  change fun s => s.withEffects fun e => { e with logs := e.logs ++ [message] }

/-- Emits a warning. -/
def warn (message : String) : Step Unit :=
  change fun s => s.withEffects fun e => { e with warnings := e.warnings ++ [message] }

/-- Records a failure of a rule of a set. -/
def recordFailure (rules : RuleSet) (rule : Option RuleId) (error : Error) : Step Unit :=
  change fun s => s.withEffects fun e =>
    { e with failures := e.failures ++ [⟨rule.bind rules.idAt?, error⟩] }

/-- Records a failure of the rule being evaluated. -/
def recordCurrent (rules : RuleSet) (error : Error) : Step Unit := fun s =>
  recordFailure rules s.scope.current? error s

/-! ## Output files -/

/-- Hands out a free path in the output directory. -/
def newName (suggestion : String) : Step Path := fun s =>
  match s.output with
  | none => .error .noOutputDirectory s
  | some out =>
    let (p, out) := out.newName s.files suggestion
    .ok p { s with output := some out }

/-- Takes over an output directory after an attempt to put something into it. -/
def putOutput (r : Except Error (Path × FileSystem) × OutputDir) : Step Path := fun s =>
  let s := { s with output := some r.2 }
  match r.1 with
  | .error e => .error e s
  | .ok (p, files) =>
    .ok p ({ s with files }.withEffects fun e => { e with created := e.created ++ [p] })

/-- Creates an empty file in the output directory; it will be scanned later. -/
def create (suggestion : String) : Step Path := fun s =>
  match s.output with
  | none => .error .noOutputDirectory s
  | some out => putOutput (out.create s.files suggestion) s

/-- Creates a directory in the output directory; what it holds will be scanned later. -/
def mkdir (suggestion : String) : Step Path := fun s =>
  match s.output with
  | none => .error .noOutputDirectory s
  | some out => putOutput (out.mkdir s.files suggestion) s

/-- Writes the content of a file. -/
def writeFile (p : Path) (content : Bytes) : Step Unit := fun s =>
  match s.files.writeFile p content with
  | .ok files => .ok () { s with files }
  | .error cause => .error (.fileWrite p cause) s

/-- Removes a file that was created and keeps it from being scanned. -/
def discard (p : Path) : Step Unit :=
  change fun s =>
    { s with files := (s.files.removeFile p).toOption.getD s.files }.withEffects fun e =>
      { e with created := e.created.filter fun q => !q.same p }

end Step

end RuleScan
