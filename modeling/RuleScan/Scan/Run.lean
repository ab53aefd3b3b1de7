import RuleScan.Evaluation
import RuleScan.Scan.Config
import RuleScan.Scan.Event
import RuleScan.Scan.Report
import RuleScan.Scan.System

/-!
# Running a scan

A scan works through a list of paths, the next one first. Directories are replaced by
what is found in them, and each fault that is met while they are listed becomes a
warning; links are rejected unless the configuration says to follow them;
files that are too deep, cannot be read or duplicate an earlier file are entered
without being evaluated. Every other file is evaluated by all root rules in the order
of their passes, and what their actions created is put in front of the list, one
level deeper. So what comes out of a file is scanned before the next input.

No path is put on the list twice. The list can grow while it is worked off, so the
number of paths taken from it is bounded by a budget, and a scan that runs out of
budget says so.

## Main results

* `run_done` — when a scan stops.
-/

namespace RuleScan.Scan

/-- What a scan is to do: the rules with their operators, and how to scan. -/
structure Plan where
  env : Environment
  config : Config

/-- What stays the same during a scan: what it is to do, and the system it runs on. -/
structure Setup extends Plan where
  system : System := .plain

/-- A path that waits to be scanned. -/
structure Item where
  path : Path
  parent : Option FileId
  depth : Nat
  deriving DecidableEq, Inhabited

/-- What changes during a scan. -/
structure State where
  files : FileSystem
  output : Option OutputDir
  report : Report
  /-- The paths that wait, the next one first. -/
  waiting : List Item
  /-- The components of every path that ever waited. -/
  seen : List (List Path.Component)
  events : List Event
  deriving Inhabited

namespace State

/-- The state of a scan of which nothing has happened yet. -/
def start (files : FileSystem) (output : Option OutputDir) : State :=
  ⟨files, output, ⟨[], []⟩, [], [], []⟩

/-- The id of the next entry. -/
def nextId (st : State) : FileId := st.report.entries.length

/-- Lets a path wait in front of the others, unless it waited before. -/
def enqueue (st : State) (item : Item) : State :=
  if st.seen.contains item.path.components then st
  else { st with waiting := item :: st.waiting, seen := item.path.components :: st.seen }

/-- Lets paths of one origin wait, the first of them in front. -/
def enqueueAll (st : State) (parent : Option FileId) (depth : Nat) (paths : List Path) : State :=
  paths.foldr (fun p st => st.enqueue ⟨p, parent, depth⟩) st

/-- Tells that something happened. -/
def emit (st : State) (events : List Event) : State := { st with events := st.events ++ events }

/-- Keeps the final entry of a file. -/
def commit (st : State) (e : Entry) : State :=
  { st with
    report := { st.report with entries := st.report.entries ++ [e] }
    events := st.events ++ [.finished e] }

/-- Warns about paths that get no entry. -/
def warnAll (st : State) (messages : List String) : State :=
  { st with report := { st.report with warnings := st.report.warnings ++ messages } }

/-- Warns about a path that gets no entry. -/
def warn (st : State) (message : String) : State := st.warnAll [message]

/-- The first entry with a content that has the hash of this one. -/
def entryWith? (st : State) (setup : Setup) (content : Bytes) : Option Entry :=
  st.report.entries.find? fun e =>
    e.content.map setup.system.hash == some (setup.system.hash content)

end State

/-! ## What a path stands for -/

/-- What a scan finds at a path. -/
inductive Finding where
  | unreadable (cause : FileFault)
  | rejected
  | directory (names faults : List String)
  | irregular
  | file (size : Nat)
  deriving DecidableEq

/-- What a node at a path is to a scan. -/
def Finding.ofNode (system : System) (files : FileSystem) (p : Path) : Node → Finding
  | .directory => .directory (system.list files p).names (system.list files p).faults
  | .file content => .file content.length
  | .link _ | .device => .irregular

/-- Looks at a path. -/
def look (setup : Setup) (files : FileSystem) (p : Path) : Finding :=
  match files.nodeAt p with
  | .error cause => .unreadable cause
  | .ok (.link _) =>
    if setup.config.followLinks then
      match files.targetAt p with
      | .error cause => .unreadable cause
      | .ok node => .ofNode setup.system files p node
    else .rejected
  | .ok node => .ofNode setup.system files p node

/-! ## Evaluating a file -/

/-- Evaluates rules one after the other and records the failures of those that fail. -/
def evaluateRoots (env : Environment) : List RuleId → Session → List Match × Session
  | [], s => ([], s)
  | i :: rest, s =>
    match env.evaluateRule Environment.depthLimit i s with
    | .ok (some m) s =>
      let (ms, s) := evaluateRoots env rest s
      (m :: ms, s)
    | .ok none s => evaluateRoots env rest s
    | .error e s =>
      evaluateRoots env rest (s.withEffects fun effects =>
        { effects with failures := effects.failures ++ [⟨env.rules.idAt? i, e⟩] })

/-- The globals of a file, on top of those of the configuration. -/
def fileGlobals (config : Config) (e : Entry) (output : Option OutputDir) : Register :=
  let own := (config.globals.child.set "$filename" (.text e.path))
    |>.set "$shortfilename" (.text e.path.shortName)
    |>.set "$path" (.text (e.path.parent?.getD ""))
    |>.set "$filesize" (.number (.ofNat e.size .w64))
    |>.set "$depth" (.number (.ofNat e.depth .w64))
  match output with
  | some out => own.set "$outdir" (.text out.root)
  | none => own

/-- The tags of the rules that matched, each once, in the order of the matches. -/
def tagsOf (rules : RuleSet) (ms : List Match) : List String :=
  ((ms.flatMap Match.preorder).flatMap fun m =>
    ((rules.rules[m.rule]?).map Rule.tags).getD []).eraseDups

/-- An entry after the evaluation of all rules. -/
def concluded (rules : RuleSet) (e : Entry) (ms : List Match) (effects : Effects) : Entry :=
  { e with
    processed := true
    trees := ms
    tags := tagsOf rules ms
    logs := effects.logs
    warnings := effects.warnings
    errors := e.errors ++ effects.failures.map fun f => Diagnostic.ofError f.rule f.error }

/-- What is told about an entry that was evaluated, before it is done with. -/
def matchEvents (e : Entry) : List Event := e.leaves.map (.matched e) ++ e.tags.map (.tagged e)

/-- The internal failure that ends a scan, if the configuration wants it to. -/
def fatal? (config : Config) (effects : Effects) : Option Error :=
  if config.abortOnInternal then
    (effects.failures.find? fun f => f.error.isInternal).map Failure.error
  else none

/-- What all rules together find in a file, and the session that they leave. -/
def evaluateContent (setup : Setup) (st : State) (e : Entry) (content : Bytes) :
    List Match × Session :=
  evaluateRoots setup.env setup.env.rules.schedule <|
    Session.start st.files (.ofFile e.path content) (fileGlobals setup.config e st.output) st.output

/-- Enters a file that was evaluated and lets what its rules created wait. -/
def conclude (setup : Setup) (st : State) (e : Entry) (ms : List Match) (session : Session) :
    State × Option Error :=
  let st := { st with files := session.files, output := session.output }
  match fatal? setup.config session.effects with
  | some cause => (st, some cause)
  | none =>
    let e := concluded setup.env.rules e ms session.effects
    let st := (st.emit (matchEvents e)).commit e
    (st.enqueueAll (some e.id) (e.depth + 1) session.effects.created, none)

/-- Evaluates all rules against a file. -/
def evaluateFile (setup : Setup) (st : State) (e : Entry) (content : Bytes) :
    State × Option Error :=
  let st := st.emit [.started e]
  let (ms, session) := evaluateContent setup st e content
  conclude setup st e ms session

/-! ## Visiting a path -/

/-- Enters a duplicate; one that was created by an action becomes a reference. -/
def commitDuplicate (references : References) (st : State) (e earlier : Entry) : State :=
  let e := { e with duplicateOf := some earlier.id }
  match st.output with
  | none => st.commit e
  | some out =>
    if e.parent.isSome && out.contains e.path then
      match out.replaceWithReference st.files e.path earlier.path references with
      | (.ok (), files) => { st with files }.commit e
      | (.error cause, files) => { st with files }.commit (e.fail none cause)
    else st.commit e

/-- Reads a regular file, unless it is too deep, and evaluates it if its content is new. -/
def visitFile (setup : Setup) (st : State) (e : Entry) : State × Option Error :=
  if setup.config.maxDepth < e.depth then
    (st.commit (e.fail none (.depthExceeded e.depth setup.config.maxDepth)), none)
  else
    match st.files.readFile e.path with
    | .error cause => (st.commit (e.fail none (.fileRead e.path cause)), none)
    | .ok content =>
      let e := { e with content := some content }
      match st.entryWith? setup content with
      | some earlier => (commitDuplicate setup.system.references st e earlier, none)
      | none => evaluateFile setup st e content

/-- Deals with a path that waited. -/
def visit (setup : Setup) (st : State) (item : Item) : State × Option Error :=
  let e := Entry.new st.nextId item.path item.parent item.depth
  match look setup st.files item.path with
  | .unreadable cause => (st.commit (e.fail none (.fileRead item.path cause)), none)
  | .rejected => (st.warn (Error.symlinkRejected item.path).message, none)
  | .directory names faults =>
    ((st.warnAll faults).enqueueAll item.parent item.depth (names.map item.path.join), none)
  | .irregular => (st.warn s!"skipping '{item.path}': not a regular file", none)
  | .file size => visitFile setup st { e with size }

/-! ## The whole scan -/

/-- How a scan ended. -/
inductive Outcome where
  | finished (report : Report)
  | aborted (cause : Error)
  | exhausted
  deriving Inhabited

/-- The report of a scan that finished. -/
def Outcome.report? : Outcome → Option Report
  | .finished r => some r
  | _ => none

/-- The end of a scan, with what it did up to there. -/
structure Result where
  outcome : Outcome
  files : FileSystem
  events : List Event
  deriving Inhabited

/-- Works off the paths that wait, at most so many of them. -/
def run (setup : Setup) : Nat → State → Result
  | 0, st => ⟨.exhausted, st.files, st.events⟩
  | budget + 1, st =>
    match st.waiting with
    | [] => ⟨.finished st.report, st.files, st.events⟩
    | item :: rest =>
      match visit setup { st with waiting := rest } item with
      | (st, some cause) => ⟨.aborted cause, st.files, st.events⟩
      | (st, none) => run setup budget st

theorem run_done (setup : Setup) (budget : Nat) {st : State} (h : st.waiting = []) :
    run setup (budget + 1) st = ⟨.finished st.report, st.files, st.events⟩ := by
  simp [run, h]

/-- Opens the output directory of a configuration. -/
def openOutput (config : Config) (files : FileSystem) :
    Except Error (Option OutputDir) × FileSystem :=
  match config.output with
  | none => (.ok none, files)
  | some root =>
    match OutputDir.open? files root with
    | (.ok out, files) => (.ok (some out), files)
    | (.error e, files) => (.error e, files)

/-- Scans inputs and everything extracted from them, within a budget. -/
def scanWithin (budget : Nat) (setup : Setup) (files : FileSystem) (inputs : List Path) : Result :=
  match openOutput setup.config files with
  | (.error cause, files) => ⟨.aborted cause, files, []⟩
  | (.ok output, files) =>
    run setup budget ((State.start files output).enqueueAll none 0 inputs)

/-- More paths than any scan can visit. -/
def ampleBudget : Nat := 0x4000000000000000

/-- Scans inputs and everything extracted from them, on a system where nothing goes wrong. -/
def scan (plan : Plan) (files : FileSystem) (inputs : List Path) : Result :=
  scanWithin ampleBudget ⟨plan, .plain⟩ files inputs

end RuleScan.Scan
