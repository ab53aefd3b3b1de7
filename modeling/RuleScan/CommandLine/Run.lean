import RuleScan.CommandLine.Help
import RuleScan.CommandLine.Options
import RuleScan.CommandLine.Problem
import RuleScan.Operator.Builtin
import RuleScan.Rule.Load
import RuleScan.Scan.Printer
import RuleScan.Scan.Run

/-!
# Running a command line

A command line either lists the rules it loads or scans its inputs with them and
prints a report. The exit status tells a success from a failure, and both from a
command line that makes no sense.

## Main results

* `status_scanned` — a scan succeeds when no file has errors.
-/

namespace RuleScan.CommandLine

/-- What running a command line leads to. -/
inductive Outcome where
  | misused (cause : Misuse)
  | failed (problem : Problem)
  | printed (text : String)
  | scanned (text : String) (hasErrors : Bool) (statistics : Scan.Statistics)
  deriving Inhabited

namespace Outcome

/-- The exit status. -/
def status : Outcome → Nat
  | misused _ => 2
  | failed _ => 1
  | printed _ => 0
  | scanned _ hasErrors _ => if hasErrors then 1 else 0

/-- What is printed as the answer. -/
def text : Outcome → String
  | misused _ | failed _ => ""
  | printed text | scanned text _ _ => text

/-- What is told about a failure. -/
def complaint? : Outcome → Option String
  | misused cause => some ("error: " ++ cause.message ++ "\n")
  | failed problem => some problem.print
  | printed _ | scanned .. => none

theorem status_scanned (text : String) (hasErrors : Bool) (statistics : Scan.Statistics) :
    (scanned text hasErrors statistics).status = 0 ↔ hasErrors = false := by
  cases hasErrors <;> simp [status]

end Outcome

/-! ## Listing rules -/

/-- The line about a rule: its parent or else its pass, and its tags. -/
def ruleLine (r : Rule) : String :=
  let origin := match r.parentName with
    | some parent => " : " ++ parent
    | none => s!" (pass {r.pass})"
  let tags := if r.tags.isEmpty then "" else " [" ++ String.intercalate "," r.tags ++ "]"
  "  " ++ r.id ++ origin ++ tags ++ "\n"

/-- The rules of a source, below its name. -/
def sourceLines (rules : RuleSet) (source : String) (ids : List RuleId) : String :=
  source ++ "\n" ++ String.join (ids.map fun i => ((rules.rules[i]?).map ruleLine).getD "")

/-- All rules, below the sources that declare them. -/
def listing (rules : RuleSet) : String :=
  String.join (rules.sources.entries.map fun (source, ids) => sourceLines rules source ids)

/-! ## Scanning -/

/-- The configuration that options stand for. -/
def configOf (o : Options) : Scan.Config :=
  let config : Scan.Config :=
    { maxDepth := o.maxDepth.getD ({} : Scan.Config).maxDepth
      output := o.output
      followLinks := o.has .followLinks
      abortOnInternal := o.has .abortOnInternal }
  o.defines.foldl (fun c (key, v) => c.define key v) config

/-- The text that options ask for about a report. -/
def reportText (o : Options) (r : Scan.Report) : String :=
  if o.has .tagsOnly then r.printTags
  else r.print { showUnmatched := o.has .showUnmatched }

/-- Scans the inputs of a command line with rules. -/
def scanInputs (o : Options) (rules : RuleSet) (files : FileSystem) : Outcome × FileSystem :=
  let result := Scan.scan ⟨⟨rules, .builtins⟩, configOf o⟩ files o.inputs
  match result.outcome with
  | .finished report =>
    (.scanned (reportText o report) report.hasErrors (Scan.statistics result.events), result.files)
  | .aborted cause => (.failed (.ofError "scan aborted" cause), result.files)
  | .exhausted => (.failed ⟨"scan does not end", []⟩, result.files)

/-- Runs a command line that was understood. -/
def runOptions (o : Options) (files : FileSystem) : Outcome × FileSystem :=
  match RuleSet.load files Registry.builtins.signature? o.rules with
  | .error cause => (.failed (.ofError "failed to load rules" cause), files)
  | .ok rules =>
    if o.has .listRules then (.printed (listing rules), files)
    else if o.inputs.isEmpty then (.failed ⟨"no input files given", []⟩, files)
    else scanInputs o rules files

/-- Runs a command line, given the output directory to fall back on. -/
def run (outputDefault : Option Path) (words : List String) (files : FileSystem) :
    Outcome × FileSystem :=
  match Options.read outputDefault words with
  | .error cause => (.misused cause, files)
  | .ok .help => (.printed (helpText outputDefault), files)
  | .ok .version => (.printed versionText, files)
  | .ok (.run o) => runOptions o files

end RuleScan.CommandLine
