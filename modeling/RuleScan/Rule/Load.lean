import RuleScan.Files.Basic
import RuleScan.Rule.Parser

/-!
# Rule files

Rules are kept in files. Files are read one after the other into one set, which is
linked at the end, so a rule may inherit from a rule of a later file. The path of a
file is the name of its source.
-/

namespace RuleScan.RuleSet

/-- Reads files into a set, up to the first that cannot be read. -/
def readFiles (fs : FileSystem) (signatures : String → Option Signature) :
    List Path → RuleSet → Except Error RuleSet
  | [], s => .ok s
  | p :: rest, s =>
    match fs.readText p with
    | .error cause => .error (.fileRead p cause)
    | .ok text =>
      match s.readSource signatures p text with
      | (.error e, _) => .error e
      | (.ok (), s) => readFiles fs signatures rest s

/-- The linked rules of several files. -/
def load (fs : FileSystem) (signatures : String → Option Signature) (paths : List Path) :
    Except Error RuleSet :=
  match readFiles fs signatures paths ∅ with
  | .error e => .error e
  | .ok s => s.linked

end RuleScan.RuleSet
