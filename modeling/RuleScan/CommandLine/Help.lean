import RuleScan.CommandLine.Options
import RuleScan.Scan.Config

/-!
# Help

What the program says about itself: its name and version, and how it is used. Options
stand in one column and what they do in a second one beside it; a description that is
too long for the line goes on below its own beginning.
-/

namespace RuleScan.CommandLine

/-- The name that the program goes by. -/
def programName : String := "sift"

/-- The variable that names the output directory to fall back on. -/
def outputVariable : String := "SIFT_OUTPUT"

/-- How the program introduces itself. -/
def versionText : String := programName ++ " 0.1.0\n"

/-! ## Filling lines -/

/-- Puts words on the line that was begun as long as they fit, and then on further lines. -/
def fillFrom (width : Nat) (line : List String) (used : Nat) : List String → List (List String)
  | [] => [line]
  | word :: rest =>
    if used + 1 + word.length ≤ width then
      fillFrom width (line ++ [word]) (used + 1 + word.length) rest
    else line :: fillFrom width [word] word.length rest

/-- Puts words on lines, with a blank between two of them. -/
def fill (width : Nat) : List String → List (List String)
  | [] => [[]]
  | word :: rest => fillFrom width [word] word.length rest

/-! ## Two columns -/

/-- A label, and what there is to say about it. -/
structure Row where
  label : String
  description : String

/-- The width of a line. -/
def lineWidth : Nat := 100

/-- So many blanks. -/
def blanks (n : Nat) : String := String.ofList (List.replicate n ' ')

/-- The width of the column that holds all labels. -/
def column (rows : List Row) : Nat := (rows.map fun row => row.label.length).foldr max 0

/-- A row, two blanks from the margin and two between its columns. -/
def Row.print (column : Nat) (row : Row) : String :=
  let margin := column + 4
  let words := (Text.splitOn ' ' row.description.toList).map String.ofList
  let lines := (fill (lineWidth - margin) words).map (String.intercalate " ")
  "  " ++ row.label ++ blanks (column - row.label.length) ++ "  " ++
    String.intercalate ("\n" ++ blanks margin) lines ++ "\n"

/-- Rows below their title. -/
def printSection (title : String) (rows : List Row) : String :=
  "\n" ++ title ++ ":\n" ++ String.join (rows.map (Row.print (column rows)))

/-! ## The text -/

/-- What stands for the value of a setting. -/
def Setting.placeholder : Setting → String
  | .rules => "RULES"
  | .output => "OUTPUT"
  | .maxDepth => "MAX_DEPTH"
  | .define => "DEFINES"

/-- What follows the name of an option: its value, or dots if repeating it means more. -/
def OptionName.suffix : OptionName → String
  | .setting s => " <" ++ s.placeholder ++ ">"
  | .flag .verbose => "..."
  | .flag _ => ""

/-- What an option is for, given the output directory to fall back on. -/
def OptionName.purpose (outputDefault : Option Path) : OptionName → String
  | .setting .rules => "Rule file to load (repeatable)"
  | .setting .output =>
    "Directory receiving files extracted by rule actions " ++
      "[env: " ++ outputVariable ++ "=" ++ outputDefault.getD "" ++ "]"
  | .setting .maxDepth =>
    "Maximum extraction depth; deeper files are recorded as errors " ++
      "[default: " ++ toString ({} : Scan.Config).maxDepth ++ "]"
  | .setting .define => "Define a global visible to rules as \x60$key\x60 (key=value)"
  | .flag .followLinks => "Follow symbolic links instead of skipping them"
  | .flag .abortOnInternal => "Stop the scan on the first internal error"
  | .flag .listRules => "List the loaded rules per rule file and exit"
  | .flag .tagsOnly => "Only print \x60path: tags\x60 lines for tagged files"
  | .flag .showUnmatched => "Also print child rules that did not match"
  | .flag .verbose => "Verbosity level (-v, -vv, -vvv)"
  | .flag .help => "Print help"
  | .flag .version => "Print version"

/-- The row about an option; long names stand below each other, with a letter or without. -/
def optionRow (outputDefault : Option Path) (long : String) (letter : Option Char)
    (name : OptionName) : Row where
  label :=
    (match letter with
      | some c => String.ofList ['-', c, ',', ' ']
      | none => blanks 4) ++ "--" ++ long ++ name.suffix
  description := name.purpose outputDefault

/-- How the program is used. -/
def helpText (outputDefault : Option Path) : String :=
  "Identify and recursively unpack structure inside binary files using a small rule language\n\n" ++
  "Usage: " ++ programName ++ " [OPTIONS] --rules <RULES> [INPUTS]...\n" ++
  printSection "Arguments" [⟨"[INPUTS]...", "Files or directories to scan"⟩] ++
  printSection "Options"
    (optionNames.map fun (long, letter, name) => optionRow outputDefault long letter name)

end RuleScan.CommandLine
