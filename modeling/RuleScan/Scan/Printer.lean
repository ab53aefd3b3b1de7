import RuleScan.Scan.Report

/-!
# Printing reports

A report is printed as a tree: each input with what was extracted from it below,
indented by one more step. Under the header of a file come what it duplicates, its
tags, its matches with the values of their variables, and the messages, warnings and
errors of its rules; then the files created from it.

The text is made of lines, each at a level of indentation. The outline of a report is
the order in which the entries appear, each with its level.

## Main results

* `lines_eq` — the lines of a report are those of its outline, then the warnings.
* `outlineOf_succ` — an entry comes before what was created from it.
-/

namespace RuleScan.Scan

/-- How a report is printed. -/
structure Style where
  /-- The text of one step of indentation. -/
  indent : String := "  "
  /-- Whether the values of variables are printed. -/
  showVars : Bool := true
  /-- Whether child rules that did not match are printed. -/
  showUnmatched : Bool := false

instance : Inhabited Style := ⟨{}⟩

/-- A line of text and its level of indentation. -/
structure Line where
  level : Nat
  text : String
  deriving DecidableEq, Inhabited

/-- The text of a line with the newline at its end. -/
def Line.print (style : Style) (l : Line) : String :=
  String.join (List.replicate l.level style.indent) ++ l.text ++ "\n"

/-! ## Lines of an entry -/

/-- The text of a file's id. -/
def printId (id : FileId) : String := "#" ++ toString id

/-- The line that names a file. -/
def Entry.header (e : Entry) : String :=
  let origin := match e.parent with
    | some parent => s!", from {printId parent}, depth {e.depth}"
    | none => ""
  s!"{printId e.id} {e.path} ({e.size} bytes{origin})"

/-- Names with commas between them, at a label; no names make no line. -/
def listLine (level : Nat) (label : String) (names : List String) : List Line :=
  if names.isEmpty then [] else [⟨level, label ++ ": " ++ String.intercalate ", " names⟩]

mutual

/-- The lines of a match and of those below it. -/
def matchLines (style : Style) (level : Nat) : Match → List Line
  | .node _ id vars children unmatched =>
    ⟨level, "match " ++ id⟩ ::
      ((if style.showVars then
          vars.entries.map fun (name, v) => ⟨level + 1, name ++ " = " ++ v.print⟩
        else []) ++
      matchLinesAll style (level + 1) children ++
      if style.showUnmatched then listLine (level + 1) "unmatched" unmatched else [])

/-- The lines of several matches. -/
def matchLinesAll (style : Style) (level : Nat) : List Match → List Line
  | [] => []
  | m :: rest => matchLines style level m ++ matchLinesAll style level rest

end

/-- The line that tells which file an entry duplicates. -/
def duplicateLine (r : Report) (level : Nat) (e : Entry) : List Line :=
  match e.duplicateOf with
  | none => []
  | some id =>
    let path := ((r.entry? id).map Entry.path).getD ""
    [⟨level, s!"duplicate of {printId id} {path}"⟩]

/-- The lines of an entry, without the files created from it. -/
def entryLines (style : Style) (r : Report) (level : Nat) (e : Entry) : List Line :=
  let labelled (label : String) (text : String) : Line := ⟨level + 1, label ++ ": " ++ text⟩
  ⟨level, e.header⟩ ::
    (duplicateLine r (level + 1) e ++ listLine (level + 1) "tags" e.tags ++
      matchLinesAll style (level + 1) e.trees ++ e.logs.map (labelled "log") ++
      e.warnings.map (labelled "warning") ++
      e.errors.map fun d => labelled "error" d.print)

/-! ## The whole report -/

namespace Report

/--
Entries and what was created from them, each with its level. No entry is created from
itself, however indirectly, so as many levels as there are entries suffice.
-/
def outlineOf (r : Report) : Nat → Nat → List Entry → List (Nat × Entry)
  | 0, _, _ => []
  | room + 1, level, es =>
    es.flatMap fun e => (level, e) :: outlineOf r room (level + 1) (r.children e.id)

theorem outlineOf_succ (r : Report) (room level : Nat) (es : List Entry) :
    r.outlineOf (room + 1) level es =
      es.flatMap fun e => (level, e) :: r.outlineOf room (level + 1) (r.children e.id) := rfl

/-- The entries in the order in which they are printed, each with its level. -/
def outline (r : Report) : List (Nat × Entry) := r.outlineOf r.entries.length 0 r.roots

/-- The lines of a report. -/
def lines (style : Style) (r : Report) : List Line :=
  (r.outline.flatMap fun (level, e) => entryLines style r level e) ++
    r.warnings.map fun w => ⟨0, "warning: " ++ w⟩

theorem lines_eq (style : Style) (r : Report) :
    r.lines style = (r.outline.flatMap fun p => entryLines style r p.1 p.2) ++
      r.warnings.map fun w => ⟨0, "warning: " ++ w⟩ := rfl

/-- The text of a report. -/
def print (style : Style) (r : Report) : String :=
  String.join ((r.lines style).map (Line.print style))

/-- A line with path and tags for each file that has tags. -/
def printTags (r : Report) : String :=
  String.join ((r.entries.filter fun e => !e.tags.isEmpty).map fun e =>
    e.path ++ ": " ++ String.intercalate "," e.tags ++ "\n")

end Report

end RuleScan.Scan
