import RuleScan.Expr.Basic

/-!
# Printing expressions

An expression is printed as it would be written in a rule source. A binary operation
below another operation, or before a bracket, stands in parentheses; nothing else
does. An extract of a number is called by the name of its width when its size is a
literal that is a width.
-/

namespace RuleScan.Expr

/-- The name of an extract of a number of a fixed width. -/
def extractName : Width → String
  | .w8 => "Byte"
  | .w16 => "Short"
  | .w32 => "Long"
  | .w64 => "Quad"

/-- The fixed width that an extract's size stands for. -/
def widthOfSize? (size : Expr) : Option Width := do
  let value ← size.literal?
  let bytes ← value.asOffset.toOption
  Width.ofBytes? bytes

/-- An entry of metadata. -/
def printEntry (entry : String × Value) : String := entry.1 ++ "=" ++ entry.2.print

/-- The own entries of metadata, each after a comma. -/
def printEntries (metadata : Register) : String :=
  String.join (metadata.own.entries.map fun entry => ", " ++ printEntry entry)

/-- Parentheses around the text of a binary operation. -/
def enclose (e : Expr) (text : String) : String :=
  match e with
  | binary .. => "(" ++ text ++ ")"
  | _ => text

mutual

/-- The text of an expression. -/
def print : Expr → String
  | literal v => v.print
  | var name => name
  | unary op e => op.spelling ++ enclose e e.print
  | binary op l r => enclose l l.print ++ " " ++ op.spelling ++ " " ++ enclose r r.print
  | index e i => enclose e e.print ++ "[" ++ i.print ++ "]"
  | slice e i j => enclose e e.print ++ "[" ++ i.print ++ ":" ++ j.print ++ "]"
  | extract .number o s m =>
    match widthOfSize? s with
    | some w => extractName w ++ "(" ++ o.print ++ printEntries m ++ ")"
    | none => "Number(" ++ o.print ++ ", " ++ s.print ++ printEntries m ++ ")"
  | extract .string o s m => "String(" ++ o.print ++ ", " ++ s.print ++ printEntries m ++ ")"
  | extract .stringz o s m => "StringZ(" ++ o.print ++ ", " ++ s.print ++ printEntries m ++ ")"
  | call name args m =>
    name ++ "(" ++ String.intercalate ", " (printAll args ++ m.own.entries.map printEntry) ++ ")"

/-- The texts of the expressions of a list. -/
def printAll : List Expr → List String
  | [] => []
  | e :: rest => e.print :: printAll rest

end

end RuleScan.Expr
