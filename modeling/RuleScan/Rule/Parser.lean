import RuleScan.Expr.Parser
import RuleScan.Rule.Set
import RuleScan.Token.Lexer

/-!
# Reading rules

A source is a sequence of rules of the form

    rule name (key = constant, ...) : parent { statements }

where the metadata and the parent may be missing, and a statement declares a variable
(`var name = expression;`), states a condition (`if expression;`) or adds an action
(a call, after `ignore` or `stop` if its failures are to be treated specially). Every
expression is folded as it is read.

Rules enter a set one by one, so a source that turns out to be malformed leaves the
rules before the fault in the set.

## Main results

* `readRules_nil` — nothing follows the end of input.
* `parse_eq` — reading a single source is reading it into the empty set and linking.
-/

namespace RuleScan

/-- A step of reading rules, which can fail for reasons beyond syntax. -/
abbrev RuleParser (α : Type) := StateT Cursor (Except Error) α

namespace RuleParser

/-- What a reader of rules knows: the name of the source and the operators' signatures. -/
structure Setting where
  source : String
  signatures : String → Option Signature

/-- Runs a parser of expressions and names the source in its errors. -/
def lift {α : Type} (setting : Setting) (p : Parser α) : RuleParser α := fun c =>
  match p c with
  | .ok r => .ok r
  | .error e => .error (.malformed setting.source e)

/-- Takes over the outcome of an operation on a rule. -/
def liftRule {α : Type} (r : Except Error α) : RuleParser α := fun c =>
  match r with
  | .ok a => .ok (a, c)
  | .error e => .error e

variable (setting : Setting)

/-- Folds an expression, blaming a failure on the token it began with. -/
def folded (e : Expr) (start : Token) : RuleParser Expr :=
  match e.simplify with
  | .ok e => pure e
  | .error cause => lift setting (Parser.failAt start (.cannotFold cause))

/-- Reads how failures of an action are treated. -/
def failureMode : RuleParser FailureMode := do
  if ← lift setting (Parser.eatKind (.keyword .ignoreWord)) then pure .ignore
  else if ← lift setting (Parser.eatKind (.keyword .stopWord)) then pure .stop
  else pure .record

/-- Reads the declaration of a variable after its keyword. -/
def varDeclaration (r : Rule) : RuleParser Rule := do
  let name ← lift setting (Parser.name "variable name")
  lift setting (Parser.expect .assign)
  let start ← lift setting Parser.peek
  let e ← lift setting (Parser.boundedExpression setting.signatures)
  let e ← folded setting e start
  liftRule (r.declare name e)

/-- Reads a condition after its keyword. -/
def condition (r : Rule) : RuleParser Rule := do
  let start ← lift setting Parser.peek
  let e ← lift setting (Parser.boundedExpression setting.signatures)
  let e ← folded setting e start
  liftRule (r.addCondition e)

/-- Reads an action. -/
def action (r : Rule) : RuleParser Rule := do
  let mode ← failureMode setting
  let start ← lift setting Parser.peek
  let e ← lift setting (Parser.boundedExpression setting.signatures)
  if e.isCall then
    let e ← folded setting e start
    liftRule (r.addAction e mode)
  else lift setting (Parser.failAt start .notCall)

/-- Reads a statement into a rule. -/
def statement (r : Rule) : RuleParser Rule := do
  let start ← lift setting Parser.peek
  let r ← match start.kind with
    | .eof => lift setting (Parser.failAt start (.expectedToken (.symbol .braceClose)))
    | .keyword .varWord => do
      let _ ← lift setting Parser.advance
      varDeclaration setting r
    | .keyword .ifWord => do
      let _ ← lift setting Parser.advance
      condition setting r
    | _ => action setting r
  lift setting (Parser.expect .semicolon)
  pure r

/-- Reads statements up to the closing brace; the budget bounds their number. -/
def statements : Nat → Rule → RuleParser Rule
  | 0, r => pure r
  | budget + 1, r => do
    if ← lift setting (Parser.eat .braceClose) then pure r
    else
      let r ← statement setting r
      statements budget r

/-- Reads an entry of a rule's metadata. -/
def metadataEntry : Parser (String × Value) := do
  let key ← Parser.name "metadata key"
  Parser.expect .assign
  let v ← Parser.outerConstant setting.signatures "metadata value"
  pure (key, v)

/-- Reads the metadata of a rule, if there is any. -/
def metadata : Parser (List (String × Value)) := do
  if ← Parser.eat .parenOpen then
    let entries ← Parser.listUntil .parenClose (metadataEntry setting)
    Parser.expect .parenClose
    pure entries
  else pure []

/-- Reads the name of the parent, if there is one. -/
def parentName : Parser (Option String) := do
  if ← Parser.eat .colon then
    let parent ← Parser.name "parent rule name"
    pure (some parent)
  else pure none

/-- Reads a rule. -/
def rule : RuleParser Rule := do
  lift setting (Parser.expectKind (.keyword .ruleWord))
  let id ← lift setting (Parser.name "rule name")
  let entries ← lift setting (metadata setting)
  let r ← entries.foldlM (fun r (key, v) => liftRule (r.setMetadata key v))
    (Rule.new id setting.source)
  let parent ← lift setting parentName
  let r ← match parent with
    | some p => liftRule (r.setParentName p)
    | none => pure r
  lift setting (Parser.expect .braceOpen)
  statements setting ((← lift setting Parser.remaining) + 1) r

end RuleParser

namespace RuleSet

/-- Reads rules into a set up to the end of input; the budget bounds their number. -/
def readRules (setting : RuleParser.Setting) :
    Nat → Cursor → RuleSet → Except Error Unit × RuleSet
  | 0, _, s => (.ok (), s)
  | budget + 1, c, s =>
    if c.peek.kind = .eof then (.ok (), s)
    else
      match RuleParser.rule setting c with
      | .error e => (.error e, s)
      | .ok (r, c) =>
        match s.insert r with
        | .error e => (.error e, s)
        | .ok (s, _) => readRules setting budget c s

/-- Reads a source into a set. -/
def readSource (s : RuleSet) (signatures : String → Option Signature) (source text : String) :
    Except Error Unit × RuleSet :=
  match Lexer.tokenize text with
  | .error e => (.error (.malformed source e), s)
  | .ok tokens => readRules ⟨source, signatures⟩ tokens.length ⟨tokens, 0⟩ s

/-- Links a set, or tells why it cannot be linked. -/
def linked (s : RuleSet) : Except Error RuleSet :=
  match s.link with
  | (.ok (), s) => .ok s
  | (.error e, _) => .error e

/-- The linked rules of a single source. -/
def parse (signatures : String → Option Signature) (source text : String) :
    Except Error RuleSet :=
  match readSource ∅ signatures source text with
  | (.error e, _) => .error e
  | (.ok (), s) => s.linked

theorem readRules_nil (setting : RuleParser.Setting) (budget : Nat) {c : Cursor} {s : RuleSet}
    (h : c.peek.kind = .eof) : readRules setting budget c s = (.ok (), s) := by
  cases budget <;> simp [readRules, h]

theorem parse_eq {signatures : String → Option Signature} {source text : String} {s : RuleSet}
    (h : readSource ∅ signatures source text = (.ok (), s)) :
    parse signatures source text = s.linked := by
  simp [parse, h]

end RuleSet

end RuleScan
