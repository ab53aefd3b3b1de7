import RuleScan.CommandLine.Definition
import RuleScan.Files.Path

/-!
# Options

The words of a command line are options and inputs. An option has a long name after
two dashes and perhaps a letter after one dash; letters can be put together. Some
options are followed by a value, in the same word or in the next. After a word of two
dashes everything is an input.

Reading goes in two steps. Words become arguments, which only takes the names of the
options; then arguments are taken over in turn, which checks values and repetitions.

## Main results

* `arguments_inputs` — behind two dashes every word is an input.
* `complete_requires_rules` — without rule files there is nothing to run.
-/

namespace RuleScan.CommandLine

/-- An option without a value. -/
inductive Flag where
  | followLinks
  | abortOnInternal
  | listRules
  | tagsOnly
  | showUnmatched
  | verbose
  | help
  | version
  deriving DecidableEq, Repr

/-- Whether a flag is acted upon at once, so that nothing after it is read. -/
def Flag.endsReading : Flag → Bool
  | .help | .version => true
  | _ => false

/-- An option with a value. -/
inductive Setting where
  | rules
  | output
  | maxDepth
  | define
  deriving DecidableEq, Repr

/-- An option of either kind. -/
inductive OptionName where
  | flag (f : Flag)
  | setting (s : Setting)
  deriving DecidableEq, Repr

/-- The options by their long names, with their letters. -/
def optionNames : List (String × Option Char × OptionName) :=
  [("rules", some 'r', .setting .rules),
   ("output", some 'o', .setting .output),
   ("max-depth", none, .setting .maxDepth),
   ("follow-symlinks", none, .flag .followLinks),
   ("abort-on-internal", none, .flag .abortOnInternal),
   ("define", some 'D', .setting .define),
   ("list-rules", none, .flag .listRules),
   ("tags-only", none, .flag .tagsOnly),
   ("show-unmatched", none, .flag .showUnmatched),
   ("verbose", some 'v', .flag .verbose),
   ("help", some 'h', .flag .help),
   ("version", some 'V', .flag .version)]

/-- The option with a long name. -/
def byName? (name : String) : Option OptionName :=
  (optionNames.find? fun entry => entry.1 == name).map fun entry => entry.2.2

/-- The option with a letter. -/
def byLetter? (c : Char) : Option OptionName :=
  (optionNames.find? fun entry => entry.2.1 == some c).map fun entry => entry.2.2

/-- Why a command line cannot be run. -/
inductive Misuse where
  | unknownOption (text : String)
  | unexpectedValue (f : Flag)
  | missingValue (s : Setting)
  | emptyPath
  | repeatedFlag (f : Flag)
  | repeatedSetting (s : Setting)
  | badDepth (cause : Text.DigitError)
  | badDefinition (cause : DefinitionFault)
  | missingRules
  deriving DecidableEq, Repr

/-- The long name of an option. -/
def OptionName.long (name : OptionName) : String :=
  match optionNames.find? fun entry => entry.2.2 == name with
  | some entry => "--" ++ entry.1
  | none => ""

/-- The wording of a misuse. -/
def Misuse.message : Misuse → String
  | .unknownOption text => s!"unexpected argument '{text}'"
  | .unexpectedValue f => s!"'{(OptionName.flag f).long}' takes no value"
  | .missingValue s => s!"'{(OptionName.setting s).long}' needs a value"
  | .emptyPath => "a path must not be empty"
  | .repeatedFlag f => s!"'{(OptionName.flag f).long}' cannot be used more than once"
  | .repeatedSetting s => s!"'{(OptionName.setting s).long}' cannot be used more than once"
  | .badDepth cause => s!"invalid depth: {cause.message}"
  | .badDefinition cause => s!"invalid definition: {cause.message}"
  | .missingRules => "no rule file given"

/-! ## From words to arguments -/

/-- A part of a command line that has been told apart. -/
inductive Argument where
  | flag (f : Flag)
  | setting (s : Setting) (value : String)
  | input (path : Path)
  deriving DecidableEq, Repr

/-- The arguments that a word holds, and a setting whose value is the next word. -/
abbrev Reading := List Argument × Option Setting

/-- Reads a word of letters, behind its dash, up to a flag that is acted upon at once. -/
def readLetters : List Char → Except Misuse Reading
  | [] => .ok ([], none)
  | c :: rest =>
    match byLetter? c with
    | none => .error (.unknownOption (String.ofList ['-', c]))
    | some (.flag f) =>
      if f.endsReading then .ok ([.flag f], none)
      else (readLetters rest).map fun (args, pending) => (.flag f :: args, pending)
    | some (.setting s) =>
      match rest with
      | [] => .ok ([], some s)
      | '=' :: value => .ok ([.setting s (String.ofList value)], none)
      | value => .ok ([.setting s (String.ofList value)], none)

/-- Reads a long option, behind its dashes. -/
def readLong (cs : List Char) : Except Misuse Reading :=
  let (name, value?) := match Definition.cutAt '=' cs with
    | some (name, value) => (name, some value)
    | none => (cs, none)
  match byName? (String.ofList name), value? with
  | none, _ => .error (.unknownOption ("--" ++ String.ofList name))
  | some (.flag f), none => .ok ([.flag f], none)
  | some (.flag f), some _ => .error (.unexpectedValue f)
  | some (.setting s), none => .ok ([], some s)
  | some (.setting s), some value => .ok ([.setting s (String.ofList value)], none)

/-- Reads a word; a dash alone is an input. -/
def readWord (word : String) : Except Misuse Reading :=
  match word.toList with
  | '-' :: '-' :: name => readLong name
  | '-' :: c :: letters => readLetters (c :: letters)
  | _ => .ok ([.input word], none)

/-- Whether a word can be the value of the option before it. -/
def isValue (word : String) : Bool :=
  match word.toList with
  | '-' :: _ :: _ => false
  | _ => true

/-- Whether nothing after an argument is read. -/
def Argument.endsReading : Argument → Bool
  | .flag f => f.endsReading
  | _ => false

/-- Reads words after a setting that waits for its value. -/
def arguments : Option Setting → List String → Except Misuse (List Argument)
  | none, [] => .ok []
  | some s, [] => .error (.missingValue s)
  | some s, word :: rest =>
    if isValue word then (arguments none rest).map (.setting s word :: ·)
    else .error (.missingValue s)
  | none, word :: rest =>
    if word = "--" then .ok (rest.map .input)
    else
      match readWord word with
      | .error e => .error e
      | .ok (args, pending) =>
        if args.any Argument.endsReading then .ok args
        else (arguments pending rest).map (args ++ ·)

theorem arguments_inputs (words : List String) :
    arguments none ("--" :: words) = .ok (words.map .input) := rfl

/-! ## From arguments to options -/

/-- Everything that a command line says. -/
structure Options where
  rules : List Path := []
  inputs : List Path := []
  output : Option Path := none
  maxDepth : Option Nat := none
  defines : List (String × Value) := []
  flags : List Flag := []
  deriving Inhabited

/-- What a command line asks for. -/
inductive Request where
  | run (options : Options)
  | help
  | version
  deriving Inhabited

namespace Options

/-- Whether a flag was given. -/
def has (o : Options) (f : Flag) : Bool := o.flags.contains f

/-- How often more messages were asked for. -/
def verbosity (o : Options) : Nat := o.flags.count .verbose

/-- Takes over a setting. -/
def set (o : Options) (s : Setting) (value : String) : Except Misuse Options :=
  match s with
  | .rules =>
    if value.isEmpty then .error .emptyPath
    else .ok { o with rules := o.rules ++ [value] }
  | .output =>
    if o.output.isSome then .error (.repeatedSetting .output)
    else if value.isEmpty then .error .emptyPath
    else .ok { o with output := some value }
  | .maxDepth =>
    if o.maxDepth.isSome then .error (.repeatedSetting .maxDepth)
    else
      match Text.readSignedNat 10 0x10000000000000000 value.toList with
      | .ok n => .ok { o with maxDepth := some n }
      | .error cause => .error (.badDepth cause)
  | .define =>
    match Definition.read value with
    | .ok entry => .ok { o with defines := o.defines ++ [entry] }
    | .error cause => .error (.badDefinition cause)

/-- Takes over a flag; only one flag may be repeated. -/
def addFlag (o : Options) (f : Flag) : Except Misuse Options :=
  if o.has f ∧ f ≠ .verbose then .error (.repeatedFlag f)
  else .ok { o with flags := o.flags ++ [f] }

/-- Checks what concerns the command line as a whole. -/
def complete (o : Options) (outputDefault : Option Path) : Except Misuse Options :=
  let output := o.output.or outputDefault
  if output = some "" then .error .emptyPath
  else if o.rules.isEmpty then .error .missingRules
  else .ok { o with output }

/-- Takes over arguments in turn. -/
def collect (outputDefault : Option Path) : List Argument → Options → Except Misuse Request
  | [], o => (o.complete outputDefault).map .run
  | .flag .help :: _, _ => .ok .help
  | .flag .version :: _, _ => .ok .version
  | .flag f :: rest, o => do collect outputDefault rest (← o.addFlag f)
  | .setting s value :: rest, o => do collect outputDefault rest (← o.set s value)
  | .input path :: rest, o =>
    if path.isEmpty then .error .emptyPath
    else collect outputDefault rest { o with inputs := o.inputs ++ [path] }

/-- What the words of a command line ask for, given the output directory to fall back on. -/
def read (outputDefault : Option Path) (words : List String) : Except Misuse Request := do
  collect outputDefault (← arguments none words) {}

theorem complete_requires_rules {o : Options} (outputDefault : Option Path) (h : o.rules = []) :
    (o.complete outputDefault).toOption = none := by
  unfold complete
  simp only [h, List.isEmpty_nil, if_true]
  split <;> rfl

end Options

end RuleScan.CommandLine
