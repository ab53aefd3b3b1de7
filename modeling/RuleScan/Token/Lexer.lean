import RuleScan.Error
import RuleScan.Text.Blank

/-!
# Reading tokens

A source is read item by item. An item is one blank character, one comment or one
token; reading it yields the text it spans and the text that follows, and only tokens
are kept. Places are computed from the spanned texts alone, so a column counts the
bytes since the last line break.

A failed reading tells how far it got. The place reported is where the item began,
unless a line break was passed on the way: then it is the start of the line reached.

## Main results

* `Reading.Splits`, `readItem_splits` — an item and what follows make up the input.
* `readItem_text_ne_nil` — every item spans some text, so reading ends.
-/

namespace RuleScan.Lexer

open Text

/-- What came of reading something at the start of a text. -/
inductive Reading (α : Type) where
  /-- A value was read from `text`, and `rest` follows. -/
  | done (value : α) (text rest : List Char)
  /-- Reading stopped after `text`; `whole` fails when it stopped inside a character. -/
  | failed (problem : SyntaxProblem) (text : List Char) (whole : Bool)

namespace Reading

variable {α β : Type}

/-- Adds text that was read before, and lets it change the value. -/
def after (text : List Char) (f : α → β) : Reading α → Reading β
  | done value t rest => done (f value) (text ++ t) rest
  | failed problem t whole => failed problem (text ++ t) whole

/-- The text read and the text that follows make up the input. -/
def Splits (input : List Char) : Reading α → Prop
  | done _ text rest => text ++ rest = input
  | failed _ text _ => text <+: input

theorem Splits.after {input : List Char} {r : Reading α} (text : List Char) (f : α → β)
    (h : r.Splits input) :
    (r.after text f).Splits (text ++ input) := by
  cases r with
  | done value t rest =>
    simp only [Splits] at h
    simp [Reading.after, Splits, ← h]
  | failed problem t whole =>
    simp only [Splits] at h
    simpa [Reading.after, Splits] using h

theorem Splits.after_cons {input : List Char} {c : Char} {r : Reading α} (f : α → β)
    (h : r.Splits input) : (r.after [c] f).Splits (c :: input) := by
  simpa using h.after [c] f

end Reading

/-! ## Escapes and literals -/

/-- The first byte of a character's encoding. -/
def firstByte (c : Char) : UInt8 := (String.utf8EncodeChar c).headD 0

/-- Whether a character is encoded as a single byte. -/
def isAscii (c : Char) : Bool := c.toNat < 128

/-- The byte of an escape that is a single character. -/
def simpleEscape? (c : Char) : Option UInt8 :=
  if c = '\\' then some 92
  else if c = '"' then some 34
  else if c = '\'' then some 39
  else if c = 't' then some 9
  else if c = 'r' then some 13
  else if c = 'n' then some 10
  else none

/-- Reads the two digits of a hexadecimal escape. -/
def readHexDigits : List Char → Reading UInt8
  | a :: b :: rest =>
    match digitOf? 16 a, digitOf? 16 b with
    | some high, some low => .done (UInt8.ofNat (high * 16 + low)) [a, b] rest
    | _, _ => .failed .badHexEscape [] true
  | _ => .failed .badHexEscape [] true

/-- Up to so many octal digits, and what follows them. -/
def takeOctal : Nat → List Char → List Char × List Char
  | 0, cs => ([], cs)
  | _ + 1, [] => ([], [])
  | n + 1, c :: rest =>
    if (digitOf? 8 c).isSome then (c :: (takeOctal n rest).1, (takeOctal n rest).2)
    else ([], c :: rest)

theorem takeOctal_append (n : Nat) (cs : List Char) :
    (takeOctal n cs).1 ++ (takeOctal n cs).2 = cs := by
  induction n generalizing cs with
  | zero => simp [takeOctal]
  | succ n ih =>
    cases cs with
    | nil => simp [takeOctal]
    | cons c rest =>
      simp only [takeOctal]
      split <;> simp [ih]

/-- Reads an octal escape from its first digit on. -/
def readOctal (first : Nat) (input : List Char) : Reading UInt8 :=
  let digits := (takeOctal 2 input).1
  let value := digits.foldl (fun n c => n * 8 + (digitOf? 8 c).getD 0) first
  if value < 256 then .done (UInt8.ofNat value) digits (takeOctal 2 input).2
  else .failed .octalTooLarge digits true

/-- Reads an escape after its backslash. -/
def readEscape : List Char → Reading UInt8
  | [] => .failed .unterminatedEscape [] true
  | c :: rest =>
    match simpleEscape? c with
    | some byte => .done byte [c] rest
    | none =>
      if c = 'x' then (readHexDigits rest).after [c] id
      else
        match digitOf? 8 c with
        | some first => (readOctal first rest).after [c] id
        | none => .failed (.unknownEscape (firstByte c)) [c] (isAscii c)

theorem readHexDigits_splits (input : List Char) : (readHexDigits input).Splits input := by
  unfold readHexDigits
  split
  · split <;> simp [Reading.Splits]
  · simp [Reading.Splits]

theorem readOctal_splits (first : Nat) (input : List Char) :
    (readOctal first input).Splits input := by
  have h := takeOctal_append 2 input
  unfold readOctal
  dsimp only
  split
  · exact h
  · exact ⟨_, h⟩

theorem readEscape_splits (input : List Char) : (readEscape input).Splits input := by
  cases input with
  | nil => simp [readEscape, Reading.Splits]
  | cons c rest =>
    simp only [readEscape]
    split
    · simp [Reading.Splits]
    · split
      · exact (readHexDigits_splits rest).after_cons id
      · split
        · exact (readOctal_splits _ rest).after_cons id
        · simp [Reading.Splits]

/-- Reads a string literal after its opening quote. -/
def readString : List Char → Reading Bytes
  | [] => .failed .unterminatedString [] true
  | c :: rest =>
    if c = '"' then .done [] [c] rest
    else if c = '\n' then .failed .unterminatedString [c] true
    else if c = '\\' then
      match _h : readEscape rest with
      | .failed problem text whole => .failed problem (c :: text) whole
      | .done byte text rest' => (readString rest').after (c :: text) (byte :: ·)
    else (readString rest).after [c] (String.utf8EncodeChar c ++ ·)
termination_by cs => cs.length
decreasing_by
  · have hs := readEscape_splits rest
    rw [_h] at hs
    simp only [Reading.Splits] at hs
    rw [← hs, List.length_cons, List.length_append]
    omega
  · simp

theorem readString_splits (input : List Char) : (readString input).Splits input := by
  fun_induction readString input with
  | case1 => simp [Reading.Splits]
  | case2 => simp [Reading.Splits]
  | case3 => simp [Reading.Splits]
  | case4 rest problem text whole h =>
    have hs := readEscape_splits rest
    rw [h] at hs
    simpa [Reading.Splits] using hs
  | case5 rest byte text rest' h _ _ ih =>
    have hs := readEscape_splits rest
    rw [h] at hs
    simp only [Reading.Splits] at hs
    rw [← hs]
    exact ih.after ('\\' :: text) (byte :: ·)
  | case6 c rest _ _ _ ih => exact ih.after_cons _

/-- Reads the closing quote of a character literal. -/
def readClosing (byte : UInt8) : List Char → Reading UInt8
  | [] => .failed .unterminatedCharacter [] true
  | c :: rest =>
    if c = '\'' then .done byte [c] rest
    else .failed .unterminatedCharacter [c] (isAscii c)

/-- Reads a character literal after its opening quote. -/
def readCharacter : List Char → Reading UInt8
  | [] => .failed .emptyCharacter [] true
  | c :: rest =>
    if c = '\'' ∨ c = '\n' then .failed .emptyCharacter [c] true
    else if c = '\\' then
      match readEscape rest with
      | .failed problem text whole => .failed problem (c :: text) whole
      | .done byte text rest' => (readClosing byte rest').after (c :: text) id
    else if isAscii c then (readClosing (firstByte c) rest).after [c] id
    else .failed .nonAsciiCharacter [c] false

theorem readClosing_splits (byte : UInt8) (input : List Char) :
    (readClosing byte input).Splits input := by
  cases input with
  | nil => simp [readClosing, Reading.Splits]
  | cons c rest =>
    simp only [readClosing]
    split <;> simp [Reading.Splits]

theorem readCharacter_splits (input : List Char) : (readCharacter input).Splits input := by
  cases input with
  | nil => simp [readCharacter, Reading.Splits]
  | cons c rest =>
    simp only [readCharacter]
    split
    · simp [Reading.Splits]
    · split
      · have hs := readEscape_splits rest
        split
        · next h => rw [h] at hs; simpa [Reading.Splits] using hs
        · next byte text rest' h =>
          rw [h] at hs
          simp only [Reading.Splits] at hs
          rw [← hs]
          exact (readClosing_splits byte rest').after (c :: text) id
      · split
        · exact (readClosing_splits _ rest).after_cons id
        · simp [Reading.Splits]

/-! ## Words and numbers -/

/-- A character that may begin a name. -/
def isNameStart (c : Char) : Bool := c.isAlpha || c == '_'

/-- A character that may continue a name. -/
def isNameChar (c : Char) : Bool := c.isAlphanum || c == '_'

/-- The longest run of name characters and what follows it. -/
def takeName (cs : List Char) : List Char × List Char :=
  (cs.takeWhile isNameChar, cs.dropWhile isNameChar)

/-- A keyword, or else the name of something. -/
def wordKind (word : List Char) : TokenKind :=
  match Keyword.ofSpelling? word with
  | some k => .keyword k
  | none => .ident (String.ofList word)

/-- Reads a word from its first character on. -/
def readWord (first : Char) (rest : List Char) : Reading TokenKind :=
  let word := first :: (takeName rest).1
  .done (wordKind word) word (takeName rest).2

/-- Reads the name of a special variable from its `$` on. -/
def readSpecial (first : Char) (rest : List Char) : Reading TokenKind :=
  let name := (takeName rest).1
  if name.isEmpty then .failed .missingName [first] true
  else .done (.special (String.ofList (first :: name))) (first :: name) (takeName rest).2

/-- The radix that a letter after a leading zero announces. -/
def radixOf? (c : Char) : Option Nat :=
  if c = 'x' ∨ c = 'X' then some 16
  else if c = 'o' ∨ c = 'O' then some 8
  else if c = 'b' ∨ c = 'B' then some 2
  else none

/-- The radix of a number, the text that announces it, and what follows that text. -/
def splitRadix (first : Char) (rest : List Char) : Nat × List Char × List Char :=
  match rest with
  | letter :: rest' =>
    match radixOf? letter with
    | some radix => if first = '0' then (radix, [first, letter], rest') else (10, [], first :: rest)
    | none => (10, [], first :: rest)
  | [] => (10, [], [first])

/-- Reads a number from its first digit on; underscores between digits are ignored. -/
def readNumber (first : Char) (rest : List Char) : Reading TokenKind :=
  let (radix, announced, body) := splitRadix first rest
  let text := announced ++ (takeName body).1
  let digits := (takeName body).1.filter (· ≠ '_')
  if digits.isEmpty then .failed .missingDigits text true
  else
    match readNat radix 0x10000000000000000 digits with
    | .ok n => .done (.number n) text (takeName body).2
    | .error cause => .failed (.badNumber cause) text true

theorem takeName_append (cs : List Char) : (takeName cs).1 ++ (takeName cs).2 = cs :=
  List.takeWhile_append_dropWhile

theorem splitRadix_append (first : Char) (rest : List Char) :
    (splitRadix first rest).2.1 ++ (splitRadix first rest).2.2 = first :: rest := by
  unfold splitRadix
  split
  · split
    · split <;> simp
    · rfl
  · rfl

theorem readNumber_splits (first : Char) (rest : List Char) :
    (readNumber first rest).Splits (first :: rest) := by
  have h : (splitRadix first rest).2.1 ++ (takeName (splitRadix first rest).2.2).1 ++
      (takeName (splitRadix first rest).2.2).2 = first :: rest := by
    rw [List.append_assoc, takeName_append, splitRadix_append]
  unfold readNumber
  dsimp only
  split
  · exact ⟨_, h⟩
  · split
    · exact h
    · exact ⟨_, h⟩

/-! ## Symbols, comments and items -/

/-- All symbols. -/
def symbols : List Symbol :=
  [.parenOpen, .parenClose, .braceOpen, .braceClose, .bracketOpen, .bracketClose, .comma,
   .semicolon, .colon, .assign, .plus, .minus, .star, .slash, .percent, .amp, .ampAmp, .pipe,
   .pipePipe, .caret, .tilde, .bang, .shiftLeft, .shiftRight, .less, .greater, .lessEq,
   .greaterEq, .eqEq, .bangEq]

/-- The symbol with a spelling. -/
def symbol? (text : List Char) : Option Symbol :=
  symbols.find? fun s => s.spelling.toList == text

theorem symbol?_spelling (s : Symbol) : symbol? s.spelling.toList = some s := by
  cases s <;> decide

/-- Reads the longest symbol at the start of a text. -/
def readSymbol (first : Char) (rest : List Char) : Reading TokenKind :=
  match rest with
  | second :: rest' =>
    match symbol? [first, second], symbol? [first] with
    | some s, _ => .done (.symbol s) [first, second] rest'
    | none, some s => .done (.symbol s) [first] rest
    | none, none => .failed .unexpectedCharacter [first] true
  | [] =>
    match symbol? [first] with
    | some s => .done (.symbol s) [first] []
    | none => .failed .unexpectedCharacter [first] true

/-- Reads a block comment after its opening, up to the first closing. -/
def readBlock : List Char → Reading Unit
  | [] => .failed .unterminatedComment [] true
  | c :: rest =>
    if c = '*' then
      match rest with
      | d :: rest' =>
        if d = '/' then .done () [c, d] rest' else (readBlock (d :: rest')).after [c] id
      | [] => .failed .unterminatedComment [c] true
    else (readBlock rest).after [c] id

/-- Reads a line comment after its opening, up to the end of the line. -/
def readLine (cs : List Char) : Reading Unit :=
  .done () (cs.takeWhile (· ≠ '\n')) (cs.dropWhile (· ≠ '\n'))

/-- Reads a comment or a symbol from its slash on. -/
def readSlash (first : Char) (rest : List Char) : Reading (Option TokenKind) :=
  match rest with
  | c :: rest' =>
    if c = '/' then (readLine rest').after [first, c] fun _ => none
    else if c = '*' then (readBlock rest').after [first, c] fun _ => none
    else (readSymbol first rest).after [] some
  | [] => (readSymbol first rest).after [] some

/-- Reads one item from its first character on; blanks and comments yield no token. -/
def readItem (c : Char) (rest : List Char) : Reading (Option TokenKind) :=
  if isAsciiBlank c then .done none [c] rest
  else if c = '/' then readSlash c rest
  else if isNameStart c then (readWord c rest).after [] some
  else if c = '$' then (readSpecial c rest).after [] some
  else if c.isDigit then (readNumber c rest).after [] some
  else if c = '"' then (readString rest).after [c] fun bytes => some (.string bytes)
  else if c = '\'' then (readCharacter rest).after [c] fun byte => some (.char byte)
  else (readSymbol c rest).after [] some

theorem readSymbol_splits (first : Char) (rest : List Char) :
    (readSymbol first rest).Splits (first :: rest) := by
  unfold readSymbol
  split
  · split <;> simp [Reading.Splits]
  · split <;> simp [Reading.Splits]

theorem readBlock_splits (input : List Char) : (readBlock input).Splits input := by
  fun_induction readBlock input with
  | case1 => simp [Reading.Splits]
  | case2 => simp [Reading.Splits]
  | case3 d rest' _ ih => exact ih.after_cons id
  | case4 => simp [Reading.Splits]
  | case5 c rest _ ih => exact ih.after_cons id

theorem readLine_splits (input : List Char) : (readLine input).Splits input :=
  List.takeWhile_append_dropWhile

theorem after_nil_splits {α β : Type} {input : List Char} {r : Reading α} (f : α → β)
    (h : r.Splits input) : (r.after [] f).Splits input := by
  simpa using h.after [] f

theorem readSlash_splits (first : Char) (rest : List Char) :
    (readSlash first rest).Splits (first :: rest) := by
  unfold readSlash
  split
  · next c rest' =>
    split
    · exact (readLine_splits rest').after [first, c] _
    · split
      · exact (readBlock_splits rest').after [first, c] _
      · exact after_nil_splits some (readSymbol_splits first _)
  · exact after_nil_splits some (readSymbol_splits first _)

theorem readItem_splits (c : Char) (rest : List Char) :
    (readItem c rest).Splits (c :: rest) := by
  unfold readItem
  split
  · simp [Reading.Splits]
  split
  · exact readSlash_splits c rest
  split
  · apply after_nil_splits
    simp [readWord, Reading.Splits, takeName_append]
  split
  · apply after_nil_splits
    unfold readSpecial
    dsimp only
    split <;> simp [Reading.Splits, takeName_append]
  split
  · exact after_nil_splits some (readNumber_splits c rest)
  split
  · exact (readString_splits rest).after_cons _
  split
  · exact (readCharacter_splits rest).after_cons _
  · exact after_nil_splits some (readSymbol_splits c rest)

theorem after_text_ne_nil {α β : Type} {text : List Char} {f : α → β} {r : Reading α}
    {value : β} {t rest : List Char} (h : r.after text f = .done value t rest)
    (hne : text ≠ []) : t ≠ [] := by
  cases r with
  | done v t' rest' =>
    simp only [Reading.after, Reading.done.injEq] at h
    rw [← h.2.1]
    simp [hne]
  | failed => simp [Reading.after] at h

theorem after_nil_eq_done {α β : Type} {f : α → β} {r : Reading α} {value : β}
    {t rest : List Char} (h : r.after [] f = .done value t rest) :
    ∃ v, r = .done v t rest := by
  cases r with
  | done v t' rest' =>
    simp only [Reading.after, Reading.done.injEq, List.nil_append] at h
    exact ⟨v, by rw [h.2.1, h.2.2]⟩
  | failed => simp [Reading.after] at h

theorem readSymbol_text_ne_nil {first : Char} {rest t rest' : List Char} {k : TokenKind}
    (h : readSymbol first rest = .done k t rest') : t ≠ [] := by
  unfold readSymbol at h
  split at h <;> split at h <;> cases h <;> exact List.cons_ne_nil _ _

theorem readNumber_text_ne_nil {first : Char} {rest t rest' : List Char} {k : TokenKind}
    (h : readNumber first rest = .done k t rest') : t ≠ [] := by
  unfold readNumber at h
  dsimp only at h
  split at h
  · cases h
  · next hd =>
    split at h
    · simp only [Reading.done.injEq] at h
      rw [← h.2.1]
      intro hnil
      simp only [List.append_eq_nil_iff] at hnil
      simp [hnil.2] at hd
    · cases h

theorem readItem_text_ne_nil {c : Char} {rest t rest' : List Char} {k : Option TokenKind}
    (h : readItem c rest = .done k t rest') : t ≠ [] := by
  unfold readItem at h
  split at h
  · simp only [Reading.done.injEq] at h
    rw [← h.2.1]
    simp
  split at h
  · unfold readSlash at h
    split at h
    · split at h
      · exact after_text_ne_nil h (by simp)
      · split at h
        · exact after_text_ne_nil h (by simp)
        · obtain ⟨_, hv⟩ := after_nil_eq_done h
          exact readSymbol_text_ne_nil hv
    · obtain ⟨_, hv⟩ := after_nil_eq_done h
      exact readSymbol_text_ne_nil hv
  split at h
  · obtain ⟨_, hv⟩ := after_nil_eq_done h
    simp only [readWord, Reading.done.injEq] at hv
    rw [← hv.2.1]
    simp
  split at h
  · obtain ⟨_, hv⟩ := after_nil_eq_done h
    unfold readSpecial at hv
    dsimp only at hv
    split at hv
    · cases hv
    · simp only [Reading.done.injEq] at hv
      rw [← hv.2.1]
      simp
  split at h
  · obtain ⟨_, hv⟩ := after_nil_eq_done h
    exact readNumber_text_ne_nil hv
  split at h
  · exact after_text_ne_nil h (by simp)
  split at h
  · exact after_text_ne_nil h (by simp)
  · obtain ⟨_, hv⟩ := after_nil_eq_done h
    exact readSymbol_text_ne_nil hv

theorem readItem_rest_length_lt {c : Char} {rest t rest' : List Char} {k : Option TokenKind}
    (h : readItem c rest = .done k t rest') : rest'.length < (c :: rest).length := by
  have hs := readItem_splits c rest
  rw [h] at hs
  simp only [Reading.Splits] at hs
  have hne := readItem_text_ne_nil h
  have hpos := List.length_pos_iff.mpr hne
  rw [← hs, List.length_append]
  omega

/-! ## Places and the token list -/

/-- The place after a character. -/
def step (p : Position) (c : Char) : Position :=
  if c = '\n' then ⟨p.line + 1, 1⟩ else ⟨p.line, p.column + UInt32.ofNat c.utf8Size⟩

/-- The place after a text. -/
def advance (p : Position) (text : List Char) : Position := text.foldl step p

/-- The place reported for a reading that began at one place and failed after some text. -/
def failurePosition (start : Position) (text : List Char) : Position :=
  if '\n' ∈ text then ⟨(advance start text).line, 1⟩ else start

/-- The tokens of a text that begins at some place, ended by the end of input. -/
def tokensFrom (start : Position) (input : List Char) : Except SyntaxError (List Token) :=
  match input with
  | [] => .ok [⟨.eof, start, []⟩]
  | c :: rest =>
    match _h : readItem c rest with
    | .failed problem text whole =>
      .error ⟨failurePosition start text, if whole then String.ofList text else "", problem⟩
    | .done none text rest' => tokensFrom (advance start text) rest'
    | .done (some kind) text rest' =>
      match tokensFrom (advance start text) rest' with
      | .ok tokens => .ok (⟨kind, start, text⟩ :: tokens)
      | .error e => .error e
termination_by input.length
decreasing_by
  · exact readItem_rest_length_lt _h
  · exact readItem_rest_length_lt _h

/-- The tokens of a source. -/
def tokenize (source : String) : Except SyntaxError (List Token) :=
  tokensFrom ⟨1, 1⟩ source.toList

end RuleScan.Lexer
