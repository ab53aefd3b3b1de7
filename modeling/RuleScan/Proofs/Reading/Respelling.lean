import RuleScan.Proofs.Reading.Printing
import RuleScan.Proofs.Reading.Tiling

/-!
# Tokens that are spelled and read again

Every token except the end of input can be spelled: a name and a sign as themselves, a number in
decimal, a string as a byte string is printed, and a character by the two hexadecimal digits of its
byte.  A spelling is read as its token before a blank and at the end (`readItem_spelled`),
so tokens that are spelled one after the other, with gaps between them that begin with a blank, are
read again.  Nothing needs to be known of two neighbouring tokens.

## Main results

* `IsGap.reads` — gaps are passed over.
* `readItem_spelled` — a spelling is read as its token.
* `tokenize_spelled` — tokens that are spelled are read again.
-/

namespace RuleScan

open Text Lexer

/-- The spellings of a token. -/
inductive TokenKind.IsSpelled : TokenKind → List Char → Prop where
  | ident {name : String} : IsIdentifier name → IsSpelled (.ident name) name.toList
  | special {name : String} : IsSpecial name → IsSpelled (.special name) name.toList
  | number {n : Nat} :
      n < 0x10000000000000000 → IsSpelled (.number n) (TokenKind.number n).describe.toList
  | string (bytes : Bytes) : IsSpelled (.string bytes) (Value.bytes bytes).print.toList
  | char {byte : UInt8} {a b : Char} {high low : Nat} :
      digitOf? 16 a = some high → digitOf? 16 b = some low → high * 16 + low = byte.toNat →
      IsSpelled (.char byte) ['\'', '\\', 'x', a, b, '\'']
  | keyword (k : Keyword) : IsSpelled (.keyword k) (TokenKind.keyword k).describe.toList
  | symbol (s : Symbol) : IsSpelled (.symbol s) (TokenKind.symbol s).describe.toList

/-- Every byte can be spelled as a character. -/
theorem TokenKind.IsSpelled.hexByte (byte : UInt8) :
    (TokenKind.char byte).IsSpelled ('\'' :: '\\' :: 'x' :: (hexByte byte ++ ['\''])) := by
  have hbyte := byte.toNat_lt
  exact .char (digitOf?_digitChar (by decide) (show byte.toNat / 16 < 16 by omega))
    (digitOf?_digitChar (by decide) (show byte.toNat % 16 < 16 by omega)) (by omega)

namespace Lexer

/-- A gap that can stand between any two tokens. -/
structure IsSeparator (gap : List Char) : Prop where
  isGap : IsGap gap
  blank : ∃ c cs, gap = c :: cs ∧ isAsciiBlank c = true

/-- Tokens are spelled one after the other, with separators between them. -/
inductive Spelled : List TokenKind → List Char → Prop where
  | nil : Spelled [] []
  | one {k : TokenKind} {text : List Char} : k.IsSpelled text → Spelled [k] text
  | more {k l : TokenKind} {ks : List TokenKind} {text gap rest : List Char} :
      k.IsSpelled text → IsSeparator gap → Spelled (l :: ks) rest →
      Spelled (k :: l :: ks) (text ++ gap ++ rest)

/-- Gaps are passed over. -/
theorem IsGap.reads {gap rest : List Char} {ks : List TokenKind} (hgap : IsGap gap)
    (h : Reads rest ks) : Reads (gap ++ rest) ks := by
  have hslash : isAsciiBlank '/' = false := by decide
  induction hgap with
  | nil => exact h
  | @blank c gap hc _ ih =>
      have hitem : readItem c (gap ++ rest) = .done none [c] (gap ++ rest) := by
        rw [readItem, if_pos hc]
      exact reads_gap hitem ih
  | @line body gap hbody _ ih =>
      have hline : readLine (body ++ '\n' :: (gap ++ rest)) =
          .done () body ('\n' :: (gap ++ rest)) :=
        readLine_eq_done_iff.2 ⟨hbody, by rintro _ ⟨⟩; rfl, rfl⟩
      have hitem : readItem '/' ('/' :: (body ++ '\n' :: (gap ++ rest))) =
          .done none ('/' :: '/' :: body) ('\n' :: (gap ++ rest)) := by
        simp [readItem, hslash, readSlash, hline, Reading.after]
      simp only [List.cons_append, List.append_assoc]
      exact reads_gap hitem (reads_gap rfl ih)
  | @block body gap hbody _ ih =>
      have hblock : readBlock (body ++ blockEnd ++ (gap ++ rest)) =
          .done () (body ++ blockEnd) (gap ++ rest) :=
        readBlock_eq_done_iff.2 ⟨body, hbody, rfl, rfl⟩
      have hitem : readItem '/' ('*' :: (body ++ blockEnd ++ (gap ++ rest))) =
          .done none ('/' :: '*' :: (body ++ blockEnd)) (gap ++ rest) := by
        simp only [readItem, hslash, readSlash, hblock, Reading.after]
        simp
      rw [List.cons_append, List.cons_append, List.append_assoc]
      exact reads_gap hitem ih

/-- What a token may be read before: a blank, or nothing. -/
def BlankOrEnd (rest : List Char) : Prop := ∀ c, rest.head? = some c → isAsciiBlank c = true

theorem blankOrEnd_nil : BlankOrEnd [] := by simp [BlankOrEnd]

/-- What is read before a space is read before any blank and at the end. -/
theorem readItem_of_space {c : Char} {cs : List Char} {k : TokenKind}
    (h : readItem c (cs ++ [' ']) = .done (some k) (c :: cs) [' ']) {rest : List Char}
    (hrest : BlankOrEnd rest) : readItem c (cs ++ rest) = .done (some k) (c :: cs) rest :=
  readItem_local h (fun d hd => .inr (hrest d hd)) fun hnone => by cases hnone

/-- A spelling is read as its token, whatever stands behind the blank that ends it. -/
theorem readItem_spelled {k : TokenKind} {text rest : List Char}
    (h : k.IsSpelled text) (hrest : BlankOrEnd rest) :
    ∃ c cs, text = c :: cs ∧ readItem c (cs ++ rest) = .done (some k) text rest := by
  have hspace : Delimits [' '] := delimits_cons [] (by decide)
  have hword : ∀ {word}, IsWord word k →
      ∃ c cs, word = c :: cs ∧ readItem c (cs ++ rest) = .done (some k) word rest := by
    rintro word ⟨c, cs, rfl, hc, hcs, rfl⟩
    exact ⟨c, cs, rfl, readItem_of_space (readItem_word hc hcs hspace.stops) hrest⟩
  cases h with
  | ident hname => exact hword (isWord_identifier hname)
  | @special name hname =>
      obtain ⟨cs, hne, hcs, hname⟩ := hname
      have hspecial : name = String.ofList ('$' :: cs) := by rw [← hname, String.ofList_toList]
      rw [hname, hspecial]
      exact ⟨'$', cs, rfl, readItem_of_space (readItem_special hne hcs hspace.stops) hrest⟩
  | @number n hn =>
      obtain ⟨c, cs, hdigits, hitem⟩ := readItem_number hn hspace
      have htext : (TokenKind.number n).describe.toList = c :: cs := by
        rw [← hdigits]
        exact Nat.toList_repr
      rw [htext]
      exact ⟨c, cs, rfl, readItem_of_space hitem hrest⟩
  | string bytes =>
      obtain ⟨cs, hquote, hitem⟩ := readItem_quote bytes rest
      rw [Value.print, hquote]
      exact ⟨'"', cs, rfl, hitem⟩
  | @char byte a b high low ha hb hbyte =>
      have hx : simpleEscape? 'x' = none := by decide
      have hescape : readEscape ('x' :: a :: b :: '\'' :: rest) =
          .done byte ['x', a, b] ('\'' :: rest) := by
        simp [readEscape, hx, readHexDigits, ha, hb, hbyte, Reading.after]
      have hcharacter : readCharacter ('\\' :: 'x' :: a :: b :: '\'' :: rest) =
          .done byte ['\\', 'x', a, b, '\''] rest := by
        simp [readCharacter, hescape, readClosing, Reading.after]
      have hblank : isAsciiBlank '\'' = false := by decide
      have hstart : isNameStart '\'' = false := by decide
      have hdigit : '\''.isDigit = false := by decide
      refine ⟨'\'', ['\\', 'x', a, b, '\''], rfl, ?_⟩
      simp [readItem, hblank, hstart, hdigit, hcharacter, Reading.after]
  | keyword k => exact hword (isWord_keyword k)
  | symbol s =>
      obtain ⟨c, cs, hs, hitem⟩ := readItem_symbol s hspace.calm
      rw [TokenKind.describe, hs]
      exact ⟨c, cs, rfl, readItem_of_space hitem hrest⟩

/-- Tokens that are spelled are read again. -/
theorem Spelled.reads {kinds : List TokenKind} {text : List Char} (h : Spelled kinds text) :
    Reads text (kinds ++ [.eof]) := by
  induction h with
  | nil => exact reads_nil
  | @one k text hk =>
      obtain ⟨c, cs, rfl, hitem⟩ := readItem_spelled hk blankOrEnd_nil
      rw [List.append_nil] at hitem
      exact reads_item _ hitem reads_nil
  | @more k l ks text gap rest hk hgap _ ih =>
      have hrest : BlankOrEnd (gap ++ rest) := by
        obtain ⟨c, cs, rfl, hc⟩ := hgap.blank
        rintro _ ⟨⟩
        exact hc
      obtain ⟨c, cs, rfl, hitem⟩ := readItem_spelled hk hrest
      rw [List.append_assoc]
      exact reads_item _ hitem (hgap.isGap.reads ih)

/--
**Reading undoes spelling.**  Any tokens but the end of input, spelled one after the other with
separators between them, are read as they were, followed by the end of input.  A separator is made
of blanks and complete comments and begins with a blank; it may end with either.
-/
theorem tokenize_spelled {kinds : List TokenKind} {text : List Char} (h : Spelled kinds text) :
    ∃ tokens, tokenize (String.ofList text) = .ok tokens ∧
      tokens.map Token.kind = kinds ++ [.eof] := by
  rw [tokenize, String.toList_ofList]
  exact h.reads _

/-- Two slashes with a comment between them, and a byte that no text holds. -/
theorem tokenize_spelled_slashes :
    let kinds : List TokenKind := [.symbol .slash, .symbol .slash, .string [34, 255]]
    let text := ['/'] ++ [' ', '/', '*', '/', '*', '/'] ++
      (['/'] ++ [' ', '/', '/', '\n'] ++ ['"', '\\', '"', '\\', 'x', 'f', 'f', '"'])
    Spelled kinds text ∧ ∃ tokens, tokenize (String.ofList text) = .ok tokens ∧
      tokens.map Token.kind = [.symbol .slash, .symbol .slash, .string [34, 255], .eof] := by
  have hblock : IsSeparator [' ', '/', '*', '/', '*', '/'] :=
    ⟨.blank (by decide) (@IsGap.block ['/'] [] (by decide) .nil), ' ', _, rfl, by decide⟩
  have hline : IsSeparator [' ', '/', '/', '\n'] :=
    ⟨.blank (by decide) (@IsGap.line [] [] (by decide) .nil), ' ', _, rfl, by decide⟩
  have h : Spelled [.symbol .slash, .symbol .slash, .string [34, 255]] (['/'] ++
      [' ', '/', '*', '/', '*', '/'] ++
      (['/'] ++ [' ', '/', '/', '\n'] ++ ['"', '\\', '"', '\\', 'x', 'f', 'f', '"'])) :=
    .more (.symbol .slash) hblock (.more (.symbol .slash) hline (.one (.string [34, 255])))
  exact ⟨h, tokenize_spelled h⟩

end Lexer

end RuleScan
