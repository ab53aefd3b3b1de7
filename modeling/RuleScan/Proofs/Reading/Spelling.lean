import RuleScan.Token.Lexer

/-!
# Spelling tokens

A word, a number, a string or a symbol is read as the token that it spells, if what stands
behind it does not extend it.  `Lexer.Reads text kinds` says what tokens a text consists of;
the lemmas here put one token in front of a text.

A name or a number ends before a character that no name contains.  A symbol ends before a
character that no longer symbol and no comment has in second place, a calm one.  Everything that
can begin an operand is calm, and a blank or a closing mark ends names as well.

## Main results

* `reads_word`, `reads_special`, `reads_number`, `reads_quote`, `reads_symbol` — one token in
  front of a text.
* `readDigits_toDigits` — the digits of a number are read as that number.
-/

namespace RuleScan.Lexer

open Text

/-- The tokens of a text are of certain kinds, wherever the text stands. -/
def Reads (text : List Char) (kinds : List TokenKind) : Prop :=
  ∀ start, ∃ tokens, tokensFrom start text = .ok tokens ∧ tokens.map Token.kind = kinds

theorem reads_nil : Reads [] [.eof] := fun start => by
  rw [tokensFrom]
  exact ⟨_, rfl, rfl⟩

/-- A blank or a comment that is read first is passed over. -/
theorem tokensFrom_of_gap {c : Char} {cs text rest : List Char}
    (h : readItem c cs = .done none text rest) (p : Position) :
    tokensFrom p (c :: cs) = tokensFrom (advance p text) rest := by
  rw [tokensFrom]
  split <;>
  · next hread =>
    rw [h] at hread
    cases hread
    try rfl

/-- A token that is read first stands before the tokens of what follows. -/
theorem tokensFrom_of_token {c : Char} {cs text rest : List Char} {k : TokenKind}
    (h : readItem c cs = .done (some k) text rest) {p : Position} {tokens : List Token}
    (htokens : tokensFrom (advance p text) rest = .ok tokens) :
    tokensFrom p (c :: cs) = .ok (⟨k, p, text⟩ :: tokens) := by
  rw [tokensFrom]
  split <;>
  · next hread =>
    rw [h] at hread
    cases hread
    try rw [htokens]

theorem reads_gap {c : Char} {cs text rest : List Char} {ks : List TokenKind}
    (hitem : readItem c cs = .done none text rest) (h : Reads rest ks) : Reads (c :: cs) ks :=
  fun start => by
    rw [tokensFrom_of_gap hitem]
    exact h _

theorem reads_item {c : Char} {text rest : List Char} {k : TokenKind} {ks : List TokenKind}
    (spelled : List Char) (hitem : readItem c text = .done (some k) spelled rest)
    (h : Reads rest ks) : Reads (c :: text) (k :: ks) := by
  intro start
  obtain ⟨tokens, htokens, hkinds⟩ := h (advance start spelled)
  exact ⟨_, tokensFrom_of_token hitem htokens, by simp [hkinds]⟩

theorem reads_blank {rest : List Char} {ks : List TokenKind} (h : Reads rest ks) :
    Reads (' ' :: rest) ks :=
  reads_gap rfl h

/-! ## What may follow -/

/-- The characters that may stand in second place of a symbol or begin a comment. -/
def extending : List Char := ['&', '|', '<', '>', '=', '/', '*']

/-- The text begins with a character that does not extend a symbol. -/
def Calm (text : List Char) : Prop := ∃ c rest, text = c :: rest ∧ c ∉ extending

/-- The text begins with a character that does not continue a name. -/
def Stops (text : List Char) : Prop := ∃ c rest, text = c :: rest ∧ isNameChar c = false

/-- The characters that end an operand. -/
def delimiters : List Char := [' ', ')', ']', ',', ':', ';', '[']

/-- The text begins with a character that ends an operand. -/
def Delimits (text : List Char) : Prop := ∃ c rest, text = c :: rest ∧ c ∈ delimiters

theorem delimits_cons {c : Char} (rest : List Char) (h : c ∈ delimiters) : Delimits (c :: rest) :=
  ⟨c, rest, rfl, h⟩

theorem Delimits.stops {text : List Char} (h : Delimits text) : Stops text := by
  obtain ⟨c, rest, rfl, hc⟩ := h
  refine ⟨c, rest, rfl, ?_⟩
  simp only [delimiters, List.mem_cons, List.not_mem_nil, or_false] at hc
  rcases hc with rfl | rfl | rfl | rfl | rfl | rfl | rfl <;> decide

theorem Delimits.calm {text : List Char} (h : Delimits text) : Calm text := by
  obtain ⟨c, rest, rfl, hc⟩ := h
  refine ⟨c, rest, rfl, ?_⟩
  simp only [delimiters, List.mem_cons, List.not_mem_nil, or_false] at hc
  rcases hc with rfl | rfl | rfl | rfl | rfl | rfl | rfl <;> decide

theorem Delimits.append {text : List Char} (h : Delimits text) (rest : List Char) :
    Delimits (text ++ rest) := by
  obtain ⟨c, text', rfl, hc⟩ := h
  exact ⟨c, text' ++ rest, rfl, hc⟩

theorem Calm.append {text : List Char} (h : Calm text) (rest : List Char) :
    Calm (text ++ rest) := by
  obtain ⟨c, text', rfl, hc⟩ := h
  exact ⟨c, text' ++ rest, rfl, hc⟩

/-- A name is taken whole, up to what stops it. -/
theorem takeName_of_stops {cs rest : List Char} (hcs : ∀ c ∈ cs, isNameChar c = true)
    (hrest : Stops rest) : takeName (cs ++ rest) = (cs, rest) := by
  obtain ⟨d, rest', rfl, hd⟩ := hrest
  unfold takeName
  rw [List.takeWhile_append_of_pos hcs, List.dropWhile_append_of_pos hcs,
    List.takeWhile_cons_of_neg (by simp [hd]), List.dropWhile_cons_of_neg (by simp [hd]),
    List.append_nil]

/-! ## Words -/

/-- The characters that names begin with are neither blanks nor slashes. -/
theorem of_isNameStart {c : Char} (h : isNameStart c = true) :
    isAsciiBlank c = false ∧ c ≠ '/' ∧ c ∉ extending := by
  have hcode : (65 ≤ c.toNat ∧ c.toNat ≤ 90) ∨ (97 ≤ c.toNat ∧ c.toNat ≤ 122) ∨ c.toNat = 95 := by
    delta isNameStart Char.isAlpha Char.isUpper Char.isLower at h
    simp only [Bool.or_eq_true, Bool.and_eq_true, decide_eq_true_eq, beq_iff_eq] at h
    have hcode : c.val.toNat = c.toNat := rfl
    rcases h with (h | h) | rfl
    · simp only [ge_iff_le, UInt32.le_iff_toNat_le, hcode] at h
      exact Or.inl h
    · simp only [ge_iff_le, UInt32.le_iff_toNat_le, hcode] at h
      exact Or.inr (Or.inl h)
    · decide
  refine ⟨?_, ?_, ?_⟩
  · simp only [isAsciiBlank, Bool.or_eq_false_iff, beq_eq_false_iff_ne]
    omega
  · rintro rfl
    revert hcode
    decide
  · intro hmem
    simp only [extending, List.mem_cons, List.not_mem_nil, or_false] at hmem
    rcases hmem with rfl | rfl | rfl | rfl | rfl | rfl | rfl <;> revert hcode <;> decide

theorem readItem_word {c : Char} {cs rest : List Char} (hc : isNameStart c = true)
    (hcs : ∀ d ∈ cs, isNameChar d = true) (hrest : Stops rest) :
    readItem c (cs ++ rest) = .done (some (wordKind (c :: cs))) (c :: cs) rest := by
  obtain ⟨hblank, hslash, -⟩ := of_isNameStart hc
  simp [readItem, hblank, hslash, hc, readWord, takeName_of_stops hcs hrest, Reading.after]

theorem reads_word {c : Char} {cs rest : List Char} {ks : List TokenKind}
    (hc : isNameStart c = true) (hcs : ∀ d ∈ cs, isNameChar d = true) (hrest : Stops rest)
    (h : Reads rest ks) : Reads (c :: (cs ++ rest)) (wordKind (c :: cs) :: ks) :=
  reads_item (c :: cs) (readItem_word hc hcs hrest) h

theorem readItem_special {cs rest : List Char} (hne : cs ≠ [])
    (hcs : ∀ d ∈ cs, isNameChar d = true) (hrest : Stops rest) :
    readItem '$' (cs ++ rest) =
      .done (some (.special (String.ofList ('$' :: cs)))) ('$' :: cs) rest := by
  have hblank : isAsciiBlank '$' = false := by decide
  have hstart : isNameStart '$' = false := by decide
  simp [readItem, hblank, hstart, readSpecial, takeName_of_stops hcs hrest, hne, Reading.after]

theorem reads_special {cs rest : List Char} {ks : List TokenKind} (hne : cs ≠ [])
    (hcs : ∀ d ∈ cs, isNameChar d = true) (hrest : Stops rest) (h : Reads rest ks) :
    Reads ('$' :: (cs ++ rest)) (.special (String.ofList ('$' :: cs)) :: ks) :=
  reads_item ('$' :: cs) (readItem_special hne hcs hrest) h

/-! ## Numbers -/

theorem digitOf?_digitChar {radix d : Nat} (hradix : radix ≤ 16) (h : d < radix) :
    digitOf? radix (Nat.digitChar d) = some d := by
  have hcases : ∀ d : Fin 16, digitValue? (Nat.digitChar d) = some d.val := by decide
  have hd : digitValue? (Nat.digitChar d) = some d := hcases ⟨d, by omega⟩
  simp [digitOf?, hd, h]

theorem readDigits_append (radix limit value : Nat) (cs ds : List Char) :
    readDigits radix limit value (cs ++ ds) =
      (readDigits radix limit value cs).bind fun n => readDigits radix limit n ds := by
  induction cs generalizing value with
  | nil => rfl
  | cons c rest ih =>
      simp only [List.cons_append, readDigits]
      cases digitOf? radix c with
      | none => rfl
      | some d =>
          dsimp only
          split
          · exact ih _
          · rfl

/-- The digits of a number below the limit are read as that number. -/
theorem readDigits_toDigits {limit n : Nat} (h : n < limit) :
    readDigits 10 limit 0 (Nat.toDigits 10 n) = .ok n := by
  induction n using Nat.strongRecOn with
  | ind n ih =>
      rw [Nat.toDigits_eq_if (by decide)]
      split
      · next hlt => simp [readDigits, digitOf?_digitChar (by decide) hlt, h]
      · next hge =>
        have hdiv : n / 10 < n := Nat.div_lt_self (by omega) (by decide)
        have hmod : n % 10 < 10 := Nat.mod_lt _ (by decide)
        have hsum : n / 10 * 10 + n % 10 = n := by omega
        rw [readDigits_append, ih _ hdiv (by omega)]
        show readDigits 10 limit (n / 10) [Nat.digitChar (n % 10)] = _
        simp [readDigits, digitOf?_digitChar (by decide) hmod, hsum, h]

/-- What a decimal digit is not, and that names and numbers may contain it. -/
theorem of_isDigit {c : Char} (h : c.isDigit = true) :
    (isAsciiBlank c = false ∧ isNameStart c = false ∧ radixOf? c = none) ∧
      c ∉ ['/', '$', '_'] ∧ c ∉ extending ∧ isNameChar c = true := by
  have hcases : ∀ d : Fin 10, (isAsciiBlank (Char.ofNat (48 + d)) = false ∧
      isNameStart (Char.ofNat (48 + d)) = false ∧ radixOf? (Char.ofNat (48 + d)) = none) ∧
      Char.ofNat (48 + d) ∉ ['/', '$', '_'] ∧ Char.ofNat (48 + d) ∉ extending ∧
      isNameChar (Char.ofNat (48 + d)) = true := by decide
  have hcode : c.val.toNat = c.toNat := rfl
  simp only [Char.isDigit, Bool.and_eq_true, decide_eq_true_eq, ge_iff_le,
    UInt32.le_iff_toNat_le, hcode] at h
  obtain ⟨hlow, hhigh⟩ := h
  replace hlow : 48 ≤ c.toNat := hlow
  replace hhigh : c.toNat ≤ 57 := hhigh
  have hc : c = Char.ofNat (48 + (⟨c.toNat - 48, by omega⟩ : Fin 10)) := by
    rw [show 48 + (c.toNat - 48) = c.toNat by omega, Char.ofNat_toNat]
  rw [hc]
  exact hcases _

/-- A number is decimal unless its second character is a letter. -/
theorem splitRadix_decimal {c d : Char} (rest : List Char) (hd : radixOf? d = none) :
    splitRadix c (d :: rest) = (10, [], c :: d :: rest) := by
  simp only [splitRadix, hd]

theorem readItem_number {n : Nat} {rest : List Char} (hn : n < 0x10000000000000000)
    (hrest : Delimits rest) : ∃ c cs, Nat.toDigits 10 n = c :: cs ∧
      readItem c (cs ++ rest) = .done (some (.number n)) (c :: cs) rest := by
  have hdigits : ∀ c ∈ Nat.toDigits 10 n, c.isDigit = true := fun c hc =>
    Nat.isDigit_of_mem_toDigits (by decide) (by decide) hc
  have hread : readDigits 10 0x10000000000000000 0 (Nat.toDigits 10 n) = .ok n :=
    readDigits_toDigits hn
  generalize hds : Nat.toDigits 10 n = ds at hdigits hread
  cases ds with
  | nil => exact absurd hds Nat.toDigits_ne_nil
  | cons c cs =>
      obtain ⟨⟨hblank, hstart, -⟩, hmarks, -, -⟩ := of_isDigit (hdigits c (List.mem_cons_self ..))
      have hradix : splitRadix c (cs ++ rest) = (10, [], c :: cs ++ rest) := by
        cases cs with
        | nil =>
            obtain ⟨d, rest', rfl, hd⟩ := hrest
            have hletters : delimiters.all (fun d => radixOf? d == none) = true := by decide
            exact splitRadix_decimal rest' (beq_iff_eq.1 (List.all_eq_true.1 hletters d hd))
        | cons d cs' =>
            exact splitRadix_decimal _ (of_isDigit (hdigits d (by simp))).1.2.2
      have htake : takeName (c :: cs ++ rest) = (c :: cs, rest) :=
        takeName_of_stops (fun d hd => (of_isDigit (hdigits d hd)).2.2.2) hrest.stops
      have hfilter : (c :: cs).filter (· ≠ '_') = c :: cs := by
        refine List.filter_eq_self.2 fun d hd => ?_
        have := (of_isDigit (hdigits d hd)).2.1
        simp_all
      have hnumber : readNumber c (cs ++ rest) = .done (.number n) (c :: cs) rest := by
        unfold readNumber
        simp only [hradix, htake, hfilter]
        simp [readNat, hread]
      refine ⟨c, cs, rfl, ?_⟩
      simp only [List.mem_cons, not_or] at hmarks
      simp [readItem, hblank, hstart, hmarks.1, hmarks.2.1, hdigits c (List.mem_cons_self ..),
        hnumber, Reading.after]

theorem reads_number {n : Nat} {rest : List Char} {ks : List TokenKind}
    (hn : n < 0x10000000000000000) (hrest : Delimits rest) (h : Reads rest ks) :
    Reads (Nat.toDigits 10 n ++ rest) (.number n :: ks) := by
  obtain ⟨c, cs, hdigits, hitem⟩ := readItem_number hn hrest
  rw [hdigits]
  exact reads_item (c :: cs) hitem h

/-! ## Strings -/

/-- A byte that is printed as it is stands for one character, which needs no escape. -/
theorem plain_byte (b : UInt8) (hlow : 0x20 ≤ b) (hhigh : b ≤ 0x7e) (hquote : b ≠ 34)
    (hslash : b ≠ 92) : Char.ofNat b.toNat ∉ ['"', '\n', '\\'] ∧
      String.utf8EncodeChar (Char.ofNat b.toNat) = [b] := by
  have hcases : ∀ n : Fin 256, 0x20 ≤ UInt8.ofNat n → UInt8.ofNat n ≤ 0x7e →
      UInt8.ofNat n ≠ 34 → UInt8.ofNat n ≠ 92 →
      Char.ofNat (UInt8.ofNat n).toNat ∉ ['"', '\n', '\\'] ∧
        String.utf8EncodeChar (Char.ofNat (UInt8.ofNat n).toNat) = [UInt8.ofNat n] := by
    decide +kernel
  have hb : UInt8.ofNat (⟨b.toNat, b.toNat_lt⟩ : Fin 256) = b := UInt8.ofNat_toNat
  have := hcases ⟨b.toNat, b.toNat_lt⟩
  rw [hb] at this
  exact this hlow hhigh hquote hslash

/-- A byte that is printed in hexadecimal is read back. -/
theorem readHexDigits_hexByte (b : UInt8) (rest : List Char) :
    readHexDigits (hexByte b ++ rest) = .done b (hexByte b) rest := by
  have hb := b.toNat_lt
  have hhigh := digitOf?_digitChar (show 16 ≤ 16 by decide) (show b.toNat / 16 < 16 by omega)
  have hlow := digitOf?_digitChar (show 16 ≤ 16 by decide) (show b.toNat % 16 < 16 by omega)
  have hsum : b.toNat / 16 * 16 + b.toNat % 16 = b.toNat := by omega
  simp [hexByte, readHexDigits, hhigh, hlow, hsum]

/-- A backslash and what follows it are read as the byte that they stand for. -/
theorem readString_escape {b : UInt8} (text : List Char) {cs : List Char}
    (h : readEscape (text ++ cs) = .done b text cs) :
    readString ('\\' :: (text ++ cs)) = (readString cs).after ('\\' :: text) (b :: ·) := by
  rw [readString, if_neg (by decide), if_neg (by decide), if_pos rfl]
  split
  · next hfailed => rw [h] at hfailed; cases hfailed
  · next hdone =>
    rw [h] at hdone
    cases hdone
    rfl

/-- The spelling of a byte inside quotes is read as that byte. -/
theorem readString_quoteByte (b : UInt8) (cs : List Char) :
    readString (Value.quoteByte b ++ cs) =
      (readString cs).after (Value.quoteByte b) (b :: ·) := by
  have hsimple : ∀ {c : Char}, simpleEscape? c = some b →
      readString ('\\' :: ([c] ++ cs)) = (readString cs).after ('\\' :: [c]) (b :: ·) :=
    fun hc => readString_escape _ (by simp [readEscape, hc])
  unfold Value.quoteByte
  split
  · next hb => exact hsimple (hb ▸ rfl)
  split
  · next hb => exact hsimple (hb ▸ rfl)
  split
  · next hb => exact hsimple (hb ▸ rfl)
  split
  · next hb => exact hsimple (hb ▸ rfl)
  split
  · next hb => exact hsimple (hb ▸ rfl)
  split
  · next hquote hslash _ _ _ hplain =>
    obtain ⟨hmarks, hencoded⟩ := plain_byte b hplain.1 hplain.2 hquote hslash
    simp only [List.mem_cons, List.not_mem_nil, or_false, not_or] at hmarks
    rw [List.singleton_append, readString, if_neg hmarks.1, if_neg hmarks.2.1,
      if_neg hmarks.2.2, hencoded]
    rfl
  · refine readString_escape ('x' :: hexByte b) ?_
    have hx : simpleEscape? 'x' = none := by decide
    simp [readEscape, hx, readHexDigits_hexByte, Reading.after]

/-- A printed byte string is read back, whatever its bytes. -/
theorem readString_quote (bytes : Bytes) (rest : List Char) :
    readString (bytes.flatMap Value.quoteByte ++ '"' :: rest) =
      .done bytes (bytes.flatMap Value.quoteByte ++ ['"']) rest := by
  induction bytes with
  | nil => simp [readString]
  | cons b bytes ih =>
      rw [List.flatMap_cons, List.append_assoc, readString_quoteByte, ih]
      simp [Reading.after]

theorem readItem_quote (bytes : Bytes) (rest : List Char) : ∃ cs,
    (Value.quote bytes).toList = '"' :: cs ∧
      readItem '"' (cs ++ rest) = .done (some (.string bytes)) ('"' :: cs) rest := by
  refine ⟨bytes.flatMap Value.quoteByte ++ ['"'], by simp [Value.quote], ?_⟩
  have hblank : isAsciiBlank '"' = false := by decide
  have hstart : isNameStart '"' = false := by decide
  have hdigit : '"'.isDigit = false := by decide
  simp [readItem, hblank, hstart, hdigit, readString_quote, Reading.after]

theorem reads_quote (bytes : Bytes) {rest : List Char} {ks : List TokenKind}
    (h : Reads rest ks) : Reads ((Value.quote bytes).toList ++ rest) (.string bytes :: ks) := by
  obtain ⟨cs, hquote, hitem⟩ := readItem_quote bytes rest
  rw [hquote]
  exact reads_item ('"' :: cs) hitem h

/-! ## Symbols -/

/-- What stands in second place of a symbol is among the extending characters. -/
theorem symbol?_calm {a b : Char} (hb : b ∉ extending) : symbol? [a, b] = none := by
  refine List.find?_eq_none.2 fun s _ hs => hb ?_
  have hsecond : s.spelling.toList[1]?.all (extending.contains ·) = true := by cases s <;> decide
  rw [beq_iff_eq.1 hs] at hsecond
  exact List.contains_iff_mem.1 hsecond

/-- A symbol is spelled with one or two characters, which begin no other token. -/
theorem spelling_cases (s : Symbol) : ∃ c cs, s.spelling.toList = c :: cs ∧ cs.length ≤ 1 ∧
    (isAsciiBlank c = false ∧ isNameStart c = false ∧ c.isDigit = false) ∧
      c ∉ ['$', '"', '\''] ∧ (c = '/' → cs = []) := by
  cases s <;> exact ⟨_, _, rfl, by decide⟩

theorem readSymbol_spelling {s : Symbol} {c : Char} {cs rest : List Char}
    (hs : s.spelling.toList = c :: cs) (hlength : cs.length ≤ 1) (hrest : Calm rest) :
    readSymbol c (cs ++ rest) = .done (.symbol s) (c :: cs) rest := by
  have hsymbol := symbol?_spelling s
  rw [hs] at hsymbol
  match cs, hlength with
  | [], _ =>
    obtain ⟨d, rest', rfl, hd⟩ := hrest
    simp [readSymbol, symbol?_calm hd, hsymbol]
  | [d], _ => simp [readSymbol, hsymbol]

theorem readItem_symbol (s : Symbol) {rest : List Char} (hrest : Calm rest) : ∃ c cs,
    s.spelling.toList = c :: cs ∧
      readItem c (cs ++ rest) = .done (some (.symbol s)) (c :: cs) rest := by
  obtain ⟨c, cs, hs, hlength, ⟨hblank, hstart, hdigit⟩, hmarks, hslash⟩ := spelling_cases s
  have hsymbol := readSymbol_spelling hs hlength hrest
  refine ⟨c, cs, hs, ?_⟩
  simp only [List.mem_cons, List.not_mem_nil, or_false, not_or] at hmarks
  obtain ⟨d, rest', rfl, hd⟩ := hrest
  by_cases hc : c = '/'
  · subst hc
    obtain rfl := hslash rfl
    simp only [extending, List.mem_cons, List.not_mem_nil, or_false, not_or] at hd
    simp_all [readItem, readSlash, Reading.after]
  · simp [readItem, hblank, hstart, hdigit, hmarks, hc, hsymbol, Reading.after]

theorem reads_symbol (s : Symbol) {rest : List Char} {ks : List TokenKind} (hrest : Calm rest)
    (h : Reads rest ks) : Reads (s.spelling.toList ++ rest) (.symbol s :: ks) := by
  obtain ⟨c, cs, hs, hitem⟩ := readItem_symbol s hrest
  rw [hs]
  exact reads_item (c :: cs) hitem h

end RuleScan.Lexer
