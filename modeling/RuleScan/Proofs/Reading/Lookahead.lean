import RuleScan.Proofs.Reading.Spelling

/-!
# How far reading looks ahead

Reading an item looks at the text that the item spans and, where the text goes on, at no more
than one character behind it.  That character decides whether a name or a number goes on, whether
an escape has another octal digit and whether a symbol is a longer one, and no blank makes
anything longer.  So an item is read in the same way before any other text that begins like the
one that followed it, before a blank, and at the end (`readItem_local`).  Only a comment up to the
end of the line goes on over blanks.

`Lexes` tells the tokens of a text item by item, which is the induction behind most facts about
whole texts.

## Main results

* `readItem_local` — an item is read in the same way before another text that begins alike.
* `tokensFrom_eq_ok_iff` — the tokens of a text are those of its items.
* `tokenize_join` — two texts with a line break between them are read as each on its own.
-/

namespace RuleScan.Lexer

open Text

/-! ## What may stand behind -/

/-- The second text is empty, or it begins with a blank or in the same way as the first. -/
def Tame (rest rest' : List Char) : Prop :=
  ∀ c, rest'.head? = some c → rest.head? = some c ∨ isAsciiBlank c = true

theorem tame_nil (rest : List Char) : Tame rest [] := by simp [Tame]

theorem tame_append {cs : List Char} (h : cs ≠ []) (rest rest' : List Char) :
    Tame (cs ++ rest) (cs ++ rest') := by
  obtain ⟨c, cs, rfl⟩ := List.exists_cons_of_ne_nil h
  exact fun _ hc => Or.inl hc

/-- Every character with some property that begins the second text is a blank or begins the first
one as well. -/
theorem Tame.of_head {rest rest' : List Char} (h : Tame rest rest') {P : Char → Prop}
    (hrest : ∀ c, rest.head? = some c → P c) (hblank : ∀ c, isAsciiBlank c = true → P c) :
    ∀ c, rest'.head? = some c → P c :=
  fun c hc => (h c hc).elim (hrest c) (hblank c)

/-- A blank is neither part of a name nor a digit, and in no symbol. -/
theorem of_isAsciiBlank {c : Char} (h : isAsciiBlank c = true) :
    isNameChar c = false ∧ digitOf? 8 c = none ∧ radixOf? c = none ∧ c ≠ '/' ∧ c ≠ '*' ∧
      ∀ b, symbol? [b, c] = none := by
  have hcases : c = ' ' ∨ c = '\t' ∨ c = '\n' ∨ c = Char.ofNat 12 ∨ c = '\r' := by
    simp only [isAsciiBlank, Bool.or_eq_true, beq_iff_eq] at h
    have heq : ∀ n, c.toNat = n → c = Char.ofNat n := fun n hn => by rw [← hn, Char.ofNat_toNat]
    rcases h with (((h | h) | h) | h) | h <;> simp [heq _ h]
  have hsymbol : ∀ b, symbol? [b, c] = none := by
    intro b
    refine List.find?_eq_none.2 fun s _ hs => ?_
    have hsecond : s.spelling.toList[1]?.all (fun d => !isAsciiBlank d) = true := by
      cases s <;> decide
    rw [beq_iff_eq.1 hs] at hsecond
    simp [h] at hsecond
  refine ⟨?_, ?_, ?_, ?_, ?_, hsymbol⟩ <;>
    rcases hcases with rfl | rfl | rfl | rfl | rfl <;> decide

/-- What is read does not depend on what stands behind, except for its first character. -/
def Local {α : Type} (before : List Char) (read : List Char → Reading α) : Prop :=
  ∀ ⦃value text rest rest'⦄, read (text ++ rest) = .done value (before ++ text) rest →
    Tame rest rest' → read (text ++ rest') = .done value (before ++ text) rest'

theorem Reading.after_eq_done {α β : Type} {r : Reading α} {text t rest : List Char} {f : α → β}
    {value : β} (h : r.after text f = .done value t rest) :
    ∃ v t', r = .done v t' rest ∧ value = f v ∧ t = text ++ t' := by
  cases r with
  | done v t' rest' =>
    simp only [Reading.after, Reading.done.injEq] at h
    obtain ⟨rfl, rfl, rfl⟩ := h
    exact ⟨v, t', rfl, rfl, rfl⟩
  | failed => simp [Reading.after] at h

theorem Reading.Splits.eq {α : Type} {r : Reading α} {input text rest : List Char} {value : α}
    (h : r.Splits input) (hr : r = .done value text rest) : input = text ++ rest := by
  subst hr
  exact Eq.symm h

theorem Local.after {α β : Type} {before : List Char} {read : List Char → Reading α}
    (h : Local before read) (text : List Char) (f : α → β) :
    Local (text ++ before) fun cs => (read cs).after text f := by
  intro value t rest rest' hread hrest
  obtain ⟨v, t', hv, rfl, ht⟩ := Reading.after_eq_done hread
  rw [List.append_assoc, List.append_cancel_left_eq] at ht
  dsimp only
  rw [h (ht ▸ hv) hrest, Reading.after, List.append_assoc]

/-! ## Escapes and literals -/

theorem takeOctal_local {n : Nat} {cs rest rest' : List Char}
    (h : takeOctal n (cs ++ rest) = (cs, rest)) (hrest : Tame rest rest') :
    takeOctal n (cs ++ rest') = (cs, rest') := by
  induction n generalizing cs with
  | zero =>
      simp only [takeOctal, Prod.mk.injEq] at h ⊢
      exact ⟨h.1, by rw [← h.1, List.nil_append]⟩
  | succ n ih =>
      cases cs with
      | nil =>
          have hhead : ∀ c, rest.head? = some c → digitOf? 8 c = none := by
            rintro c hc
            obtain ⟨cs, rfl⟩ := List.head?_eq_some_iff.1 hc
            simp only [List.nil_append, takeOctal] at h
            split at h
            · cases h
            · next hdigit => simpa using hdigit
          have hhead' := hrest.of_head hhead fun c hc => (of_isAsciiBlank hc).2.1
          cases rest' with
          | nil => rfl
          | cons c rest' => simp [takeOctal, hhead' c rfl]
      | cons c cs =>
          rw [List.cons_append, takeOctal] at h ⊢
          split at h
          · next hdigit =>
            rw [Prod.mk.injEq, List.cons.injEq] at h
            have hcs := ih (Prod.ext_iff.2 ⟨h.1.2, h.2⟩)
            rw [if_pos hdigit, hcs]
          · cases h

theorem local_readHexDigits : Local [] readHexDigits := by
  intro value text rest rest' h _
  rw [List.nil_append] at h ⊢
  unfold readHexDigits at h
  split at h
  · next a b cs hcs =>
    split at h
    · next high low hhigh hlow =>
      cases h
      simp [readHexDigits, hhigh, hlow]
    · cases h
  · cases h

theorem local_readOctal (first : Nat) : Local [] (readOctal first) := by
  intro value text rest rest' h hrest
  rw [List.nil_append] at h ⊢
  unfold readOctal at h ⊢
  dsimp only at h ⊢
  split at h
  · next hlt =>
    rw [Reading.done.injEq] at h
    obtain ⟨hvalue, hdigits⟩ := h
    have htake := takeOctal_local (Prod.ext_iff.2 hdigits) hrest
    rw [hdigits.1] at hlt hvalue
    rw [htake, if_pos hlt, hvalue]
  · cases h

theorem local_readEscape : Local [] readEscape := by
  intro value text rest rest' h hrest
  rw [List.nil_append] at h ⊢
  match text with
  | [] =>
      unfold readEscape at h
      split at h
      · cases h
      split at h
      · cases h
      split at h
      · exact absurd rfl (after_text_ne_nil h (by simp))
      split at h
      · exact absurd rfl (after_text_ne_nil h (by simp))
      · cases h
  | c :: cs =>
      rw [List.cons_append, readEscape] at h ⊢
      cases hsimple : simpleEscape? c with
      | some byte =>
          rw [hsimple] at h
          cases h
          rfl
      | none =>
          rw [hsimple] at h
          dsimp only at h ⊢
          split at h
          · next hx =>
            rw [if_pos hx]
            exact local_readHexDigits.after [c] id h hrest
          · next hx =>
            rw [if_neg hx]
            cases hfirst : digitOf? 8 c with
            | some first =>
                rw [hfirst] at h
                exact (local_readOctal first).after [c] id h hrest
            | none =>
                rw [hfirst] at h
                cases h

/-- An escape in front of more text of the same literal does not depend on what follows that. -/
theorem readEscape_before {cs text t rest : List Char} {byte : UInt8}
    (h : readEscape cs = .done byte text (t ++ rest)) (ht : t ≠ []) (rest' : List Char) :
    readEscape (text ++ (t ++ rest')) = .done byte text (t ++ rest') := by
  rw [(readEscape_splits cs).eq h] at h
  exact local_readEscape h (tame_append ht rest rest')

theorem readString_text_ne_nil {cs t rest : List Char} {bytes : Bytes}
    (h : readString cs = .done bytes t rest) : t ≠ [] := by
  unfold readString at h
  split at h
  · cases h
  split at h
  · cases h
    simp
  split at h
  · cases h
  split at h
  · split at h
    · cases h
    · exact after_text_ne_nil h (by simp)
  · exact after_text_ne_nil h (by simp)

/-- A string ends with its quote, whatever follows. -/
theorem readString_local {cs t rest : List Char} {bytes : Bytes}
    (h : readString cs = .done bytes t rest) (rest' : List Char) :
    readString (t ++ rest') = .done bytes t rest' := by
  fun_induction readString cs generalizing bytes t with
  | case1 => cases h
  | case2 =>
      cases h
      simp [readString]
  | case3 => cases h
  | case4 => cases h
  | case5 cs byte text cs' hescape _ _ ih =>
      obtain ⟨bytes, t, hdone, rfl, rfl⟩ := Reading.after_eq_done h
      rw [(readString_splits cs').eq hdone] at hescape
      have hescape' := readEscape_before hescape (readString_text_ne_nil hdone) rest'
      rw [List.cons_append, List.cons_append, List.append_assoc, readString_escape text hescape',
        ih hdone]
      rfl
  | case6 c cs hquote hline hslash ih =>
      obtain ⟨bytes, t, hdone, rfl, rfl⟩ := Reading.after_eq_done h
      rw [List.singleton_append, List.cons_append, readString, if_neg hquote, if_neg hline,
        if_neg hslash, ih hdone]
      rfl

theorem local_readString : Local [] readString := fun _ _ _ rest' h _ => readString_local h rest'

theorem local_readClosing (byte : UInt8) : Local [] (readClosing byte) := by
  intro value text rest rest' h _
  rw [List.nil_append] at h ⊢
  unfold readClosing at h
  split at h
  · cases h
  split at h
  · next hcs hquote =>
    cases h
    simp [readClosing, hquote]
  · cases h

theorem readClosing_text_ne_nil {byte value : UInt8} {cs t rest : List Char}
    (h : readClosing byte cs = .done value t rest) : t ≠ [] := by
  unfold readClosing at h
  split at h
  · cases h
  split at h
  · cases h
    simp
  · cases h

theorem local_readCharacter : Local [] readCharacter := by
  intro value text rest rest' h hrest
  rw [List.nil_append] at h ⊢
  match text with
  | [] =>
      unfold readCharacter at h
      split at h
      · cases h
      split at h
      · cases h
      split at h
      · split at h
        · cases h
        · exact absurd rfl (after_text_ne_nil h (by simp))
      split at h
      · exact absurd rfl (after_text_ne_nil h (by simp))
      · cases h
  | c :: cs =>
      rw [List.cons_append, readCharacter] at h ⊢
      split at h
      · cases h
      · next hempty =>
        rw [if_neg hempty]
        split at h
        · next hslash =>
          rw [if_pos hslash]
          split at h
          · cases h
          · next byte escaped closing hescape =>
            obtain ⟨v, t, hclosing, rfl, ht⟩ := Reading.after_eq_done h
            rw [List.cons_append, List.cons.injEq] at ht
            obtain ⟨-, rfl⟩ := ht
            rw [(readClosing_splits byte closing).eq hclosing] at hescape hclosing
            have hescape' := readEscape_before hescape (readClosing_text_ne_nil hclosing) rest'
            have hclosing' := local_readClosing byte hclosing hrest
            rw [List.append_assoc, hescape']
            dsimp only
            rw [hclosing']
            rfl
        · next hslash =>
          rw [if_neg hslash]
          split at h
          · next hascii =>
            rw [if_pos hascii]
            exact (local_readClosing _).after [c] id h hrest
          · cases h

/-! ## Words and numbers -/

/-- A name is taken whole if nothing behind it continues it. -/
theorem takeName_append_eq {cs rest : List Char} (hcs : ∀ c ∈ cs, isNameChar c = true)
    (hrest : ∀ c, rest.head? = some c → isNameChar c = false) :
    takeName (cs ++ rest) = (cs, rest) := by
  match rest with
  | [] =>
      unfold takeName
      rw [List.takeWhile_append_of_pos hcs, List.dropWhile_append_of_pos hcs]
      simp
  | c :: rest => exact takeName_of_stops hcs ⟨c, rest, rfl, hrest c rfl⟩

theorem takeName_local {cs rest rest' : List Char} (h : takeName (cs ++ rest) = (cs, rest))
    (hrest : Tame rest rest') : takeName (cs ++ rest') = (cs, rest') := by
  obtain ⟨hname, hdrop⟩ := Prod.ext_iff.1 h
  have hcs : ∀ c ∈ cs, isNameChar c = true := by
    have hall : ((cs ++ rest).takeWhile isNameChar).all isNameChar = true := List.all_takeWhile
    rw [show (cs ++ rest).takeWhile isNameChar = cs from hname] at hall
    exact List.all_eq_true.1 hall
  have hhead : ∀ c, rest.head? = some c → isNameChar c = false := by
    intro c hc
    have hnot := List.head?_dropWhile_not isNameChar (cs ++ rest)
    rw [show (cs ++ rest).dropWhile isNameChar = rest from hdrop, hc] at hnot
    simpa using hnot
  exact takeName_append_eq hcs (hrest.of_head hhead fun c hc => (of_isAsciiBlank hc).1)

theorem local_readWord (first : Char) : Local [first] (readWord first) := by
  intro value text rest rest' h hrest
  simp only [readWord, Reading.done.injEq, List.singleton_append, List.cons.injEq, true_and] at h
  have htake := takeName_local (Prod.ext_iff.2 h.2) hrest
  rw [readWord, htake, ← h.1, h.2.1]
  rfl

theorem local_readSpecial (first : Char) : Local [first] (readSpecial first) := by
  intro value text rest rest' h hrest
  unfold readSpecial at h ⊢
  dsimp only at h ⊢
  split at h
  · cases h
  · next hne =>
    simp only [Reading.done.injEq, List.singleton_append, List.cons.injEq, true_and] at h
    have htake := takeName_local (Prod.ext_iff.2 h.2) hrest
    rw [h.2.1] at hne
    rw [htake, if_neg hne, ← h.1, h.2.1]
    rfl

/-- A number is in another radix only if its second character announces that. -/
theorem splitRadix_of_head {first : Char} {rest : List Char}
    (h : first = '0' → ∀ c, rest.head? = some c → radixOf? c = none) :
    splitRadix first rest = (10, [], first :: rest) := by
  match rest with
  | [] => rfl
  | c :: rest =>
      by_cases hfirst : first = '0'
      · exact splitRadix_decimal rest (h hfirst c rfl)
      · cases hradix : radixOf? c <;> simp [splitRadix, hradix, hfirst]

theorem splitRadix_cases (first : Char) (rest : List Char) :
    (∃ letter body radix, rest = letter :: body ∧
      ∀ body, splitRadix first (letter :: body) = (radix, [first, letter], body)) ∨
      (first = '0' → ∀ c, rest.head? = some c → radixOf? c = none) := by
  by_cases h : first = '0' → ∀ c, rest.head? = some c → radixOf? c = none
  · exact .inr h
  · obtain ⟨hfirst, h⟩ := Classical.not_imp.1 h
    obtain ⟨c, h⟩ := Classical.not_forall.1 h
    obtain ⟨hc, hradix⟩ := Classical.not_imp.1 h
    obtain ⟨body, rfl⟩ := List.head?_eq_some_iff.1 hc
    obtain ⟨radix, hradix⟩ := Option.ne_none_iff_exists'.1 hradix
    exact .inl ⟨c, body, radix, rfl, fun body => by simp [splitRadix, hradix, hfirst]⟩

/-- A number is a name made of digits and underscores, once its radix is known. -/
theorem readNumber_eq_done_iff {first : Char} {cs announced body text rest : List Char}
    {radix : Nat} {k : TokenKind} (h : splitRadix first cs = (radix, announced, body)) :
    readNumber first cs = .done k text rest ↔
      ∃ name n, takeName body = (name, rest) ∧ text = announced ++ name ∧ k = .number n ∧
        (name.filter (· ≠ '_')).isEmpty = false ∧
        readNat radix 0x10000000000000000 (name.filter (· ≠ '_')) = .ok n := by
  unfold readNumber
  rw [h]
  dsimp only
  constructor
  · intro hdone
    split at hdone
    · cases hdone
    · next hdigits =>
      split at hdone
      · next n hn =>
        cases hdone
        exact ⟨_, n, rfl, rfl, rfl, Bool.eq_false_iff.2 hdigits, hn⟩
      · cases hdone
  · rintro ⟨name, n, hname, rfl, rfl, hdigits, hn⟩
    rw [hname]
    dsimp only
    rw [if_neg (Bool.eq_false_iff.1 hdigits), hn]

theorem local_readNumber (first : Char) : Local [first] (readNumber first) := by
  intro value text rest rest' h hrest
  rw [List.singleton_append] at h ⊢
  obtain ⟨letter, body, radix, hinput, hsplit⟩ | hdecimal := splitRadix_cases first (text ++ rest)
  · rw [hinput, readNumber_eq_done_iff (hsplit body)] at h
    obtain ⟨name, n, hname, htext, hvalue, hn⟩ := h
    obtain rfl : text = letter :: name := by simpa using htext
    have hbody : body = name ++ rest := by
      rw [← takeName_append body, hname]
    rw [hbody] at hname
    rw [List.cons_append, readNumber_eq_done_iff (hsplit _)]
    exact ⟨name, n, takeName_local hname hrest, rfl, hvalue, hn⟩
  · rw [readNumber_eq_done_iff (splitRadix_of_head hdecimal)] at h
    obtain ⟨name, n, hname, htext, hvalue, hn⟩ := h
    rw [List.nil_append] at htext
    subst htext
    have hhead : first = '0' → ∀ c, (text ++ rest').head? = some c → radixOf? c = none := by
      intro hzero
      match text with
      | [] => exact hrest.of_head (hdecimal hzero) fun c hc => (of_isAsciiBlank hc).2.2.1
      | c :: text => exact hdecimal hzero
    rw [readNumber_eq_done_iff (splitRadix_of_head hhead)]
    have hname' : takeName (first :: text ++ rest') = (first :: text, rest') :=
      takeName_local hname hrest
    exact ⟨first :: text, n, hname', rfl, hvalue, hn⟩

/-! ## Symbols, comments and items -/

theorem local_readSymbol (first : Char) : Local [first] (readSymbol first) := by
  intro value text rest rest' h hrest
  rw [List.singleton_append] at h ⊢
  cases text with
  | nil =>
      have hone : ∃ s, symbol? [first] = some s ∧ value = .symbol s := by
        unfold readSymbol at h
        split at h <;> split at h <;> cases h
        · exact ⟨_, ‹_›, rfl⟩
        · exact ⟨_, ‹_›, rfl⟩
      have hhead : ∀ c, rest.head? = some c → symbol? [first, c] = none := by
        intro c hc
        obtain ⟨cs, rfl⟩ := List.head?_eq_some_iff.1 hc
        rw [List.nil_append, readSymbol] at h
        split at h
        · cases h
        · next hnone _ => exact hnone
        · next hnone _ => exact hnone
      obtain ⟨s, hs, rfl⟩ := hone
      have hhead' := hrest.of_head hhead fun c hc => (of_isAsciiBlank hc).2.2.2.2.2 first
      cases rest' with
      | nil => simp [readSymbol, hs]
      | cons c rest' => simp [readSymbol, hs, hhead' c rfl]
  | cons c text =>
      rw [List.cons_append, readSymbol] at h
      split at h
      · next s hs =>
        cases h
        simp [readSymbol, hs]
      · simp at h
      · cases h

/-- The end of a block comment. -/
def blockEnd : List Char := ['*', '/']

/-- A character that does not close a block comment belongs to it. -/
theorem readBlock_cons {c : Char} {cs : List Char} (h : ¬ blockEnd <+: c :: cs) :
    readBlock (c :: cs) = (readBlock cs).after [c] id := by
  rw [readBlock.eq_def]
  dsimp only
  split
  · next hstar =>
    cases cs with
    | nil => rw [readBlock, Reading.after, List.append_nil]
    | cons d cs =>
        have hd : d ≠ '/' := by
          rintro rfl
          exact h ⟨cs, by rw [hstar]; rfl⟩
        dsimp only
        rw [if_neg hd]
  · rfl

/-- A block comment goes up to the first closing. -/
theorem readBlock_eq_done_iff {cs t rest : List Char} :
    readBlock cs = .done () t rest ↔
      ∃ body, ¬ blockEnd <:+: body ∧ t = body ++ blockEnd ∧ cs = t ++ rest := by
  induction cs generalizing t with
  | nil =>
      constructor
      · intro h
        cases h
      · rintro ⟨body, -, rfl, h⟩
        simp [blockEnd] at h
  | cons c cs ih =>
      by_cases h : blockEnd <+: c :: cs
      · obtain ⟨after, hcs⟩ := h
        rw [← hcs]
        refine ⟨fun hdone => ?_, ?_⟩
        · cases hdone
          exact ⟨[], by simp [blockEnd], rfl, rfl⟩
        · rintro ⟨body, hbody, rfl, heq⟩
          match body with
          | [] =>
              cases heq
              rfl
          | [_] => simp [blockEnd] at heq
          | a :: b :: body =>
              simp only [blockEnd, List.cons_append, List.cons.injEq] at heq
              obtain ⟨rfl, rfl, -⟩ := heq
              exact absurd ⟨[], body, rfl⟩ hbody
      · rw [readBlock_cons h]
        refine ⟨fun hdone => ?_, ?_⟩
        · obtain ⟨_, t, hread, -, rfl⟩ := Reading.after_eq_done hdone
          obtain ⟨body, hbody, rfl, rfl⟩ := ih.1 hread
          have hopen : ¬ blockEnd <+: c :: body := fun hclosed =>
            h (hclosed.trans ⟨blockEnd ++ rest, by simp⟩)
          refine ⟨c :: body, ?_, rfl, rfl⟩
          rw [List.infix_cons_iff]
          exact not_or_intro hopen hbody
        · rintro ⟨body, hbody, rfl, heq⟩
          match body with
          | [] => exact absurd ⟨rest, heq.symm⟩ h
          | b :: body =>
              simp only [List.cons_append, List.cons.injEq] at heq
              obtain ⟨rfl, hcs⟩ := heq
              rw [List.infix_cons_iff] at hbody
              rw [ih.2 ⟨body, fun hinfix => hbody (.inr hinfix), rfl, hcs⟩]
              rfl

theorem local_readBlock : Local [] readBlock := by
  intro _ text rest rest' h _
  obtain ⟨body, hbody, htext, -⟩ := readBlock_eq_done_iff.1 h
  exact readBlock_eq_done_iff.2 ⟨body, hbody, htext, rfl⟩

/-- A line comment goes up to a line break or to the end. -/
theorem readLine_eq_done_iff {cs t rest : List Char} :
    readLine cs = .done () t rest ↔
      '\n' ∉ t ∧ (∀ c, rest.head? = some c → c = '\n') ∧ cs = t ++ rest := by
  unfold readLine
  constructor
  · intro h
    cases h
    refine ⟨fun hmem => ?_, fun c hc => ?_, List.takeWhile_append_dropWhile.symm⟩
    · have hall : (cs.takeWhile (· ≠ '\n')).all (· ≠ '\n') = true := List.all_takeWhile
      simpa using List.all_eq_true.1 hall _ hmem
    · have hnot := List.head?_dropWhile_not (· ≠ '\n') cs
      rw [hc] at hnot
      simpa using hnot
  · rintro ⟨ht, hrest, rfl⟩
    have hall : ∀ c ∈ t, decide (c ≠ '\n') = true := fun c hc =>
      decide_eq_true fun heq => ht (heq ▸ hc)
    rw [List.takeWhile_append_of_pos hall, List.dropWhile_append_of_pos hall]
    match rest with
    | [] => simp
    | c :: rest => simp [hrest c rfl]

/-- A slash that opens no comment is a symbol. -/
theorem readSlash_symbol (c : Char) {rest : List Char}
    (h : ∀ d, rest.head? = some d → d ≠ '/' ∧ d ≠ '*') :
    readSlash c rest = (readSymbol c rest).after [] some := by
  match rest with
  | [] => rfl
  | d :: rest =>
      obtain ⟨hslash, hstar⟩ := h d rfl
      rw [readSlash, if_neg hslash, if_neg hstar]

theorem readSlash_local {c : Char} {k : Option TokenKind} {text rest rest' : List Char}
    (h : readSlash c (text ++ rest) = .done k (c :: text) rest) (hrest : Tame rest rest')
    (hline : k = none → ∀ d, rest'.head? = some d → rest.head? = some d ∨ d = '\n') :
    readSlash c (text ++ rest') = .done k (c :: text) rest' := by
  have hsymbol : ∀ {text}, (readSymbol c (text ++ rest)).after [] some = .done k (c :: text) rest →
      (readSymbol c (text ++ rest')).after [] some = .done k (c :: text) rest' :=
    fun hread => (local_readSymbol c).after [] some hread hrest
  match text with
  | [] =>
      have hhead : ∀ d, rest.head? = some d → d ≠ '/' ∧ d ≠ '*' := by
        intro d hd
        obtain ⟨cs, rfl⟩ := List.head?_eq_some_iff.1 hd
        rw [List.nil_append, readSlash] at h
        split at h
        · obtain ⟨_, t, -, -, ht⟩ := Reading.after_eq_done h
          simp at ht
        · next hslash =>
          split at h
          · obtain ⟨_, t, -, -, ht⟩ := Reading.after_eq_done h
            simp at ht
          · next hstar => exact ⟨hslash, hstar⟩
      have hhead' := hrest.of_head hhead fun d hd =>
        ⟨(of_isAsciiBlank hd).2.2.2.1, (of_isAsciiBlank hd).2.2.2.2.1⟩
      rw [List.nil_append, readSlash_symbol c hhead] at h
      rw [List.nil_append, readSlash_symbol c hhead']
      exact @hsymbol [] h
  | d :: text =>
      rw [List.cons_append, readSlash] at h ⊢
      split at h
      · next hslash =>
        rw [if_pos hslash]
        obtain ⟨_, t, hread, hk, ht⟩ := Reading.after_eq_done h
        obtain rfl : text = t := by simpa using ht
        obtain ⟨hbreak, hhead, -⟩ := readLine_eq_done_iff.1 hread
        have hread' : readLine (text ++ rest') = .done () text rest' :=
          readLine_eq_done_iff.2 ⟨hbreak, fun e he => (hline hk e he).elim (hhead e) id, rfl⟩
        rw [hread', hk]
        rfl
      · next hslash =>
        rw [if_neg hslash]
        split at h
        · next hstar =>
          rw [if_pos hstar]
          exact (local_readBlock.after [c, d] fun _ => none) h hrest
        · next hstar =>
          rw [if_neg hstar]
          exact @hsymbol (d :: text) h

/-- An item is read in the same way before any other text that begins like the one that followed
it, with a blank, or not at all; a comment up to the end of the line needs a line break. -/
theorem readItem_local {c : Char} {k : Option TokenKind} {text rest rest' : List Char}
    (h : readItem c (text ++ rest) = .done k (c :: text) rest) (hrest : Tame rest rest')
    (hline : k = none → ∀ d, rest'.head? = some d → rest.head? = some d ∨ d = '\n') :
    readItem c (text ++ rest') = .done k (c :: text) rest' := by
  have htoken : ∀ {read : List Char → Reading TokenKind}, Local [c] read →
      (read (text ++ rest)).after [] some = .done k (c :: text) rest →
      (read (text ++ rest')).after [] some = .done k (c :: text) rest' :=
    fun hlocal hread => hlocal.after [] some hread hrest
  unfold readItem at h ⊢
  split at h
  · next hblank =>
    rw [Reading.done.injEq, List.cons.injEq] at h
    obtain ⟨hk, ⟨-, rfl⟩, -⟩ := h
    rw [if_pos hblank, hk]
    rfl
  next hblank =>
  rw [if_neg hblank]
  split at h
  · next hslash =>
    rw [if_pos hslash]
    exact readSlash_local h hrest hline
  next hslash =>
  rw [if_neg hslash]
  split at h
  · next hstart =>
    rw [if_pos hstart]
    exact htoken (local_readWord c) h
  next hstart =>
  rw [if_neg hstart]
  split at h
  · next hspecial =>
    rw [if_pos hspecial]
    exact htoken (local_readSpecial c) h
  next hspecial =>
  rw [if_neg hspecial]
  split at h
  · next hdigit =>
    rw [if_pos hdigit]
    exact htoken (local_readNumber c) h
  next hdigit =>
  rw [if_neg hdigit]
  split at h
  · next hquote =>
    rw [if_pos hquote]
    exact local_readString.after [c] _ h hrest
  next hquote =>
  rw [if_neg hquote]
  split at h
  · next hquote =>
    rw [if_pos hquote]
    exact local_readCharacter.after [c] _ h hrest
  next hquote =>
  rw [if_neg hquote]
  exact htoken (local_readSymbol c) h

/-! ## Whole texts -/

/-- A text that begins at some place has certain tokens. -/
inductive Lexes : Position → List Char → List Token → Prop where
  | eof {p : Position} : Lexes p [] [⟨.eof, p, []⟩]
  | gap {p : Position} {c : Char} {text rest : List Char} {tokens : List Token} :
      readItem c (text ++ rest) = .done none (c :: text) rest →
      Lexes (advance p (c :: text)) rest tokens → Lexes p (c :: (text ++ rest)) tokens
  | token {p : Position} {c : Char} {text rest : List Char} {k : TokenKind}
      {tokens : List Token} :
      readItem c (text ++ rest) = .done (some k) (c :: text) rest →
      Lexes (advance p (c :: text)) rest tokens →
      Lexes p (c :: (text ++ rest)) (⟨k, p, c :: text⟩ :: tokens)

theorem advance_append (p : Position) (s t : List Char) :
    advance p (s ++ t) = advance (advance p s) t := List.foldl_append

theorem readItem_eq_cons {c : Char} {cs t rest : List Char} {k : Option TokenKind}
    (h : readItem c cs = .done k t rest) : ∃ text, t = c :: text ∧ cs = text ++ rest := by
  have hsplits := (readItem_splits c cs).eq h
  match t, readItem_text_ne_nil h with
  | d :: text, _ =>
    rw [List.cons_append, List.cons.injEq] at hsplits
    exact ⟨text, by rw [hsplits.1], hsplits.2⟩

/-- The tokens of a text are those of its items. -/
theorem tokensFrom_eq_ok_iff {p : Position} {cs : List Char} {tokens : List Token} :
    tokensFrom p cs = .ok tokens ↔ Lexes p cs tokens := by
  constructor
  · intro h
    fun_induction tokensFrom p cs generalizing tokens with
    | case1 =>
        cases h
        exact .eof
    | case2 => cases h
    | case3 p c cs t rest hitem ih =>
        obtain ⟨text, rfl, rfl⟩ := readItem_eq_cons hitem
        exact .gap hitem (ih h)
    | case4 p c cs k t rest hitem tokens htokens ih =>
        obtain ⟨text, rfl, rfl⟩ := readItem_eq_cons hitem
        cases h
        exact .token hitem (ih htokens)
    | case5 => cases h
  · intro h
    induction h with
    | eof => rw [tokensFrom]
    | gap hitem _ ih => rw [tokensFrom_of_gap hitem, ih]
    | token hitem _ ih => exact tokensFrom_of_token hitem ih

theorem Lexes.ne_nil {p : Position} {cs : List Char} {tokens : List Token}
    (h : Lexes p cs tokens) : tokens ≠ [] := by
  induction h with
  | eof => simp
  | gap _ _ ih => exact ih
  | token => simp

/-- What a text consists of does not depend on where it stands. -/
theorem Lexes.reads {p : Position} {cs : List Char} {tokens : List Token}
    (h : Lexes p cs tokens) : Reads cs (tokens.map Token.kind) := by
  induction h with
  | eof => exact reads_nil
  | gap hitem _ ih => exact reads_gap hitem ih
  | token hitem _ ih => exact reads_item _ hitem ih

/-- Two texts on different lines are read as they are read on their own. -/
theorem Lexes.append {p : Position} {s t : List Char} {tokens tokens' : List Token}
    (hs : Lexes p s tokens) (ht : Lexes (advance p (s ++ ['\n'])) t tokens') :
    Lexes p (s ++ '\n' :: t) (tokens.dropLast ++ tokens') := by
  have hhead : ∀ rest : List Char, ∀ d, (rest ++ '\n' :: t).head? = some d →
      rest.head? = some d ∨ d = '\n' := by
    intro rest d hd
    match rest with
    | [] => exact .inr (Option.some.inj hd).symm
    | c :: rest => exact .inl hd
  have htame : ∀ rest, Tame rest (rest ++ '\n' :: t) := fun rest d hd =>
    (hhead rest d hd).imp_right fun hline => by rw [hline]; decide
  induction hs with
  | eof => exact @Lexes.gap _ _ [] _ _ rfl ht
  | @gap p c text rest tokens hitem _ ih =>
      rw [← List.cons_append, List.append_assoc, advance_append] at ht
      rw [List.cons_append, List.append_assoc]
      exact .gap (readItem_local hitem (htame rest) fun _ => hhead rest) (ih ht)
  | @token p c text rest k tokens hitem htokens ih =>
      rw [← List.cons_append, List.append_assoc, advance_append] at ht
      rw [List.cons_append, List.append_assoc, List.dropLast_cons_of_ne_nil htokens.ne_nil]
      exact .token (readItem_local hitem (htame rest) fun _ => hhead rest) (ih ht)

/-- A line break keeps the tokens of two texts apart. -/
theorem tokenize_join {text text' : String} {tokens tokens' : List Token}
    {kinds : List TokenKind} (h : tokenize text = .ok tokens) (h' : tokenize text' = .ok tokens')
    (hkinds : tokens.map Token.kind = kinds ++ [.eof]) :
    ∃ joined, tokenize (text ++ "\n" ++ text') = .ok joined ∧
      joined.map Token.kind = kinds ++ tokens'.map Token.kind := by
  have htext : (text ++ "\n" ++ text').toList = text.toList ++ '\n' :: text'.toList := by
    rw [String.toList_append, String.toList_append, List.append_assoc]
    rfl
  obtain ⟨moved, hmoved, hsame⟩ :=
    (tokensFrom_eq_ok_iff.1 h').reads (advance ⟨1, 1⟩ (text.toList ++ ['\n']))
  have hjoined := (tokensFrom_eq_ok_iff.1 h).append (tokensFrom_eq_ok_iff.1 hmoved)
  refine ⟨tokens.dropLast ++ moved, ?_, ?_⟩
  · rw [tokenize, htext]
    exact tokensFrom_eq_ok_iff.2 hjoined
  · rw [List.map_append, List.map_dropLast, hkinds, List.dropLast_concat, hsame]

end RuleScan.Lexer
