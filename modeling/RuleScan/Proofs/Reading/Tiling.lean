import RuleScan.Proofs.Reading.Lookahead

/-!
# Sources are tiled by their tokens

The text of a source is made up of the texts of its tokens, in order, and of the gaps between
them.  A gap is made of blanks and comments (`IsGap`); only the last one, in front of the end of
input, may also end within a line.  So reading tokens loses nothing but gaps, and the place of a
token is the place of its first byte (`placeAfter`), which no reading is needed to find: lines are
counted by the line breaks before it, columns by the bytes since the last one.  Lines and columns
are kept in words, which show the place (`Place.ofWords`) in every text of less than four gibibytes
and wrap around in longer ones.

A token also keeps its kind when it is taken out of its source: nothing that stood around it is
needed to read it.

## Main results

* `advance_eq_placeAfter` — places computed on the way are places of bytes.
* `Lexes.tiles` — the items of a text tile it.
* `tokenize_tiles` — the tokens of a source tile it.
-/

namespace RuleScan.Lexer

open Text

/-! ## Gaps -/

/-- Blanks and complete comments.  A comment up to the end of the line takes the line break. -/
inductive IsGap : List Char → Prop where
  | nil : IsGap []
  | blank {c : Char} {gap : List Char} : isAsciiBlank c = true → IsGap gap → IsGap (c :: gap)
  | line {body gap : List Char} :
      '\n' ∉ body → IsGap gap → IsGap ('/' :: '/' :: (body ++ '\n' :: gap))
  | block {body gap : List Char} :
      ¬ blockEnd <:+: body → IsGap gap → IsGap ('/' :: '*' :: (body ++ blockEnd ++ gap))

/-- A gap that may end within a comment up to the end of the line. -/
inductive IsLastGap : List Char → Prop where
  | whole {gap : List Char} : IsGap gap → IsLastGap gap
  | line {gap body : List Char} : IsGap gap → '\n' ∉ body → IsLastGap (gap ++ '/' :: '/' :: body)

theorem IsGap.append {gap gap' : List Char} (h : IsGap gap) (h' : IsGap gap') :
    IsGap (gap ++ gap') := by
  induction h with
  | nil => exact h'
  | blank hc _ ih => exact .blank hc ih
  | line hbody _ ih =>
      simp only [List.cons_append, List.append_assoc]
      exact .line hbody ih
  | block hbody _ ih =>
      simp only [List.cons_append, List.append_assoc]
      rw [← List.append_assoc]
      exact .block hbody ih

/-- A line break ends a comment up to the end of the line. -/
theorem IsLastGap.append_break {gap : List Char} (h : IsLastGap gap) : IsGap (gap ++ ['\n']) := by
  cases h with
  | whole h => exact h.append (.blank (by decide) .nil)
  | @line gap body h hbody =>
      rw [List.append_assoc]
      exact h.append (.line hbody .nil)

theorem wordKind_ne_eof (word : List Char) : wordKind word ≠ .eof := by
  unfold wordKind
  split <;> simp

theorem readSymbol_ne_eof {c : Char} {cs text rest : List Char} {k : TokenKind}
    (h : readSymbol c cs = .done k text rest) : k ≠ .eof := by
  unfold readSymbol at h
  split at h <;> split at h <;> cases h <;> simp

/-- What is passed over is a gap, or a comment up to the end of the line that follows, and nothing
else is read as the end of input. -/
theorem readItem_cases {c : Char} {cs text rest : List Char} {v : Option TokenKind}
    (h : readItem c cs = .done v text rest) :
    (v = none ∧ (IsGap text ∨ ∃ body, text = '/' :: '/' :: body ∧ '\n' ∉ body ∧
      ∀ d, rest.head? = some d → d = '\n')) ∨ ∃ k, v = some k ∧ k ≠ .eof := by
  have htoken : ∀ {α : Type} {r : Reading α} {f : α → TokenKind} {t : List Char},
      r.after t (fun v => some (f v)) = .done v text rest →
      (∀ v t', r = .done v t' rest → f v ≠ .eof) → ∃ k, v = some k ∧ k ≠ .eof := by
    intro α r f t hread hne
    obtain ⟨v, t', hv, hk, -⟩ := Reading.after_eq_done hread
    exact ⟨f v, hk, hne v t' hv⟩
  unfold readItem at h
  split at h
  · next hblank =>
    cases h
    exact .inl ⟨rfl, .inl (.blank hblank .nil)⟩
  split at h
  · next hslash =>
    subst hslash
    unfold readSlash at h
    split at h
    · next d cs =>
      split at h
      · next hd =>
        obtain ⟨_, body, hread, hv, rfl⟩ := Reading.after_eq_done h
        obtain ⟨hbody, hhead, -⟩ := readLine_eq_done_iff.1 hread
        exact .inl ⟨hv, .inr ⟨body, by rw [hd]; rfl, hbody, hhead⟩⟩
      split at h
      · next hd =>
        obtain ⟨_, t, hread, hv, rfl⟩ := Reading.after_eq_done h
        obtain ⟨body, hbody, rfl, -⟩ := readBlock_eq_done_iff.1 hread
        rw [hd, ← List.append_nil (body ++ blockEnd)]
        exact .inl ⟨hv, .inl (.block hbody .nil)⟩
      · exact .inr (htoken h fun _ _ => readSymbol_ne_eof)
    · exact .inr (htoken h fun _ _ => readSymbol_ne_eof)
  split at h
  · refine .inr (htoken h fun v t hv => ?_)
    cases hv
    exact wordKind_ne_eof _
  split at h
  · refine .inr (htoken h fun v t hv => ?_)
    unfold readSpecial at hv
    dsimp only at hv
    split at hv <;> cases hv
    simp
  split at h
  · refine .inr (htoken h fun v t hv => ?_)
    obtain ⟨_, n, -, -, rfl, -⟩ := (readNumber_eq_done_iff rfl).1 hv
    simp
  split at h
  · exact .inr (htoken h (by simp))
  split at h
  · exact .inr (htoken h (by simp))
  · exact .inr (htoken h fun _ _ => readSymbol_ne_eof)

/-- The kinds of the tokens of a text: only the last one is the end of input. -/
theorem Lexes.exists_kinds {p : Position} {cs : List Char} {tokens : List Token}
    (h : Lexes p cs tokens) :
    ∃ kinds, tokens.map Token.kind = kinds ++ [.eof] ∧ .eof ∉ kinds := by
  induction h with
  | eof => exact ⟨[], rfl, List.not_mem_nil⟩
  | gap _ _ ih => exact ih
  | @token p c text rest k tokens hitem _ ih =>
      obtain ⟨kinds, hkinds, hinner⟩ := ih
      obtain ⟨hnone, -⟩ | ⟨_, hsome, hne⟩ := readItem_cases hitem
      · cases hnone
      · cases hsome
        refine ⟨k :: kinds, by rw [List.map_cons, hkinds]; rfl, ?_⟩
        rw [List.mem_cons, not_or]
        exact ⟨hne.symm, hinner⟩

/-! ## Places -/

/-- A line and a column as numbers, however large. -/
structure Place where
  line : Nat
  column : Nat

/-- The words that are kept of a place. -/
def Place.words (q : Place) : Position := ⟨UInt32.ofNat q.line, UInt32.ofNat q.column⟩

/-- The place that two words show. -/
def Place.ofWords (p : Position) : Place := ⟨p.line.toNat, p.column.toNat⟩

theorem Place.ofWords_words {q : Place} (hline : q.line < UInt32.size)
    (hcolumn : q.column < UInt32.size) : ofWords q.words = q := by
  rw [ofWords, words, UInt32.toNat_ofNat_of_lt' hline, UInt32.toNat_ofNat_of_lt' hcolumn]

/-- The line and the column of the byte that follows some bytes, both counted from one: there is
a line for each line break, and a column for each byte since the last of them. -/
def placeAfter (bytes : Bytes) : Place where
  line := bytes.count 10 + 1
  column := (bytes.reverse.takeWhile (· ≠ 10)).length + 1

/-- Words do not wrap around in a text of less than four gibibytes. -/
theorem ofWords_placeAfter {bytes : Bytes} (h : bytes.length + 1 < UInt32.size) :
    Place.ofWords (placeAfter bytes).words = placeAfter bytes := by
  have hline : bytes.count 10 ≤ bytes.length := List.count_le_length
  have hcolumn : (bytes.reverse.takeWhile (· ≠ 10)).length ≤ bytes.reverse.length :=
    (List.takeWhile_sublist _).length_le
  rw [List.length_reverse] at hcolumn
  refine Place.ofWords_words ?_ ?_
  · exact Nat.lt_of_le_of_lt (Nat.succ_le_succ hline) h
  · exact Nat.lt_of_le_of_lt (Nat.succ_le_succ hcolumn) h

/-- Only a line break is encoded with the byte of a line break. -/
theorem mem_utf8EncodeChar {c : Char} : 10 ∈ String.utf8EncodeChar c ↔ c = '\n' := by
  constructor
  · intro h
    have hbyte : ∀ n : Nat, (10 : UInt8) = UInt8.ofNat n → n % 256 = 10 := fun n hn => by
      have := congrArg UInt8.toNat hn
      simpa using this.symm
    have hcode : c.toNat = 10 := by
      unfold String.utf8EncodeChar at h
      dsimp only at h
      have hval : c.val.toNat = c.toNat := rfl
      rw [hval] at h
      generalize c.toNat = v at h
      split at h
      · have := hbyte _ (List.mem_singleton.1 h)
        omega
      split at h
      · simp only [List.mem_cons, List.not_mem_nil, or_false] at h
        rcases h with h | h <;> have := hbyte _ h <;> omega
      split at h
      · simp only [List.mem_cons, List.not_mem_nil, or_false] at h
        rcases h with h | h | h <;> have := hbyte _ h <;> omega
      · simp only [List.mem_cons, List.not_mem_nil, or_false] at h
        rcases h with h | h | h | h <;> have := hbyte _ h <;> omega
    rw [← Char.ofNat_toNat c, hcode]
  · rintro rfl
    decide

/-- The words of a place are moved on as the place is. -/
theorem words_placeAfter_append_char (bytes : Bytes) (c : Char) :
    (placeAfter (bytes ++ String.utf8EncodeChar c)).words = step (placeAfter bytes).words c := by
  unfold Place.words placeAfter step
  rw [List.count_append, List.reverse_append]
  split
  · next hbreak =>
    rw [hbreak]
    exact congrArg (Position.mk · 1) (UInt32.ofNat_add _ 1)
  · next hbreak =>
    have hnone : 10 ∉ String.utf8EncodeChar c := fun hmem => hbreak (mem_utf8EncodeChar.1 hmem)
    have hall : ∀ b ∈ (String.utf8EncodeChar c).reverse, decide (b ≠ 10) = true := fun b hb =>
      decide_eq_true fun heq => hnone (heq ▸ List.mem_reverse.1 hb)
    rw [List.takeWhile_append_of_pos hall, List.count_eq_zero_of_not_mem hnone, List.length_append,
      List.length_reverse, String.length_utf8EncodeChar, Nat.add_assoc c.utf8Size,
      Nat.add_comm c.utf8Size, Nat.add_zero]
    exact congrArg (Position.mk _) (UInt32.ofNat_add _ c.utf8Size)

theorem advance_words_placeAfter (bytes : Bytes) (cs : List Char) :
    advance (placeAfter bytes).words cs = (placeAfter (bytes ++ Utf8.encodeChars cs)).words := by
  induction cs generalizing bytes with
  | nil => simp [advance]
  | cons c cs ih =>
      have hbytes : bytes ++ Utf8.encodeChars (c :: cs) =
          bytes ++ String.utf8EncodeChar c ++ Utf8.encodeChars cs := by simp [Utf8.encodeChars]
      rw [hbytes, ← ih, words_placeAfter_append_char]
      rfl

/-- A place that was computed on the way is the place of the byte that follows. -/
theorem advance_eq_placeAfter (cs rest : List Char) :
    advance ⟨1, 1⟩ cs =
      (placeAfter ((Utf8.encodeChars (cs ++ rest)).take (Utf8.encodeChars cs).length)).words := by
  rw [Utf8.encodeChars_append, List.take_left']
  · exact advance_words_placeAfter [] cs
  · rfl

/-! ## Tilings -/

/-- A token of a source with the gap in front of it. -/
structure Piece where
  gap : List Char
  token : Token

namespace Piece

def text (p : Piece) : List Char := p.gap ++ p.token.text

/-- Where the token of a piece starts, in bytes, if there are other pieces before. -/
def start (before : List Piece) (p : Piece) : Nat :=
  (Utf8.encodeChars (before.flatMap text ++ p.gap)).length

/-- Where the token of a piece ends. -/
def stop (before : List Piece) (p : Piece) : Nat :=
  (Utf8.encodeChars (before.flatMap text ++ p.text)).length

/-- What is known of each piece of a source. -/
structure Fits (source : String) (before : List Piece) (p : Piece) (after : List Piece) :
    Prop where
  words : p.token.position = (placeAfter ((Utf8.encode source).take (p.start before))).words
  place : (Utf8.encode source).length + 1 < UInt32.size →
    Place.ofWords p.token.position = placeAfter ((Utf8.encode source).take (p.start before))
  starts : String.Pos.Raw.IsValid source ⟨p.start before⟩
  stops : String.Pos.Raw.IsValid source ⟨p.stop before⟩
  last : p.token.kind = .eof ↔ after = []
  eof : p.token.kind = .eof → IsLastGap p.gap ∧ p.token.text = []
  token : p.token.kind ≠ .eof → IsGap p.gap ∧
    ∃ tokens, tokenize (String.ofList p.token.text) = .ok tokens ∧
      tokens.map Token.kind = [p.token.kind, .eof]

end Piece

/-- A text is made up of pieces, and only the last one is the end of input. -/
inductive Tiles : Position → List Char → List Piece → Prop where
  | eof {p : Position} {gap : List Char} :
      IsLastGap gap → Tiles p gap [⟨gap, .eof, advance p gap, []⟩]
  | token {p : Position} {gap text rest : List Char} {k : TokenKind} {pieces : List Piece} :
      IsGap gap → k ≠ .eof → Reads text [k, .eof] →
      Tiles (advance p (gap ++ text)) rest pieces →
      Tiles p (gap ++ (text ++ rest)) (⟨gap, k, advance p gap, text⟩ :: pieces)

/-- The items of a text tile it, also behind a gap that was passed over before.  The induction is
on the items; the gap may end within a comment up to the end of the line if a line break or the
end of the text follows. -/
theorem Lexes.tiles {p q : Position} {gap cs : List Char} {tokens : List Token}
    (h : Lexes p cs tokens) (hp : p = advance q gap)
    (hgap : IsGap gap ∨ IsLastGap gap ∧ ∀ d, cs.head? = some d → d = '\n') :
    ∃ pieces, Tiles q (gap ++ cs) pieces ∧ pieces.map Piece.token = tokens := by
  induction h generalizing q gap with
  | eof =>
      subst hp
      have hlast : IsLastGap gap := hgap.elim .whole And.left
      refine ⟨[⟨gap, .eof, advance q gap, []⟩], ?_, rfl⟩
      rw [List.append_nil]
      exact .eof hlast
  | @gap p c text rest tokens hitem _ ih =>
      subst hp
      rw [← List.cons_append, ← List.append_assoc]
      refine ih (advance_append _ _ _).symm ?_
      obtain hgap | ⟨hlast, hbreak⟩ := hgap
      · obtain ⟨-, htext | ⟨body, htext, hbody, hhead⟩⟩ | ⟨_, hsome, -⟩ := readItem_cases hitem
        · exact .inl (hgap.append htext)
        · rw [htext]
          exact .inr ⟨.line hgap hbody, hhead⟩
        · cases hsome
      · obtain rfl : c = '\n' := hbreak c rfl
        cases hitem
        exact .inl hlast.append_break
  | @token p c text rest k tokens hitem _ ih =>
      subst hp
      have hblank : isAsciiBlank c = false := by
        refine Bool.eq_false_iff.2 fun hblank => ?_
        rw [readItem, if_pos hblank] at hitem
        cases hitem
      obtain hgap | ⟨-, hbreak⟩ := hgap
      · have halone : readItem c (text ++ []) = .done (some k) (c :: text) [] :=
          readItem_local hitem (tame_nil rest) fun hnone => by cases hnone
        rw [List.append_nil] at halone
        obtain ⟨pieces, hpieces, htokens⟩ :=
          @ih (advance q (gap ++ c :: text)) [] (advance_append _ _ _).symm (.inl .nil)
        obtain ⟨hnone, -⟩ | ⟨_, hsome, hne⟩ := readItem_cases hitem
        · cases hnone
        · cases hsome
          exact ⟨_, .token hgap hne (reads_item _ halone reads_nil) hpieces,
            by rw [List.map_cons, htokens]⟩
      · obtain rfl : c = '\n' := hbreak c rfl
        cases hblank

theorem Tiles.ne_nil {p : Position} {cs : List Char} {pieces : List Piece}
    (h : Tiles p cs pieces) : pieces ≠ [] := by
  cases h <;> simp

theorem Tiles.flatMap_text {p : Position} {cs : List Char} {pieces : List Piece}
    (h : Tiles p cs pieces) : cs = pieces.flatMap Piece.text := by
  induction h with
  | eof => simp [Piece.text]
  | token _ _ _ _ ih =>
      rw [List.flatMap_cons, ← ih, Piece.text, List.append_assoc]

/-- What is said of a piece does not depend on the pieces before it, except for its place. -/
theorem Tiles.piece {p : Position} {cs : List Char} {pieces before after : List Piece} {q : Piece}
    (h : Tiles p cs pieces) (hsplit : pieces = before ++ q :: after) :
    q.token.position = advance p (before.flatMap Piece.text ++ q.gap) ∧
      (q.token.kind = .eof ↔ after = []) ∧
      (q.token.kind = .eof → IsLastGap q.gap ∧ q.token.text = []) ∧
      (q.token.kind ≠ .eof → IsGap q.gap ∧ Reads q.token.text [q.token.kind, .eof]) := by
  induction h generalizing before with
  | @eof p gap hgap =>
      match before with
      | [] =>
          cases hsplit
          exact ⟨rfl, by simp, fun _ => ⟨hgap, rfl⟩, fun hne => absurd rfl hne⟩
      | [_] => simp at hsplit
  | @token p gap text rest k pieces hgap hne hreads hrest ih =>
      match before with
      | [] =>
          cases hsplit
          have hafter : after ≠ [] := hrest.ne_nil
          exact ⟨rfl, by simp [hne, hafter], fun heq => absurd heq hne, fun _ => ⟨hgap, hreads⟩⟩
      | r :: before =>
          obtain ⟨rfl, hpieces⟩ := List.cons.inj hsplit
          obtain ⟨hposition, hrest⟩ := ih hpieces
          refine ⟨?_, hrest⟩
          rw [hposition, ← advance_append, List.flatMap_cons, Piece.text]
          simp only [List.append_assoc]

theorem isValid_length {s t : List Char} {source : String} (h : source.toList = s ++ t) :
    String.Pos.Raw.IsValid source ⟨(Utf8.encodeChars s).length⟩ := by
  have hsource : source = String.ofList s ++ String.ofList t := by
    rw [← String.ofList_append, ← h, String.ofList_toList]
  have hsize : (String.ofList s).utf8ByteSize = (Utf8.encodeChars s).length :=
    List.size_toByteArray
  refine String.Pos.Raw.isValid_iff_exists_append.2 ⟨_, _, hsource, ?_⟩
  rw [String.rawEndPos, hsize]

/--
**Reading tokens loses nothing.**  The text of a source that is read is made up of the texts of its
tokens, in order, and of gaps in front of them, which hold nothing but blanks and comments.  A
token carries the line and the column of its first byte, which wrap around in sources of four
gibibytes and more; it starts and stops between characters, the last token and no other is the end
of input, and every other token is read alone as it is read in the source.
-/
theorem tokenize_tiles {source : String} {tokens : List Token}
    (h : tokenize source = .ok tokens) :
    ∃ pieces : List Piece, pieces ≠ [] ∧ pieces.map Piece.token = tokens ∧
      source.toList = pieces.flatMap Piece.text ∧
      ∀ before p after, pieces = before ++ p :: after → p.Fits source before after := by
  obtain ⟨pieces, hpieces, htokens⟩ := (tokensFrom_eq_ok_iff.1 h).tiles
    (show (⟨1, 1⟩ : Position) = advance ⟨1, 1⟩ [] from rfl) (.inl .nil)
  rw [List.nil_append] at hpieces
  refine ⟨pieces, hpieces.ne_nil, htokens, hpieces.flatMap_text, fun before p after hsplit => ?_⟩
  obtain ⟨hposition, hlast, heof, htoken⟩ := hpieces.piece hsplit
  have hwhole : source.toList =
      (before.flatMap Piece.text ++ p.gap) ++ (p.token.text ++ after.flatMap Piece.text) := by
    rw [hpieces.flatMap_text, hsplit, List.flatMap_append, List.flatMap_cons, Piece.text]
    simp only [List.append_assoc]
  have hstop : source.toList =
      (before.flatMap Piece.text ++ p.text) ++ after.flatMap Piece.text := by
    rw [hwhole, Piece.text]
    simp only [List.append_assoc]
  have hwords : p.token.position =
      (placeAfter ((Utf8.encode source).take (p.start before))).words := by
    rw [hposition, advance_eq_placeAfter _ (p.token.text ++ after.flatMap Piece.text), ← hwhole]
    rfl
  refine ⟨hwords, fun hsize => ?_, isValid_length hwhole, isValid_length hstop, hlast, heof,
    fun hne => ?_⟩
  · have htake := List.length_take_le' (p.start before) (Utf8.encode source)
    rw [hwords]
    exact ofWords_placeAfter (by omega)
  · obtain ⟨hgap, hreads⟩ := htoken hne
    rw [tokenize, String.toList_ofList]
    exact ⟨hgap, hreads _⟩

/-- The letter takes two bytes, so the name stands in the ninth column. -/
theorem tokenize_tiles_comment :
    tokenize "/* é */x//" = .ok [⟨.ident "x", ⟨1, 9⟩, ['x']⟩, ⟨.eof, ⟨1, 12⟩, []⟩] ∧
      ∃ pieces : List Piece, pieces ≠ [] ∧
        pieces.map Piece.token = [⟨.ident "x", ⟨1, 9⟩, ['x']⟩, ⟨.eof, ⟨1, 12⟩, []⟩] ∧
        "/* é */x//".toList = pieces.flatMap Piece.text ∧
        ∀ before p after, pieces = before ++ p :: after →
          p.Fits "/* é */x//" before after := by
  have hcomment : readItem '/' ['*', ' ', 'é', ' ', '*', '/', 'x', '/', '/'] =
      .done none ['/', '*', ' ', 'é', ' ', '*', '/'] ['x', '/', '/'] := rfl
  have hname : readItem 'x' ['/', '/'] = .done (some (.ident "x")) ['x'] ['/', '/'] := rfl
  have hline : readItem '/' ['/'] = .done none ['/', '/'] [] := rfl
  have h : tokenize "/* é */x//" = .ok [⟨.ident "x", ⟨1, 9⟩, ['x']⟩, ⟨.eof, ⟨1, 12⟩, []⟩] := by
    refine (tokensFrom_of_gap hcomment ⟨1, 1⟩).trans (tokensFrom_of_token hname ?_)
    rw [tokensFrom_of_gap hline, tokensFrom]
    rfl
  exact ⟨h, tokenize_tiles h⟩

end RuleScan.Lexer
