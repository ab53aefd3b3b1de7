import RuleScan.Proofs.Reading.Tiling

/-!
# Where reading stops

A text that cannot be read is made up of items that can, one that cannot, and what stands behind
it (`Reaches`).  The text in front of the unreadable item is read on its own, and its end is the
place of the item: the line and the column of the item's first byte.  This is the place that is
reported, unless the reading of the item passed over a line break before it stopped.  Then the start
of the line where it stopped is reported, which is neither the line nor the column of the item.
Only string literals, character literals and block comments can pass over a line break.

## Main results

* `tokensFrom_eq_error_iff` — reading fails at the first item that cannot be read.
* `line_advance`, `failurePosition_words` — how far an unreadable item moves the place reported.
* `begins_of_break_mem` — the items whose reading can pass over a line break.
* `tokenize_stops` — what is reported for a text that cannot be read.
-/

namespace RuleScan.Lexer

open Text

/-- Reading item by item passes over the first text and comes to the second. -/
inductive Reaches : List Char → List Char → Prop where
  | nil {rest : List Char} : Reaches [] rest
  | item {c : Char} {text before rest : List Char} {v : Option TokenKind} :
      readItem c (text ++ (before ++ rest)) = .done v (c :: text) (before ++ rest) →
      Reaches before rest → Reaches (c :: (text ++ before)) rest

/-! ## The first unreadable item -/

theorem tokensFrom_of_failed {c : Char} {cs text : List Char} {problem : SyntaxProblem}
    {whole : Bool} (h : readItem c cs = .failed problem text whole) (p : Position) :
    tokensFrom p (c :: cs) =
      .error ⟨failurePosition p text, if whole then String.ofList text else "", problem⟩ := by
  rw [tokensFrom]
  split <;>
  · next hread =>
    rw [h] at hread
    cases hread
    try rfl

/-- What fails behind a token fails with it. -/
theorem tokensFrom_of_token_error {c : Char} {cs text rest : List Char} {k : TokenKind}
    {p : Position} {err : SyntaxError} (h : readItem c cs = .done (some k) text rest)
    (herr : tokensFrom (advance p text) rest = .error err) :
    tokensFrom p (c :: cs) = .error err := by
  rw [tokensFrom]
  split <;>
  · next hread =>
    rw [h] at hread
    cases hread
    try rw [herr]

/-- What fails behind items fails with them. -/
theorem Reaches.tokensFrom_eq_error {before rest : List Char} (h : Reaches before rest)
    {p : Position} {err : SyntaxError} (herr : tokensFrom (advance p before) rest = .error err) :
    tokensFrom p (before ++ rest) = .error err := by
  induction h generalizing p with
  | nil => exact herr
  | @item c text before rest v hitem _ ih =>
      rw [← List.cons_append, advance_append] at herr
      rw [List.cons_append, List.append_assoc]
      cases v with
      | none => rw [tokensFrom_of_gap hitem, ih herr]
      | some k => exact tokensFrom_of_token_error hitem (ih herr)

/-- Reading fails at the first item that cannot be read. -/
theorem tokensFrom_eq_error_iff {p : Position} {cs : List Char} {err : SyntaxError} :
    tokensFrom p cs = .error err ↔
      ∃ before c rest problem passed whole, cs = before ++ c :: rest ∧ Reaches before (c :: rest) ∧
        readItem c rest = .failed problem passed whole ∧
        err = ⟨failurePosition (advance p before) passed,
          if whole then String.ofList passed else "", problem⟩ := by
  constructor
  · intro h
    fun_induction tokensFrom p cs with
    | case1 => cases h
    | case2 p c rest problem text whole hitem =>
        cases h
        exact ⟨[], c, rest, problem, text, whole, rfl, .nil, hitem, rfl⟩
    | case3 p c cs t rest hitem ih =>
        obtain ⟨text, rfl, rfl⟩ := readItem_eq_cons hitem
        obtain ⟨before, d, rest, problem, passed, whole, rfl, hreach, hfail, rfl⟩ := ih h
        refine ⟨c :: (text ++ before), d, rest, problem, passed, whole, by simp, ?_, hfail, ?_⟩
        · exact .item hitem hreach
        · rw [← List.cons_append, advance_append]
    | case4 => cases h
    | case5 p c cs k t rest hitem err herr ih =>
        obtain ⟨text, rfl, rfl⟩ := readItem_eq_cons hitem
        cases h
        obtain ⟨before, d, rest, problem, passed, whole, rfl, hreach, hfail, rfl⟩ := ih herr
        refine ⟨c :: (text ++ before), d, rest, problem, passed, whole, by simp, ?_, hfail, ?_⟩
        · exact .item hitem hreach
        · rw [← List.cons_append, advance_append]
  · rintro ⟨before, c, rest, problem, passed, whole, rfl, hreach, hfail, rfl⟩
    exact hreach.tokensFrom_eq_error (tokensFrom_of_failed hfail _)

/-- The text in front of an item is read on its own, and it ends at the place of the item. -/
theorem Reaches.lexes {before rest : List Char} (h : Reaches before rest) (p : Position) :
    ∃ tokens, Lexes p before (tokens ++ [⟨.eof, advance p before, []⟩]) := by
  induction h generalizing p with
  | nil => exact ⟨[], .eof⟩
  | @item c text before rest v hitem _ ih =>
      obtain ⟨tokens, htokens⟩ := ih (advance p (c :: text))
      rw [← advance_append, List.cons_append] at htokens
      have hhead : ∀ d, before.head? = some d → (before ++ rest).head? = some d := by
        intro d hd
        rw [List.head?_append, hd]
        rfl
      have halone : readItem c (text ++ before) = .done v (c :: text) before :=
        readItem_local hitem (fun d hd => .inl (hhead d hd)) fun _ d hd => .inl (hhead d hd)
      cases v with
      | none => exact ⟨tokens, .gap halone htokens⟩
      | some k => exact ⟨⟨k, p, c :: text⟩ :: tokens, .token halone htokens⟩

/-! ## Line breaks inside an item -/

/-- A line is added for each line break. -/
theorem line_advance (p : Position) (cs : List Char) :
    (advance p cs).line = p.line + UInt32.ofNat (cs.count '\n') := by
  induction cs generalizing p with
  | nil => exact (UInt32.add_zero _).symm
  | cons c cs ih =>
      show (advance (step p c) cs).line = _
      rw [ih, List.count_cons]
      unfold step
      split
      · next hbreak =>
        rw [hbreak, beq_self_eq_true, if_pos rfl, UInt32.ofNat_add, UInt32.add_assoc,
          UInt32.add_comm 1]
        rfl
      · next hbreak =>
        rw [if_neg (by simpa using hbreak)]
        rfl

/-- The place of a line that is some lines further on. -/
def Place.below (q : Place) (lines : Nat) : Place := ⟨q.line + lines, 1⟩

/-- The place reported is that of the item if no line break was passed, and the start of a later
line if one was. -/
theorem failurePosition_words (q : Place) (passed : List Char) :
    failurePosition q.words passed =
      (if '\n' ∈ passed then q.below (passed.count '\n') else q).words := by
  unfold failurePosition
  split
  · rw [line_advance]
    exact congrArg (Position.mk · 1) (UInt32.ofNat_add q.line _).symm
  · rfl

theorem Reading.after_eq_failed {α β : Type} {r : Reading α} {text t : List Char} {f : α → β}
    {problem : SyntaxProblem} {whole : Bool} (h : r.after text f = .failed problem t whole) :
    ∃ t', r = .failed problem t' whole ∧ t = text ++ t' := by
  cases r with
  | done => simp [Reading.after] at h
  | failed problem' t' whole' =>
      simp only [Reading.after, Reading.failed.injEq] at h
      obtain ⟨rfl, rfl, rfl⟩ := h
      exact ⟨t', rfl, rfl⟩

theorem not_break_of_isNameChar {c : Char} (h : isNameChar c = true) : c ≠ '\n' := by
  rintro rfl
  cases h

theorem break_mem_splitRadix {first : Char} {rest : List Char}
    (h : '\n' ∈ (splitRadix first rest).2.1) : first = '\n' := by
  have hletter : ∀ {letter : Char} {radix : Nat}, radixOf? letter = some radix → letter ≠ '\n' := by
    rintro letter radix hradix rfl
    cases hradix
  unfold splitRadix at h
  split at h
  · split at h
    · next hradix =>
      split at h
      · simp only [List.mem_cons, List.not_mem_nil, or_false] at h
        exact h.elim Eq.symm fun hl => absurd hl.symm (hletter hradix)
      · cases h
    · cases h
  · cases h

theorem break_mem_readNumber {first : Char} {rest passed : List Char} {problem : SyntaxProblem}
    {whole : Bool} (h : readNumber first rest = .failed problem passed whole)
    (hbreak : '\n' ∈ passed) : first = '\n' := by
  have hpassed : passed = (splitRadix first rest).2.1 ++
      (takeName (splitRadix first rest).2.2).1 := by
    unfold readNumber at h
    dsimp only at h
    split at h
    · cases h
      rfl
    · split at h
      · cases h
      · cases h
        rfl
  rw [hpassed, List.mem_append] at hbreak
  refine hbreak.elim break_mem_splitRadix fun hname => ?_
  exact absurd rfl (not_break_of_isNameChar (List.all_eq_true.1 List.all_takeWhile _ hname))

theorem break_mem_readSymbol {first : Char} {rest passed : List Char} {problem : SyntaxProblem}
    {whole : Bool} (h : readSymbol first rest = .failed problem passed whole)
    (hbreak : '\n' ∈ passed) : first = '\n' := by
  unfold readSymbol at h
  split at h <;> split at h <;> cases h <;> exact (List.mem_singleton.1 hbreak).symm

theorem break_mem_readSlash {first : Char} {rest passed : List Char} {problem : SyntaxProblem}
    {whole : Bool} (h : readSlash first rest = .failed problem passed whole)
    (hbreak : '\n' ∈ passed) : first = '\n' ∨ rest.head? = some '*' := by
  have hsymbol : ∀ {r : List Char}, (readSymbol first r).after [] some =
      .failed problem passed whole → first = '\n' := by
    intro r hfail
    obtain ⟨t, hread, rfl⟩ := Reading.after_eq_failed hfail
    exact break_mem_readSymbol hread hbreak
  unfold readSlash at h
  split at h
  · split at h
    · cases h
    · split at h
      · next hstar => exact .inr (by rw [hstar]; rfl)
      · exact .inl (hsymbol h)
  · exact .inl (hsymbol h)

/-- Only in a string literal, a character literal or a block comment can a line break be passed
before reading stops. -/
theorem begins_of_break_mem {c : Char} {cs passed : List Char} {problem : SyntaxProblem}
    {whole : Bool} (h : readItem c cs = .failed problem passed whole) (hbreak : '\n' ∈ passed) :
    c = '"' ∨ c = '\'' ∨ c = '/' ∧ cs.head? = some '*' := by
  unfold readItem at h
  split at h
  · cases h
  next hblank =>
  have hc : c ≠ '\n' := by
    rintro rfl
    exact hblank (by decide)
  split at h
  · next hslash =>
    exact .inr (.inr ⟨hslash, (break_mem_readSlash h hbreak).resolve_left hc⟩)
  split at h
  · cases h
  split at h
  · obtain ⟨t, hread, rfl⟩ := Reading.after_eq_failed h
    unfold readSpecial at hread
    dsimp only at hread
    split at hread <;> cases hread
    exact absurd (List.mem_singleton.1 hbreak).symm hc
  split at h
  · obtain ⟨t, hread, rfl⟩ := Reading.after_eq_failed h
    exact absurd (break_mem_readNumber hread hbreak) hc
  split at h
  · next hquote => exact .inl hquote
  split at h
  · next hquote => exact .inr (.inl hquote)
  · obtain ⟨t, hread, rfl⟩ := Reading.after_eq_failed h
    exact absurd (break_mem_readSymbol hread hbreak) hc

/-! ## The place reported -/

/-- What is reported where a text cannot be read: `before` is read, the item that `c` begins is
not, and `passed` is what was read of the item. -/
structure StopsAt (err : SyntaxError) (before : List Char) (c : Char) (rest passed : List Char)
    (whole : Bool) : Prop where
  reaches : Reaches before (c :: rest)
  failed : readItem c rest = .failed err.problem passed whole
  token : err.token = if whole then String.ofList passed else ""
  /-- A token that began where the item begins would have its place. -/
  place : ∃ tokens, tokenize (String.ofList before) =
    .ok (tokens ++ [⟨.eof, (placeAfter (Utf8.encodeChars before)).words, []⟩])
  words : err.position = (if '\n' ∈ passed then
    (placeAfter (Utf8.encodeChars before)).below (passed.count '\n')
    else placeAfter (Utf8.encodeChars before)).words
  position_iff : (Utf8.encodeChars (before ++ c :: rest)).length + 1 < UInt32.size →
    (Place.ofWords err.position = placeAfter (Utf8.encodeChars before) ↔ '\n' ∉ passed)
  moved : '\n' ∈ passed →
    ((Utf8.encodeChars (before ++ c :: rest)).length + 1 < UInt32.size →
      Place.ofWords err.position =
        (placeAfter (Utf8.encodeChars before)).below (passed.count '\n')) ∧
      (c = '"' ∨ c = '\'' ∨ c = '/' ∧ rest.head? = some '*')

theorem length_le_encodeChars (cs : List Char) : cs.length ≤ (Utf8.encodeChars cs).length := by
  induction cs with
  | nil => exact Nat.le_refl 0
  | cons c cs ih =>
      have hsize : 0 < c.utf8Size := c.utf8Size_pos
      rw [Utf8.encodeChars, List.flatMap_cons, List.length_append, String.length_utf8EncodeChar,
        ← Utf8.encodeChars, List.length_cons]
      omega

/-- The line that an item runs on to is a line of the text, and words show it. -/
theorem ofWords_below {before input passed : List Char} (hpassed : passed <+: input)
    (h : (Utf8.encodeChars (before ++ input)).length + 1 < UInt32.size) :
    Place.ofWords ((placeAfter (Utf8.encodeChars before)).below (passed.count '\n')).words =
      (placeAfter (Utf8.encodeChars before)).below (passed.count '\n') := by
  have hbreaks : passed.count '\n' ≤ (Utf8.encodeChars input).length := calc
    passed.count '\n' ≤ passed.length := List.count_le_length
    _ ≤ input.length := hpassed.length_le
    _ ≤ (Utf8.encodeChars input).length := length_le_encodeChars input
  have hline : (Utf8.encodeChars before).count 10 ≤ (Utf8.encodeChars before).length :=
    List.count_le_length
  rw [Utf8.encodeChars_append, List.length_append] at h
  refine Place.ofWords_words ?_ (show 1 < UInt32.size by decide)
  dsimp only [Place.below, placeAfter]
  omega

/-- In a text of less than four gibibytes the words reported show the place, also where the item
ran on to another line. -/
theorem ofWords_failurePosition {before input passed : List Char} (hpassed : passed <+: input)
    (h : (Utf8.encodeChars (before ++ input)).length + 1 < UInt32.size) :
    Place.ofWords (failurePosition (placeAfter (Utf8.encodeChars before)).words passed) =
      if '\n' ∈ passed then (placeAfter (Utf8.encodeChars before)).below (passed.count '\n')
      else placeAfter (Utf8.encodeChars before) := by
  rw [failurePosition_words]
  split
  · exact ofWords_below hpassed h
  · rw [Utf8.encodeChars_append, List.length_append] at h
    exact ofWords_placeAfter (by omega)

/-- A line further on is another place. -/
theorem Place.below_ne {q : Place} {lines : Nat} (h : 0 < lines) : q.below lines ≠ q := by
  intro heq
  have hline : q.line + lines = q.line := congrArg Place.line heq
  omega

/--
**The place that is reported.**  A text that cannot be read has a first item that cannot be read.
The place reported is the line and the column of the first byte of this item, as a token there
would have carried them, unless a line break was passed inside the item; this happens to
string literals, character literals and block comments alone.  Then the place reported is the start
of the line where reading stopped, which is another one.  Words show these places in a text of less
than four gibibytes.
-/
theorem tokenize_stops {source : String} {err : SyntaxError} (h : tokenize source = .error err) :
    ∃ before c rest passed whole, source.toList = before ++ c :: rest ∧
      StopsAt err before c rest passed whole := by
  obtain ⟨before, c, rest, problem, passed, whole, hsource, hreach, hfail, rfl⟩ :=
    tokensFrom_eq_error_iff.1 h
  have hplace : advance ⟨1, 1⟩ before = (placeAfter (Utf8.encodeChars before)).words :=
    advance_words_placeAfter [] before
  have hpassed : passed <+: c :: rest := by
    have hsplits := readItem_splits c rest
    rwa [hfail] at hsplits
  refine ⟨before, c, rest, passed, whole, hsource, hreach, hfail, rfl, ?_, ?_, fun hsize => ?_,
    fun hbreak => ⟨fun hsize => ?_, begins_of_break_mem hfail hbreak⟩⟩
  · obtain ⟨tokens, htokens⟩ := hreach.lexes ⟨1, 1⟩
    rw [hplace] at htokens
    rw [tokenize, String.toList_ofList]
    exact ⟨tokens, tokensFrom_eq_ok_iff.2 htokens⟩
  · rw [hplace]
    exact failurePosition_words _ passed
  · rw [hplace, ofWords_failurePosition hpassed hsize]
    split
    · next hbreak =>
      exact iff_of_false (Place.below_ne (List.count_pos_iff.2 hbreak)) (not_not_intro hbreak)
    · next hbreak => exact iff_of_true rfl hbreak
  · rw [hplace, ofWords_failurePosition hpassed hsize, if_pos hbreak]

/-- The letter in the comment takes two bytes, so the character literal stands in the ninth
column. -/
theorem tokenize_stops_comment :
    tokenize "/* é */'xy'" = .error ⟨⟨1, 9⟩, "'xy", .unterminatedCharacter⟩ ∧
      ∃ before c rest passed whole, "/* é */'xy'".toList = before ++ c :: rest ∧
        StopsAt ⟨⟨1, 9⟩, "'xy", .unterminatedCharacter⟩ before c rest passed whole := by
  have hcomment : readItem '/' ['*', ' ', 'é', ' ', '*', '/', '\'', 'x', 'y', '\''] =
      .done none ['/', '*', ' ', 'é', ' ', '*', '/'] ['\'', 'x', 'y', '\''] := rfl
  have hliteral : readItem '\'' ['x', 'y', '\''] =
      .failed .unterminatedCharacter ['\'', 'x', 'y'] true := rfl
  have h : tokenize "/* é */'xy'" = .error ⟨⟨1, 9⟩, "'xy", .unterminatedCharacter⟩ :=
    (tokensFrom_of_gap hcomment ⟨1, 1⟩).trans (tokensFrom_of_failed hliteral ⟨1, 9⟩)
  exact ⟨h, tokenize_stops h⟩

/-- The string literal begins in the third column of the first line, which is the place of its
token if the quotes are closed.  If the line ends first, the second line is reported. -/
theorem tokenize_brokenString :
    tokenize "x \"a\n" = .error ⟨⟨2, 1⟩, "\"a\n", .unterminatedString⟩ ∧
      tokenize "x \"a\"" = .ok [⟨.ident "x", ⟨1, 1⟩, ['x']⟩,
        ⟨.string [97], ⟨1, 3⟩, ['"', 'a', '"']⟩, ⟨.eof, ⟨1, 6⟩, []⟩] := by
  have hname : ∀ cs, readItem 'x' (' ' :: cs) = .done (some (.ident "x")) ['x'] (' ' :: cs) :=
    fun _ => rfl
  have hblank : ∀ cs, readItem ' ' ('"' :: cs) = .done none [' '] ('"' :: cs) := fun _ => rfl
  have hquote : ∀ cs, readItem '"' cs = (readString cs).after ['"'] fun b => some (.string b) :=
    fun _ => rfl
  have hbroken : readItem '"' ['a', '\n'] = .failed .unterminatedString ['"', 'a', '\n'] true := by
    simp [hquote, readString, Reading.after]
  have hletter : String.utf8EncodeChar 'a' = [97] := rfl
  have hclosed : readItem '"' ['a', '"'] = .done (some (.string [97])) ['"', 'a', '"'] [] := by
    simp [hquote, readString, Reading.after, hletter]
  constructor
  · refine tokensFrom_of_token_error (hname _) ?_
    exact (tokensFrom_of_gap (hblank _) ⟨1, 2⟩).trans (tokensFrom_of_failed hbroken ⟨1, 3⟩)
  · refine tokensFrom_of_token (hname _) ?_
    refine (tokensFrom_of_gap (hblank _) ⟨1, 2⟩).trans (tokensFrom_of_token hclosed ?_)
    rw [tokensFrom]
    rfl

end RuleScan.Lexer
