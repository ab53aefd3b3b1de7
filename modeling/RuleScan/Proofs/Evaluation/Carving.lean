import RuleScan.Proofs.Evaluation.Ledger
import RuleScan.Proofs.Evaluation.Positions
import RuleScan.Proofs.Files.Standing

/-!
# Carving

Carving looks at all of its positions, and then it goes through the ranges between them.  For every
range a file is created, which is kept if the source delivers the range and given up if not.

In an output directory that is there a file can always be created and written, so what becomes of
the files depends on the source alone.  It is followed through the attempts that are made: one for
each range that is delivered, and one for the first range that is refused.  What attempts mean for
the files and for the list of created files is known, and nothing else has to be said of carving.

## Main results

* `Session.Equipped.attempts` — an output directory stays there.
* `carveRanges_of_delivers`, `carveRanges_of_refuses` — the files of ranges, one by one.
* `Session.Equipped.gaveUp` — of a file that was given up nothing is left.
* `Environment.call_carve_exact` — what comes of carving.
-/

namespace RuleScan

open Builtin FileSystem

/-! ## Sessions with an output directory -/

/-- The output directory of the session is there. -/
structure Session.Equipped (s : Session) (out : OutputDir) : Prop where
  stocked : s.Stocked
  output : s.output = some out
  opens : s.files.Opens out.root

variable {s t : Session} {out : OutputDir} {A : List Attempt}
  {d : Bytes} {numbers : List Number}

/-- A session that starts with an output directory just opened. -/
theorem Session.equipped_start {fs files : FileSystem} {root : Path} (htree : fs.IsTree)
    (hopen : OutputDir.open? fs root = (.ok out, files)) (source : Source) (globals : Register) :
    (Session.start files source globals (some out)).Equipped out := by
  obtain ⟨htree', hopens⟩ := OutputDir.opens_open? htree hopen
  exact ⟨⟨htree', nofun⟩, rfl, hopens⟩

/-- An output directory stays there whatever files are created in it. -/
theorem Session.Equipped.attempts (hs : s.Equipped out) (h : Attempts s A t) :
    t.Equipped { out with taken := (A.map Attempt.path).reverse ++ out.taken } where
  stocked := (h.gained hs.stocked).stocked
  output := (h.handsOut hs.stocked hs.output).output
  opens := hs.opens.guided (h.gained hs.stocked).keeps.guides

/-- A file can be created, and the session still looks at the same source. -/
theorem Session.Equipped.exists_create (hs : s.Equipped out) (name : String) :
    ∃ p t, Step.create name s = .ok p t ∧ t.source = s.source := by
  obtain ⟨p, files, hcreate⟩ := out.exists_create hs.stocked.tree hs.opens name
  rw [Step.create_eq hs.output, hcreate]
  exact ⟨_, _, rfl, rfl⟩

/-- A file that was just created can be written. -/
theorem Session.Stocked.exists_writeFile (hs : s.Stocked) {name : String} {p : Path}
    (hcreate : Step.create name s = .ok p t) (bytes : Bytes) :
    ∃ u, Step.writeFile p bytes t = .ok () u ∧ u.source = t.source := by
  obtain ⟨-, l, -, -, -, hheld⟩ := Step.create_place hs hcreate
  rw [Step.writeFile, writeFile_of_reaches (hheld.reaches.follow_last hheld.node) hheld.node]
  exact ⟨_, rfl, rfl⟩

/-! ## Range by range -/

namespace Builtin

variable {start stop : Nat} {cause : Error}

/-- A range whose bytes are there gets a file that holds them. -/
theorem carveRanges_cons_of_ok (name : String) (hs : s.Equipped out) {bytes : Bytes}
    (hread : ∀ u : Session, u.source = s.source → readRange start stop u = .ok bytes u) :
    ∃ p t, Attempts s [⟨p, .range start stop, some bytes⟩] t ∧ t.source = s.source ∧
      ∀ rest, carveRanges name ((start, stop) :: rest) s = carveRanges name rest t := by
  obtain ⟨p, s', hcreate, hsource⟩ := hs.exists_create name
  obtain ⟨t, hwrite, hsource'⟩ := hs.stocked.exists_writeFile hcreate bytes
  have hdeliver : (Content.range start stop).deliver s' = .ok bytes s' := hread s' hsource
  have hfill : (Content.range start stop).fill p s' = .ok () t :=
    (Step.bind_of_ok hdeliver _).trans hwrite
  refine ⟨p, t, .kept hcreate hdeliver hwrite, hsource'.trans hsource, fun rest => ?_⟩
  rw [carveRanges, Step.bind_of_ok hcreate]
  exact Step.bind_of_ok (orDiscard_of_ok hfill) _

/-- A range whose bytes cannot be read ends the carving, and its file is given up. -/
theorem carveRanges_cons_of_error (name : String) (hs : s.Equipped out)
    (hread : ∀ u : Session, u.source = s.source → readRange start stop u = .error cause u)
    (rest : List (Nat × Nat)) :
    ∃ p t, Attempts s [⟨p, .range start stop, none⟩] t ∧
      carveRanges name ((start, stop) :: rest) s = .error cause t := by
  obtain ⟨p, s', hcreate, hsource⟩ := hs.exists_create name
  have hfill : (Content.range start stop).fill p s' = .error cause s' :=
    Step.bind_of_error (hread s' hsource) _
  refine ⟨p, _, .failed hcreate hfill rfl, ?_⟩
  rw [carveRanges, Step.bind_of_ok hcreate]
  exact Step.bind_of_error (orDiscard_of_error hfill) _

/-- The contents of files that were kept. -/
def keptBytes (A : List Attempt) : List Bytes := (A.filterMap Attempt.kept?).map Prod.snd

/-- The induction is on the ranges; the session in between has an output directory again. -/
theorem carveRanges_of_delivers (name : String) (hs : s.Equipped out)
    (hserves : s.source.Serves d) (ranges : List (Nat × Nat))
    (hranges : ∀ q ∈ ranges, s.source.IsDelivered d q) :
    ∃ (A : List Attempt) (t : Session), Attempts s A t ∧ t.source = s.source ∧
      keptBytes A = ranges.map (fun q => d.extract q.1 q.2) ∧
      ∀ rest, carveRanges name (ranges ++ rest) s = carveRanges name rest t := by
  induction ranges generalizing s out with
  | nil => exact ⟨[], s, .quiet rfl rfl rfl, rfl, rfl, fun _ => rfl⟩
  | cons q ranges ih =>
    obtain ⟨hfirst, hothers⟩ := List.forall_mem_cons.1 hranges
    have hread : ∀ u : Session, u.source = s.source →
        readRange q.1 q.2 u = .ok (d.extract q.1 q.2) u := fun u hu =>
      readRange_of_delivers (hu ▸ hserves) hfirst.ordered hfirst.within (hu ▸ hfirst.delivers)
    obtain ⟨p, t, hattempt, hsource, hrun⟩ := carveRanges_cons_of_ok name hs hread
    obtain ⟨A, u, hattempts, hsource', hcontents, hrest⟩ :=
      ih (hs.attempts hattempt) (hsource ▸ hserves) (hsource ▸ hothers)
    refine ⟨_, u, hattempt.append hattempts, hsource'.trans hsource, ?_, fun rest => ?_⟩
    · rw [List.map_cons, ← hcontents]
      rfl
    · rw [List.cons_append, hrun, hrest]

/-- The ranges before the one that is refused have their files. -/
theorem carveRanges_of_refuses (name : String) (hs : s.Equipped out)
    (hserves : s.source.Serves d) (ranges : List (Nat × Nat))
    (hranges : ∀ q ∈ ranges, s.source.IsDelivered d q) (h : s.source.Refuses start stop cause)
    (rest : List (Nat × Nat)) :
    ∃ (A : List Attempt) (a : Attempt) (t : Session), Attempts s (A ++ [a]) t ∧ a.bytes = none ∧
      keptBytes A = ranges.map (fun q => d.extract q.1 q.2) ∧
      carveRanges name (ranges ++ (start, stop) :: rest) s = .error cause t := by
  obtain ⟨A, t, hattempts, hsource, hcontents, hrun⟩ :=
    carveRanges_of_delivers name hs hserves ranges hranges
  have hread : ∀ u : Session, u.source = t.source → readRange start stop u = .error cause u :=
    fun u hu => readRange_of_refuses ((hu.trans hsource) ▸ h)
  obtain ⟨p, u, hattempt, hend⟩ :=
    carveRanges_cons_of_error name (hs.attempts hattempts) hread rest
  exact ⟨A, _, u, hattempts.append hattempt, rfl, hcontents, (hrun _).trans hend⟩

end Builtin

/-! ## The files -/

/-- Between the sessions these files were added to the output directory, one after the other, and
nothing else happened to the files. -/
structure Session.Carves (s : Session) (W : List (Path × Bytes)) (t : Session) : Prop where
  gained : s.Gained W t
  adds : s.Adds W t

/-- A path that was handed out last, where there is nothing and which is not listed. -/
structure Session.GaveUp (t : Session) (p : Path) : Prop where
  last : ∃ out, t.output = some out ∧ out.taken.head? = some p
  gone : t.files.exists? p = false
  unlisted : ∀ q ∈ t.effects.created, q.components ≠ p.components

theorem Session.Equipped.carves (hs : s.Equipped out) (h : Attempts s A t) :
    s.Carves (A.filterMap Attempt.kept?) t :=
  ⟨h.gained hs.stocked, h.deposits.adds hs.stocked⟩

/-- What exists, exists under every plain spelling. -/
theorem exists?_respell {fs : FileSystem} {p q : Path} (htree : fs.IsTree) (hp : p.IsPlain)
    (hq : q.IsPlain) (hsame : p.components = q.components) (h : fs.exists? p = true) :
    fs.exists? q = true := by
  obtain ⟨l, hreach, hsome⟩ := (exists?_iff htree).1 h
  exact (exists?_iff htree).2 ⟨l, hreach.respell hp hq hsame, hsome⟩

theorem Session.Equipped.gaveUp (hs : s.Equipped out) {a : Attempt}
    (h : Attempts s (A ++ [a]) t) (hnone : a.bytes = none) :
    s.Carves (A.filterMap Attempt.kept?) t ∧ t.GaveUp a.path := by
  have hhands := h.handsOut hs.stocked hs.output
  have hcarves := hs.carves h
  have hkept : (A ++ [a]).filterMap Attempt.kept? = A.filterMap Attempt.kept? := by
    simp [Attempt.kept?, hnone]
  have hmem : a ∈ A ++ [a] := List.mem_append_right _ (List.mem_singleton_self a)
  have hapart : ∀ q ∈ (A.filterMap Attempt.kept?).map Prod.fst, q.components ≠ a.path.components :=
    fun q hq => hhands.ne_of_abandoned hmem hnone (hkept.symm ▸ hq)
  rw [hkept] at hcarves
  obtain ⟨name, hname, hpath⟩ := hhands.named a hmem
  have hfree := (OutputDir.isFree_iff.1 (hhands.free a hmem)).2
  refine ⟨hcarves, ⟨_, hhands.output, by simp⟩, ?_, ?_⟩
  · have hentry := hcarves.gained.exists?_iff_mem hcarves.adds hs.stocked hs.output hname
    rw [← hpath] at hentry
    exact Bool.eq_false_iff.2 fun hex => hapart a.path (hentry.2 ⟨hex, hfree⟩) rfl
  · intro q hq hsame
    rw [hcarves.gained.created, List.mem_append] at hq
    cases hq with
    | inl hbefore =>
      -- what was created before was there, and the path was free
      obtain ⟨hplain, hex⟩ := hs.stocked.created q hbefore
      have hplain' : a.path.IsPlain := hpath ▸ Path.isPlain_join out.root hname
      rw [exists?_respell hs.stocked.tree hplain hplain' hsame hex] at hfree
      cases hfree
    | inr hnew => exact hapart q hnew hsame

/-! ## What comes of carving -/

/--
What comes of carving a file at numbers in a session.  Either nothing happens at all, or all ranges
between the numbers become files, or those before the first one that is refused
(`Source.delivered_or_refused`).
-/
structure CarvesExactly (s : Session) (d : Bytes) (numbers : List Number)
    (r : EStateM.Result Error Session Value) : Prop where
  /-- Numbers that delimit no ranges of the file are rejected. -/
  rejected : ¬ Carvable d numbers → ∃ fault, r = .error (.outOfRange fault) s
  /-- Every range that lies between two numbers becomes a file, and together they are one range. -/
  copied : Carvable d numbers →
    (∀ q ∈ rangesBetween (offsets numbers), s.source.Delivers q.1 q.2) →
    ∃ n W t, r = .ok (.number n) t ∧ n.toInt + 1 = numbers.length ∧ s.Carves W t ∧
      W.map Prod.snd = (rangesBetween (offsets numbers)).map (fun q => d.extract q.1 q.2) ∧
      ∀ first ∈ (offsets numbers).head?, ∀ last ∈ (offsets numbers).getLast?,
        (W.map Prod.snd).flatten = d.extract first last
  /-- A range that is refused ends the carving with the error of the source. -/
  given_up : Carvable d numbers → ∀ before q rest cause,
    rangesBetween (offsets numbers) = before ++ q :: rest →
    (∀ q' ∈ before, s.source.Delivers q'.1 q'.2) → s.source.Refuses q.1 q.2 cause →
    ∃ W p t, r = .error cause t ∧ s.Carves W t ∧
      W.map Prod.snd = before.map (fun q' => d.extract q'.1 q'.2) ∧ t.GaveUp p

namespace Builtin

variable {pre : Bytes} {m : Register} {host : Host}

theorem carve_run_of_neg (h : ∃ n ∈ numbers, n.toInt < 0) :
    ∃ fault, carve.run host (.bytes pre :: numbers.map .number) m s =
      .error (.outOfRange fault) s := by
  obtain ⟨fault, hfault⟩ := mapM_asOffset_of_neg h
  refine ⟨fault, ?_⟩
  show (Step.ofValue ((numbers.map Value.number).mapM Value.asOffset) >>= _) s = _
  rw [hfault]
  rfl

/-- What is left to do once the numbers are known to be positions. -/
theorem carve_run_of_nonneg (h : ∀ n ∈ numbers, 0 ≤ n.toInt) :
    carve.run host (.bytes pre :: numbers.map .number) m s =
      (match badRange? s.source.size (rangesBetween (offsets numbers)) with
      | some (a, b) => throw (.outOfRange (.badPiece a b s.source.size))
      | none => do
        carveRanges (Utf8.lossy pre) (rangesBetween (offsets numbers))
        pure (.number (.ofNat ((offsets numbers).length - 1) .w64)) : Step Value) s := by
  rw [← adjacent_eq_rangesBetween]
  exact carve_run_eq rfl (mapM_asOffset_of_nonneg h) host m s

/-- Numbers that do not delimit ranges of a file are noticed before anything is done. -/
theorem carve_run_of_not_carvable (hserves : s.source.Serves d) (hcount : 2 ≤ numbers.length)
    (h : ¬ Carvable d numbers) :
    ∃ fault, carve.run host (.bytes pre :: numbers.map .number) m s =
      .error (.outOfRange fault) s := by
  by_cases hneg : ∃ n ∈ numbers, n.toInt < 0
  · exact carve_run_of_neg hneg
  · have hnonneg : ∀ n ∈ numbers, 0 ≤ n.toInt := fun n hn =>
      Int.not_lt.1 fun hlt => hneg ⟨n, hn, hlt⟩
    rw [carve_run_of_nonneg hnonneg, hserves.size]
    cases hbad : badRange? d.length (rangesBetween (offsets numbers)) with
    | none => exact absurd ((badRange?_offsets_eq_none_iff hcount hnonneg).1 hbad) h
    | some range => exact ⟨_, rfl⟩

theorem carve_run_of_carvable (hserves : s.source.Serves d) (hcount : 2 ≤ numbers.length)
    (h : Carvable d numbers) :
    carve.run host (.bytes pre :: numbers.map .number) m s = (do
      carveRanges (Utf8.lossy pre) (rangesBetween (offsets numbers))
      pure (.number (.ofNat ((offsets numbers).length - 1) .w64)) : Step Value) s := by
  rw [carve_run_of_nonneg h.nonneg, hserves.size,
    (badRange?_offsets_eq_none_iff hcount h.nonneg).2 h]

theorem carvesExactly_run (hs : s.Equipped out) (hserves : s.source.Serves d)
    (hcount : 2 ≤ numbers.length) :
    CarvesExactly s d numbers (carve.run host (.bytes pre :: numbers.map .number) m s) where
  rejected h := carve_run_of_not_carvable hserves hcount h
  copied h hdelivers := by
    have hranges : ∀ q ∈ rangesBetween (offsets numbers), s.source.IsDelivered d q :=
      fun q hq => h.isDelivered hcount hq (hdelivers q hq)
    obtain ⟨A, t, hattempts, -, hcontents, hrun⟩ :=
      carveRanges_of_delivers (Utf8.lossy pre) hs hserves _ hranges
    have hend : carveRanges (Utf8.lossy pre) (rangesBetween (offsets numbers)) s = .ok () t := by
      have hnil := hrun []
      rw [List.append_nil] at hnil
      exact hnil
    rw [carve_run_of_carvable hserves hcount h, Step.bind_of_ok hend]
    refine ⟨_, _, t, rfl, h.toInt_count hcount, hs.carves hattempts, hcontents, ?_⟩
    rw [← keptBytes, hcontents]
    exact flatten_rangesBetween d h.sorted
  given_up h before q rest cause hsplit hbefore hrefuses := by
    have hranges : ∀ q' ∈ before, s.source.IsDelivered d q' := by
      intro q' hq'
      apply h.isDelivered hcount _ (hbefore q' hq')
      rw [hsplit]
      exact List.mem_append_left _ hq'
    obtain ⟨A, a, t, hattempts, hnone, hcontents, hend⟩ :=
      carveRanges_of_refuses (Utf8.lossy pre) hs hserves before hranges hrefuses rest
    obtain ⟨hcarves, hgone⟩ := hs.gaveUp hattempts hnone
    rw [carve_run_of_carvable hserves hcount h, hsplit]
    exact ⟨_, a.path, t, Step.bind_of_error hend _, hcarves, hcontents, hgone⟩

end Builtin

/-! ## Calls -/

namespace Environment

theorem call_carve_eq (rules : RuleSet) (resolve : String → Step Value) (pre : Bytes)
    (m : Register) (s : Session) (hcount : 2 ≤ numbers.length) :
    call ⟨rules, .builtins⟩ resolve "Carve" (.bytes pre :: numbers.map .number) m s =
      carve.run ⟨rules, resolve⟩ (.bytes pre :: numbers.map .number) m s := by
  have hget : Registry.builtins.get? "Carve" = some carve := rfl
  have hcheck :
      Step.ofExcept (carve.signature.check "Carve" (.bytes pre :: numbers.map .number)) s =
        .ok () s := by
    rw [check_carve pre hcount]
    rfl
  unfold call
  dsimp only
  rw [hget]
  exact Step.bind_of_ok hcheck _

/--
**Carving copies ranges exactly or cleans up.**  Let the session have an output directory, and let
the source promise all of a file and deliver nothing else.  `Carve` is called with a text and at
least two numbers.  If the numbers do not increase within the file, it fails and changes nothing.
If they do and the source delivers every range between them, it creates one file for each, in
order and with exactly its bytes, and returns how many there are.  If the source refuses a range,
it fails with the error of the source; the files of the ranges before are there and listed, and
that of the range is neither there nor listed.
-/
theorem call_carve_exact (rules : RuleSet) (resolve : String → Step Value) (pre : Bytes)
    (numbers : List Number) (m : Register) (s : Session) (out : OutputDir) (d : Bytes)
    (hcount : 2 ≤ numbers.length) (hs : s.Equipped out) (hserves : s.source.Serves d) :
    CarvesExactly s d numbers
      (call ⟨rules, .builtins⟩ resolve "Carve" (.bytes pre :: numbers.map .number) m s) := by
  rw [call_carve_eq rules resolve pre m s hcount]
  exact carvesExactly_run hs hserves hcount

/-- Of the eight bytes that the file of this session should have, four can be read. -/
def halfRead : Session :=
  .start ⟨Table.ofList [(["out"], .directory)], []⟩ (.claiming "half" 8 [97, 98, 99, 100]) ∅
    (some ⟨"out", []⟩)

/-- The first of two ranges is kept, and the second one is given up. -/
theorem call_carve_exact_halfRead :
    let d : Bytes := [97, 98, 99, 100, 0, 0, 0, 0]
    let numbers : List Number := [.literal 0, .literal 2, .literal 8]
    let r := call ⟨∅, .builtins⟩ (fun name => pure (.text name)) "Carve"
      (.bytes [112] :: numbers.map .number) ∅ halfRead
    2 ≤ numbers.length ∧ halfRead.Equipped ⟨"out", []⟩ ∧ halfRead.source.Serves d ∧
      CarvesExactly halfRead d numbers r ∧
      ∃ W p t, r = .error (.fileRead "half" .endedEarly) t ∧ halfRead.Carves W t ∧
        W.map Prod.snd = [[97, 98]] ∧ t.GaveUp p := by
  intro d numbers r
  have hopen : OutputDir.open? halfRead.files "out" = (.ok ⟨"out", []⟩, halfRead.files) := rfl
  have hs : halfRead.Equipped ⟨"out", []⟩ := Session.equipped_start (by decide) hopen _ _
  have hbegins : [97, 98, 99, 100] <+: d := ⟨[0, 0, 0, 0], rfl⟩
  have hserves : halfRead.source.Serves d := Source.serves_claiming "half" hbegins
  have hexact := call_carve_exact ∅ (fun name => pure (.text name)) [112] numbers ∅ halfRead
    ⟨"out", []⟩ d (by decide) hs hserves
  have hfirst : halfRead.source.Delivers 0 2 := by
    intro k hk
    obtain rfl : k = 0 := by
      unfold chunkSize at hk
      omega
    exact ⟨_, rfl⟩
  have hsecond : halfRead.source.Refuses 2 8 (.fileRead "half" .endedEarly) :=
    ⟨0, by decide, rfl, nofun⟩
  exact ⟨by decide, hs, hserves, hexact, hexact.given_up ⟨by decide, by decide⟩ [(0, 2)] (2, 8) []
    _ rfl (by simpa using hfirst) hsecond⟩

end Environment

end RuleScan
