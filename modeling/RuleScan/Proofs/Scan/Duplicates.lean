import RuleScan.Proofs.Scan.Tracking

/-!
# Duplicates

A file is evaluated if no entry before it has its content.  So among the entries with one
content the first is evaluated, and the others point to it and are not evaluated; since what is
not evaluated creates nothing, they have no children.

An entry is marked once and for all by the entries before it, and entries are only ever added at
the end.  So the invariant of a scan is that each entry is `Marked` by those before it.

## Main results

* `Report.IsDeduplicated` — what the entries of a report satisfy.
* `marked_of_visit` — a visit adds an entry that is marked by those before it, or none.
* `scanWithin_isDeduplicated` — the reports of all scans are deduplicated.
-/

namespace RuleScan.Scan

/-- No rule was evaluated against the file. -/
structure Entry.IsUnevaluated (e : Entry) : Prop where
  processed : e.processed = false
  trees : e.trees = []
  tags : e.tags = []
  logs : e.logs = []
  warnings : e.warnings = []
  errors : ∀ d ∈ e.errors, d.rule = none

/-- The entries are those of the visits, and are processed if the rules were evaluated; of the
entries with one content the first was evaluated, and the others point to it. -/
structure Report.IsDeduplicated (setup : Setup) (vs : List Visit) (r : Report) : Prop where
  entries : r.entries = vs.flatMap (Visit.entries setup)
  evaluated : ∀ v ∈ vs, ∀ e ∈ v.entries setup,
    (e.processed = true ↔ (v.evaluation? setup).isSome)
  first : ∀ (i : Nat) (e : Entry) (c : Bytes), r.entries[i]? = some e → e.content = some c →
    (∀ f ∈ r.entries.take i, f.content ≠ some c) → e.processed = true ∧ e.duplicateOf = none
  later : ∀ (i j : Nat) (e f : Entry) (c : Bytes), j < i → r.entries[j]? = some f →
    r.entries[i]? = some e → f.content = some c → e.content = some c →
    (∀ g ∈ r.entries.take j, g.content ≠ some c) →
    e.duplicateOf = some f.id ∧ f.id < e.id ∧ f.duplicateOf = none ∧ e.IsUnevaluated ∧
      r.children e.id = []
  faithful : ∀ e ∈ r.entries, ∀ d, e.duplicateOf = some d →
    ∃ f, r.entries[d]? = some f ∧ e.content.isSome ∧ f.content = e.content
  unread : ∀ e ∈ r.entries, e.content = none → e.IsUnevaluated ∧ e.duplicateOf = none

/-- What the entries before it make of an entry. -/
inductive Entry.Marked (before : List Entry) (e : Entry) : Prop
  | unread (hcontent : e.content = none) (hbare : e.IsUnevaluated)
      (hmark : e.duplicateOf = none)
  | first (c : Bytes) (hcontent : e.content = some c) (hnew : ∀ f ∈ before, f.content ≠ some c)
      (hprocessed : e.processed = true) (hmark : e.duplicateOf = none)
  | later (c : Bytes) (f : Entry) (hcontent : e.content = some c)
      (hold : before.find? (fun f => f.content == some c) = some f)
      (hbare : e.IsUnevaluated) (hmark : e.duplicateOf = some f.id)

/-- Every entry is marked by those before it. -/
def Report.AllMarked (r : Report) : Prop :=
  ∀ (i : Nat) (e : Entry), r.entries[i]? = some e → e.Marked (r.entries.take i)

/-! ## Visits -/

theorem Report.AllMarked.append {r : Report} (h : r.AllMarked) {e : Entry}
    (he : e.Marked r.entries) : ({ r with entries := r.entries ++ [e] } : Report).AllMarked := by
  intro i f hf
  dsimp only at hf ⊢
  by_cases hi : i < r.entries.length
  · rw [List.getElem?_append_left hi] at hf
    rw [List.take_append_of_le_length (by omega)]
    exact h i f hf
  · have hlast : i = r.entries.length := by
      have hlt := (List.getElem?_eq_some_iff.1 hf).1
      simp only [List.length_append, List.length_singleton] at hlt
      omega
    subst hlast
    rw [List.getElem?_concat_length, Option.some.injEq] at hf
    subst hf
    rwa [List.take_left']
    rfl

/-- An error of the scan itself is attributed to no rule. -/
theorem Entry.IsUnevaluated.fail {e : Entry} (h : e.IsUnevaluated) (cause : Error) :
    (e.fail none cause).IsUnevaluated := by
  refine ⟨h.processed, h.trees, h.tags, h.logs, h.warnings, fun d hd => ?_⟩
  rcases List.mem_append.1 hd with hd | hd
  · exact h.errors d hd
  · rw [List.mem_singleton.1 hd]
    rfl

section Visiting

variable {setup : Setup} {st st' : State} {item : Item}

theorem isUnevaluated_entryFor (st : State) (item : Item) (size : Nat) :
    (st.entryFor item size).IsUnevaluated :=
  ⟨rfl, rfl, rfl, rfl, rfl, nofun⟩

/-- Without collisions, the entry with the hash of a content is the one with the content. -/
theorem entryWith?_eq_find? (hinj : Function.Injective setup.system.hash) (st : State)
    (c : Bytes) :
    st.entryWith? setup c = st.report.entries.find? fun e => e.content == some c := by
  unfold State.entryWith?
  congr 1
  funext e
  rw [Bool.eq_iff_iff, beq_iff_eq, beq_iff_eq, ← Option.map_some]
  exact (Option.map_injective hinj).eq_iff

theorem marked_duplicate (hinj : Function.Injective setup.system.hash) {size : Nat}
    {content : Bytes} {earlier : Entry} (hold : st.entryWith? setup content = some earlier)
    (e : Entry)
    (he : e = { st.readEntryFor item size content with duplicateOf := some earlier.id } ∨
      ∃ cause, e = Entry.fail
        { st.readEntryFor item size content with duplicateOf := some earlier.id } none cause) :
    e.Marked st.report.entries := by
  rw [entryWith?_eq_find? hinj] at hold
  have hbare : Entry.IsUnevaluated
      { st.readEntryFor item size content with duplicateOf := some earlier.id } :=
    ⟨rfl, rfl, rfl, rfl, rfl, nofun⟩
  rcases he with rfl | ⟨cause, rfl⟩
  · exact .later content earlier rfl hold hbare rfl
  · exact .later content earlier rfl hold (hbare.fail cause) rfl

/-- A visit adds an entry that is marked by those before it, or none. -/
theorem marked_of_visit (hinj : Function.Injective setup.system.hash)
    (h : st.report.AllMarked) (hvisit : visit setup st item = (st', none)) :
    st'.report.AllMarked := by
  have hvisited := visited_of_visit hvisit
  generalize Visit.evaluation? setup ⟨st, item⟩ = sessions at hvisited
  cases hvisited with
  | failed size cause =>
      exact h.append (.unread rfl ((isUnevaluated_entryFor st item size).fail cause) rfl)
  | warned message => exact h
  | expanded names faults =>
      rw [State.report_enqueueAll]
      exact h
  | duplicate size content earlier hlook hread hold =>
      obtain ⟨files, e, heq, he⟩ :=
        commitDuplicate_eq setup.system.references st (st.readEntryFor item size content) earlier
      rw [heq]
      exact h.append (marked_duplicate hinj hold e he)
  | evaluated size content s t events e ms hlook hread hnew hs ht he =>
      rw [State.report_enqueueAll]
      refine h.append (.first content (by rw [he]; rfl) ?_ (by rw [he]; rfl) (by rw [he]; rfl))
      intro f hf
      rw [entryWith?_eq_find? hinj] at hnew
      simpa using List.find?_eq_none.1 hnew f hf

/-- An entry is processed if the visit that added it evaluated the rules. -/
theorem processed_of_visit (hvisit : visit setup st item = (st', none)) :
    ∀ e ∈ Visit.entries setup ⟨st, item⟩,
      (e.processed = true ↔ (Visit.evaluation? setup ⟨st, item⟩).isSome) := by
  intro e he
  rw [Visit.entries, Visit.after_eq hvisit] at he
  have hvisited := visited_of_visit hvisit
  generalize Visit.evaluation? setup ⟨st, item⟩ = sessions at hvisited
  have hnew : ∀ {es}, st'.report.entries = st.report.entries ++ es → e ∈ es := by
    intro es hes
    rwa [hes, List.drop_left] at he
  cases hvisited with
  | failed size cause =>
      rw [List.mem_singleton.1 (hnew rfl)]
      exact iff_of_false nofun nofun
  | warned message => exact absurd (hnew (List.append_nil _).symm) List.not_mem_nil
  | expanded names faults =>
      refine absurd (hnew ?_) List.not_mem_nil
      rw [State.report_enqueueAll, List.append_nil]
      rfl
  | duplicate size content earlier hlook hread hold =>
      obtain ⟨files, f, heq, hf⟩ :=
        commitDuplicate_eq setup.system.references st (st.readEntryFor item size content) earlier
      have hmem : e ∈ [f] := hnew (by rw [heq]; rfl)
      rw [List.mem_singleton.1 hmem]
      rcases hf with rfl | ⟨cause, rfl⟩
      · exact iff_of_false nofun nofun
      · exact iff_of_false nofun nofun
  | evaluated size content s t events f ms hlook hread hnone hs ht hf =>
      have hmem : e ∈ [f] := hnew (by rw [State.report_enqueueAll]; rfl)
      rw [List.mem_singleton.1 hmem, hf]
      exact iff_of_true rfl rfl

theorem Works.processed {last : State} {vs : List Visit} (h : Works setup st vs last) :
    ∀ v ∈ vs, ∀ e ∈ v.entries setup, (e.processed = true ↔ (v.evaluation? setup).isSome) := by
  refine h.preserves (fun past _ => ∀ v ∈ past, ∀ e ∈ v.entries setup,
    (e.processed = true ↔ (v.evaluation? setup).isSome)) ?_ nofun
  intro past st st' item rest hpast _ hvisit v hv
  rcases List.mem_append.1 hv with hv | hv
  · exact hpast v hv
  · rw [List.mem_singleton.1 hv]
    exact processed_of_visit hvisit

theorem Works.allMarked (hinj : Function.Injective setup.system.hash) {last : State}
    {vs : List Visit} (h : Works setup st vs last) (hst : st.report.AllMarked) :
    last.report.AllMarked := by
  refine h.preserves (fun _ st => st.report.AllMarked) ?_ hst
  intro past st st' item rest hmarked hwaiting hvisit
  have hrest : ({ st with waiting := rest } : State).report.AllMarked := hmarked
  exact marked_of_visit hinj hrest hvisit

end Visiting

/-! ## Reports -/

/-- The first entry with a content is the one that is found from any later place. -/
theorem find?_take_of_first {es : List Entry} {i j : Nat} {f : Entry} {c : Bytes} (hij : j < i)
    (hf : es[j]? = some f) (hc : f.content = some c)
    (hfirst : ∀ g ∈ es.take j, g.content ≠ some c) :
    (es.take i).find? (fun f => f.content == some c) = some f := by
  obtain ⟨hj, hget⟩ := List.getElem?_eq_some_iff.1 hf
  have hsplit : es.take i = es.take j ++ f :: (es.drop (j + 1)).take (i - j - 1) := by
    rw [show i = j + (i - j - 1 + 1) by omega, List.take_add, List.drop_eq_getElem_cons hj,
      List.take_succ_cons, hget]
    simp
  have hnone : (es.take j).find? (fun f => f.content == some c) = none :=
    List.find?_eq_none.2 fun g hg => by simpa using hfirst g hg
  rw [hsplit, List.find?_append, hnone, Option.none_or, List.find?_cons_of_pos (by simp [hc])]

/-- An entry with a content that none before it has was evaluated. -/
theorem Report.AllMarked.first {r : Report} (h : r.AllMarked) {i : Nat} {e : Entry} {c : Bytes}
    (he : r.entries[i]? = some e) (hc : e.content = some c)
    (hfirst : ∀ f ∈ r.entries.take i, f.content ≠ some c) :
    e.processed = true ∧ e.duplicateOf = none := by
  cases h i e he with
  | unread hcontent =>
      rw [hcontent] at hc
      cases hc
  | first _ _ _ hprocessed hmark => exact ⟨hprocessed, hmark⟩
  | later c' f hcontent hold =>
      rw [hcontent, Option.some.injEq] at hc
      subst hc
      have hf := List.find?_some hold
      exact absurd (by simpa using hf) (hfirst f (List.mem_of_find?_eq_some hold))

/-- An entry with a content that an entry before it has points to the first of these. -/
theorem Report.AllMarked.later {r : Report} (h : r.AllMarked) {i j : Nat} {e f : Entry} {c : Bytes}
    (hij : j < i) (hf : r.entries[j]? = some f) (he : r.entries[i]? = some e)
    (hfc : f.content = some c) (hec : e.content = some c)
    (hfirst : ∀ g ∈ r.entries.take j, g.content ≠ some c) :
    e.duplicateOf = some f.id ∧ e.IsUnevaluated := by
  have hfind := find?_take_of_first hij hf hfc hfirst
  cases h i e he with
  | unread hcontent =>
      rw [hcontent] at hec
      cases hec
  | first c' hcontent hnew =>
      rw [hcontent, Option.some.injEq] at hec
      subst hec
      exact absurd hfc (hnew f (List.mem_of_find?_eq_some hfind))
  | later c' g hcontent hold hbare hmark =>
      rw [hcontent, Option.some.injEq] at hec
      subst hec
      rw [hfind, Option.some.injEq] at hold
      subst hold
      exact ⟨hmark, hbare⟩

/-- What was not evaluated has no children, because a parent was evaluated. -/
theorem State.Sound.children_eq_nil {maxDepth : Nat} {st : State} (hs : st.Sound maxDepth)
    {i : Nat} {e : Entry} (he : st.report.entries[i]? = some e) (hbare : e.processed = false) :
    st.report.children e.id = [] := by
  refine List.eq_nil_iff_forall_not_mem.2 fun k hk => ?_
  obtain ⟨hmem, hparent⟩ := Report.mem_children.1 hk
  have hplace := (hs.placed k hmem).1
  rw [hparent] at hplace
  obtain ⟨g, hg, hprocessed, -⟩ := hplace
  rw [hs.id_eq he, he, Option.some.injEq] at hg
  rw [← hg, hbare] at hprocessed
  cases hprocessed

theorem State.Sound.isDeduplicated {maxDepth : Nat} {setup : Setup} {vs : List Visit} {st : State}
    (hs : st.Sound maxDepth) (hm : st.report.AllMarked)
    (hentries : st.report.entries = vs.flatMap (Visit.entries setup))
    (hprocessed : ∀ v ∈ vs, ∀ e ∈ v.entries setup,
      (e.processed = true ↔ (v.evaluation? setup).isSome)) :
    st.report.IsDeduplicated setup vs where
  entries := hentries
  evaluated := hprocessed
  first i e c he hc hfirst := hm.first he hc hfirst
  later i j e f c hij hf he hfc hec hfirst := by
    obtain ⟨hmark, hbare⟩ := hm.later hij hf he hfc hec hfirst
    have hid : f.id < e.id := by
      rwa [hs.id_eq hf, hs.id_eq he]
    exact ⟨hmark, hid, (hm.first hf hfc hfirst).2, hbare, hs.children_eq_nil he hbare.processed⟩
  faithful e he d hd := by
    obtain ⟨i, hi⟩ := List.getElem?_of_mem he
    cases hm i e hi with
    | unread _ _ hmark =>
        rw [hmark] at hd
        cases hd
    | first _ _ _ _ hmark =>
        rw [hmark] at hd
        cases hd
    | later c f hcontent hold _ hmark =>
        rw [hmark, Option.some.injEq] at hd
        have hfc : f.content = some c := by simpa using List.find?_some hold
        obtain ⟨j, hj⟩ := List.getElem?_of_mem
          (List.mem_of_mem_take (List.mem_of_find?_eq_some hold))
        rw [hs.id_eq hj] at hd
        subst hd
        exact ⟨f, hj, by simp [hcontent], by rw [hfc, hcontent]⟩
  unread e he hnone := by
    obtain ⟨i, hi⟩ := List.getElem?_of_mem he
    cases hm i e hi with
    | unread _ hbare hmark => exact ⟨hbare, hmark⟩
    | first c hcontent =>
        rw [hcontent] at hnone
        cases hnone
    | later c f hcontent =>
        rw [hcontent] at hnone
        cases hnone

/--
**Duplicates are found exactly.**  Whatever the file system, the rules, their operators, the
inputs and the configuration, if the hash has no collisions: the entries of a report are those
of the visits, and the processed ones are those of the visits that evaluated the rules; among the
entries whose content was read, the first of each content was evaluated and is no duplicate; every
later one with that content points to the first, was not evaluated, has nothing that rules could
have left, and has no children; and no entry points to one with a different content.
-/
theorem scanWithin_isDeduplicated (budget : Nat) (setup : Setup)
    (hinj : Function.Injective setup.system.hash) (files : FileSystem) (inputs : List Path)
    {r : Report} (h : (scanWithin budget setup files inputs).outcome = .finished r) :
    r.IsDeduplicated setup (visitsWithin budget setup files inputs) := by
  obtain ⟨output, files', last, -, hworks, hdone, hreport⟩ := scanWithin_finished h
  have hsound := hworks.sound (sound_start _ files' output inputs)
  have hnone : ((State.start files' output).enqueueAll none 0 inputs).report.AllMarked := by
    rw [State.report_enqueueAll]
    exact nofun
  have hcomplete := hworks.isComplete (.start setup files' output inputs) hdone
  rw [← hreport]
  exact hsound.isDeduplicated (hworks.allMarked hinj hnone) hcomplete.entries hworks.processed

/-- A scan of two inputs with the same content, and of what is created from the first. -/
theorem scanWithin_isDeduplicated_writing :
    ∃ r, (scanWithin 4 writingSetup
        ⟨Table.ofList [(["a"], .file [7]), (["b"], .file [7])], []⟩ ["a", "b"]).outcome =
        .finished r ∧
      r.entries.map (fun e => (e.path, e.content.isSome, e.processed, e.duplicateOf)) =
        [("a", true, true, none), ("out/x", false, false, none),
          ("b", true, false, some 0)] ∧
      r.IsDeduplicated writingSetup (visitsWithin 4 writingSetup
        ⟨Table.ofList [(["a"], .file [7]), (["b"], .file [7])], []⟩ ["a", "b"]) := by
  have hshape : ((scanWithin 4 writingSetup
      ⟨Table.ofList [(["a"], .file [7]), (["b"], .file [7])], []⟩ ["a", "b"]).outcome.report?.map
        fun r => r.entries.map fun e => (e.path, e.content.isSome, e.processed, e.duplicateOf)) =
      some [("a", true, true, none), ("out/x", false, false, none),
        ("b", true, false, some 0)] := by
    decide +kernel
  obtain ⟨r, hout, hr⟩ := Outcome.finished_of_map hshape
  exact ⟨r, hout, hr,
    scanWithin_isDeduplicated 4 writingSetup Function.injective_id _ ["a", "b"] hout⟩

end RuleScan.Scan
