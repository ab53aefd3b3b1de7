import Mathlib.Logic.Relation
import RuleScan.Proofs.Scan.Visits

/-!
# The order of the entries is a preorder

What comes out of a file is scanned before anything else that waits.  So the entries are in
depth-first order: between a file and what descends from it there is only what descends from it.

The list of a scan is a stack.  Read from the front, the parents of the paths that wait lead
upwards: each is the parent of the one before or a file that this parent descends from, and the
first is the latest entry or a file that the latest entry descends from (`State.IsNested`).  So
whichever path is taken next, its parent is on the way from the latest entry to an input, and a
forest whose entries were added in this way is in preorder.  This holds whatever the operators
do.

## Main results

* `Report.IsPreorder` — the entries between two of which one descends from the other.
* `IsNested.visit` — every way of dealing with a path keeps the stack in order.
* `IsNested.isPreorder` — entries that were added from such a stack are in preorder.
-/

namespace RuleScan.Scan

/-- The first file was created while the second was evaluated. -/
def Report.IsChildOf (r : Report) (a b : Nat) : Prop :=
  ∃ e, r.entries[a]? = some e ∧ e.parent = some b

/-- The first file came out of the second, in one step or in several. -/
def Report.Descends (r : Report) (a b : Nat) : Prop := Relation.TransGen r.IsChildOf a b

/-- The first file is the second or came out of it. -/
def Report.IsWithin (r : Report) (a b : Nat) : Prop := Relation.ReflTransGen r.IsChildOf a b

/-- Between a file and what descends from it there is only what descends from it. -/
def Report.IsPreorder (r : Report) : Prop :=
  ∀ i j k : Nat, i < j → j < k → r.Descends k i → r.Descends j i

section Relations

variable {r : Report} {a b c : Nat}

theorem Report.isWithin_iff : r.IsWithin a b ↔ a = b ∨ r.Descends a b := by
  rw [Report.IsWithin, Relation.reflTransGen_iff_eq_or_transGen, eq_comm]
  exact Iff.rfl

theorem Report.IsWithin.refl (r : Report) (a : Nat) : r.IsWithin a a := Relation.ReflTransGen.refl

theorem Report.IsWithin.trans (h : r.IsWithin a b) (h' : r.IsWithin b c) : r.IsWithin a c :=
  Relation.ReflTransGen.trans h h'

theorem Report.IsChildOf.isWithin (h : r.IsChildOf a b) : r.IsWithin a b :=
  .single h

theorem Report.IsChildOf.trans (h : r.IsChildOf a b) (h' : r.IsWithin b c) : r.IsWithin a c :=
  .head h h'

/-- What descends from a file has a parent that is the file or descends from it. -/
theorem Report.Descends.head (h : r.Descends a c) : ∃ b, r.IsChildOf a b ∧ r.IsWithin b c := by
  obtain ⟨b, hb, hc⟩ := Relation.TransGen.head'_iff.1 h
  exact ⟨b, hb, hc⟩

/-- Further entries leave the relations as they are. -/
theorem Report.IsChildOf.append (h : r.IsChildOf a b) (e : Entry) :
    ({ r with entries := r.entries ++ [e] } : Report).IsChildOf a b := by
  obtain ⟨f, hf, hparent⟩ := h
  have ha : a < r.entries.length := (List.getElem?_eq_some_iff.1 hf).1
  exact ⟨f, by rw [List.getElem?_append_left ha, hf], hparent⟩

theorem Report.IsWithin.append (h : r.IsWithin a b) (e : Entry) :
    ({ r with entries := r.entries ++ [e] } : Report).IsWithin a b :=
  Relation.ReflTransGen.mono (fun _ _ (hchild : r.IsChildOf _ _) => hchild.append e) a b h

end Relations

/-! ## Stacks -/

/-- From the front of the list, the parents of the paths that wait lead upwards from the latest
entry; and they led upwards whenever an entry was added. -/
structure State.IsNested (st : State) : Prop where
  entries : ∀ k p, st.report.IsChildOf (k + 1) p → st.report.IsWithin k p
  front : ∀ item ∈ st.waiting, ∀ p, item.parent = some p → st.report.IsWithin (st.nextId - 1) p
  stacked : st.waiting.Pairwise fun a b => ∀ q, b.parent = some q →
    ∃ p, a.parent = some p ∧ st.report.IsWithin p q

namespace State.IsNested

variable {setup : Setup} {st st' : State} {item : Item} {rest : List Item}

/-- Paths of one origin are put on top, whose parent leads up to those of all others. -/
theorem push {r : Report} {parent : Option FileId} {last : Nat}
    (hfront : ∀ b ∈ rest, ∀ q, b.parent = some q → r.IsWithin last q)
    (hstacked : rest.Pairwise fun a b => ∀ q, b.parent = some q →
      ∃ p, a.parent = some p ∧ r.IsWithin p q)
    (hparent : ∀ p, parent = some p → r.IsWithin last p)
    (habove : ∀ b ∈ rest, ∀ q, b.parent = some q → ∃ p, parent = some p ∧ r.IsWithin p q)
    (ps : List Path) (depth : Nat) :
    (∀ b ∈ ps.map (fun p => (⟨p, parent, depth⟩ : Item)) ++ rest, ∀ q, b.parent = some q →
      r.IsWithin last q) ∧
    (ps.map (fun p => (⟨p, parent, depth⟩ : Item)) ++ rest).Pairwise fun a b =>
      ∀ q, b.parent = some q → ∃ p, a.parent = some p ∧ r.IsWithin p q := by
  have hnew : ∀ a ∈ ps.map (fun p => (⟨p, parent, depth⟩ : Item)), a.parent = parent := by
    intro a ha
    obtain ⟨p, -, rfl⟩ := List.mem_map.1 ha
    rfl
  refine ⟨?_, List.pairwise_append.2 ⟨?_, hstacked, ?_⟩⟩
  · intro b hb q hq
    rcases List.mem_append.1 hb with hb | hb
    · exact hparent q (hnew b hb ▸ hq)
    · exact hfront b hb q hq
  · refine List.pairwise_of_forall_mem_list fun a ha b hb q hq => ?_
    rw [hnew b hb] at hq
    exact ⟨q, by rw [hnew a ha, hq], .refl r q⟩
  · intro a ha b hb q hq
    rw [hnew a ha]
    exact habove b hb q hq

/-- A new entry has its parent on the way up from the entry before it, as all others do. -/
theorem entries_concat (h : st.IsNested) (hw : st.waiting = item :: rest) {e : Entry}
    (he : e.parent = item.parent) {r : Report}
    (hr : r = { st.report with entries := st.report.entries ++ [e] }) (k p : Nat)
    (hchild : r.IsChildOf (k + 1) p) : r.IsWithin k p := by
  subst hr
  obtain ⟨f, hf, hparent⟩ := hchild
  by_cases hk : k + 1 < st.report.entries.length
  · rw [List.getElem?_append_left hk] at hf
    exact (h.entries k p ⟨f, hf, hparent⟩).append e
  · have hlt := (List.getElem?_eq_some_iff.1 hf).1
    simp only [List.length_append, List.length_singleton] at hlt
    have hkeq : k + 1 = st.report.entries.length := by omega
    rw [hkeq, List.getElem?_concat_length, Option.some.injEq] at hf
    subst hf
    have hfront := h.front item (by simp [hw]) p (he ▸ hparent)
    rw [State.nextId, ← hkeq, Nat.add_sub_cancel] at hfront
    exact hfront.append e

/-- A file is entered, and what was created from it waits on top of the others. -/
theorem enter (h : st.IsNested) (hw : st.waiting = item :: rest) {files : FileSystem}
    {output : Option OutputDir} {events : List Event} {e : Entry}
    (he : e.IsFor { st with waiting := rest } item) (paths : List Path) :
    ((({ st with waiting := rest, files, output, events } : State).commit e).enqueueAll (some e.id)
      (e.depth + 1) paths).IsNested := by
  let entered := ({ st with waiting := rest, files, output, events } : State).commit e
  have hid : e.id = st.report.entries.length := he.id
  have hreport : (entered.enqueueAll (some e.id) (e.depth + 1) paths).report = entered.report :=
    State.report_enqueueAll entered (some e.id) (e.depth + 1) paths
  obtain ⟨ps, -, hwaiting⟩ :=
    State.exists_waiting_enqueueAll entered (some e.id) (e.depth + 1) paths
  have hlast : entered.report.entries.length - 1 = e.id := by
    rw [show entered.report.entries = st.report.entries ++ [e] from rfl, List.length_append,
      List.length_singleton, hid]
    rfl
  have hentry : entered.report.entries[st.report.entries.length]? = some e :=
    List.getElem?_concat_length
  have hstacked := h.stacked
  rw [hw, List.pairwise_cons] at hstacked
  -- the parent of the new entry leads up to the parents of all that wait behind it
  have habove : ∀ b ∈ rest, ∀ q, b.parent = some q → entered.report.IsWithin e.id q := by
    intro b hb q hq
    obtain ⟨p, hp, hpq⟩ := hstacked.1 b hb q hq
    have hchild : entered.report.IsChildOf e.id p :=
      ⟨e, by rw [hid]; exact hentry, by rw [he.parent, hp]⟩
    exact hchild.trans (hpq.append e)
  obtain ⟨hfront, hpairs⟩ := push habove
    (hstacked.2.imp fun hab q hq => by
      obtain ⟨p, hp, hpq⟩ := hab q hq
      exact ⟨p, hp, hpq.append e⟩)
    (fun p hp => by
      rw [← Option.some.inj hp]
      exact .refl _ _)
    (fun b hb q hq => ⟨e.id, rfl, habove b hb q hq⟩) ps (e.depth + 1)
  refine ⟨?_, ?_, ?_⟩
  · rw [hreport]
    exact h.entries_concat hw he.parent rfl
  · rw [State.nextId, hreport, hwaiting, hlast]
    exact hfront
  · rw [hreport, hwaiting]
    exact hpairs

/-- Every way of dealing with a path keeps the stack in order. -/
theorem visit (h : st.IsNested) (hw : st.waiting = item :: rest)
    (hvisit : Scan.visit setup { st with waiting := rest } item = (st', none)) :
    st'.IsNested := by
  have hstacked := h.stacked
  rw [hw, List.pairwise_cons] at hstacked
  have hfront : ∀ b ∈ rest, ∀ q, b.parent = some q →
      st.report.IsWithin (st.nextId - 1) q := fun b hb => h.front b (by simp [hw, hb])
  have hproceeds := proceeds hvisit
  generalize Visit.created setup ⟨{ st with waiting := rest }, item⟩ = created at hproceeds
  cases hproceeds with
  | entered files output events e he => exact h.enter hw he _
  | warned message => exact ⟨h.entries, hfront, hstacked.2⟩
  | expanded names faults =>
      let warned : State := ({ st with waiting := rest } : State).warnAll faults
      have hreport :=
        State.report_enqueueAll warned item.parent item.depth (names.map item.path.join)
      obtain ⟨ps, -, hwaiting⟩ :=
        State.exists_waiting_enqueueAll warned item.parent item.depth (names.map item.path.join)
      obtain ⟨hall, hpairs⟩ := push hfront hstacked.2
        (h.front item (by simp [hw])) hstacked.1 ps item.depth
      refine ⟨?_, ?_, ?_⟩
      · rw [hreport]
        exact h.entries
      · rw [State.nextId, hreport, hwaiting]
        exact hall
      · rw [hreport, hwaiting]
        exact hpairs

/-- Inputs have no parent. -/
theorem start (files : FileSystem) (output : Option OutputDir) (inputs : List Path) :
    ((State.start files output).enqueueAll none 0 inputs).IsNested := by
  have hreport := State.report_enqueueAll (State.start files output) none 0 inputs
  obtain ⟨ps, -, hwaiting⟩ :=
    State.exists_waiting_enqueueAll (State.start files output) none 0 inputs
  have hnone : ∀ item ∈ ((State.start files output).enqueueAll none 0 inputs).waiting,
      item.parent = none := by
    intro item hitem
    rw [hwaiting] at hitem
    obtain ⟨p, -, rfl⟩ := List.mem_map.1 ((List.append_nil _).symm ▸ hitem)
    rfl
  refine ⟨?_, ?_, List.pairwise_of_forall_mem_list fun a _ b hb q hq => ?_⟩
  · rw [hreport]
    rintro k p ⟨e, he, -⟩
    cases he
  · intro item hitem p hp
    rw [hnone item hitem] at hp
    cases hp
  · rw [hnone b hb] at hq
    cases hq

/-- The induction is on the later file: the one before it is its parent or descends from it. -/
theorem isPreorder (h : st.IsNested) : st.report.IsPreorder := by
  intro i j k hij hjk hdesc
  induction k with
  | zero => omega
  | succ k ih =>
      obtain ⟨p, hchild, hp⟩ := hdesc.head
      have hwithin : st.report.IsWithin k i := (h.entries k p hchild).trans hp
      have hk : st.report.Descends k i := by
        rcases Report.isWithin_iff.1 hwithin with heq | hd
        · omega
        · exact hd
      by_cases hjk' : j = k
      · exact hjk' ▸ hk
      · exact ih (by omega) hk

end State.IsNested

theorem Works.isNested {setup : Setup} {st last : State} {vs : List Visit}
    (h : Works setup st vs last) (hst : st.IsNested) : last.IsNested :=
  h.preserves (fun _ st => st.IsNested)
    (fun _ _ _ _ _ hnested hwaiting hvisit => hnested.visit hwaiting hvisit) hst

end RuleScan.Scan
