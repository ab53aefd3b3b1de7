import Mathlib.Data.List.Sort
import RuleScan.Proofs.Scan.Children
import RuleScan.Proofs.Scan.Preorder
import RuleScan.Scan.Printer

/-!
# The outline of a report

A report is printed by a recursion: the inputs in order, and below each file its children, which
are looked up among all entries.  The recursion goes through the forest in depth-first order, the
order in which the entries were added.  So it meets every entry, once, in the order of their
ids, and the level at which it arrives is the depth of the entry; more levels than there are
entries are never needed.

That two lists are equal is proved in three steps: what the recursion meets are entries at their
depth, it meets them by increasing id, and it meets all of them.

## Main results

* `mem_outlineOf`, `pairwise_outlineOf`, `mem_outlineOf_roots` — the three steps.
* `outlineOf_roots` — the outline is the list of the entries, however many levels are allowed.
* `isWritten_entryLines` — an entry is written as one header and deeper lines that are none.
* `scanWithin_isInOrder` — the reports of all scans are printed in order.
-/

namespace RuleScan.Scan

section Outline

variable {r : Report} {maxDepth : Nat}

/-! ## Forests in preorder -/

theorem Report.IsForest.entry (h : r.IsForest maxDepth) {e : Entry} (he : e ∈ r.entries) :
    r.entries[e.id]? = some e := by
  obtain ⟨i, hi⟩ := List.getElem?_of_mem he
  rwa [h.ids i e hi]

theorem Report.IsForest.child (h : r.IsForest maxDepth) {e f : Entry} (hf : f ∈ r.entries)
    (he : e ∈ r.children f.id) :
    e ∈ r.entries ∧ e.depth = f.depth + 1 ∧ r.IsChildOf e.id f.id := by
  obtain ⟨hmem, hparent⟩ := Report.mem_children.1 he
  obtain ⟨-, g, hg, hdepth, -⟩ := h.parents e hmem f.id hparent
  rw [h.entry hf, Option.some.injEq] at hg
  exact ⟨hmem, hg ▸ hdepth, e, h.entry hmem, hparent⟩

theorem Report.IsForest.lt_of_isChildOf (h : r.IsForest maxDepth) {a b : Nat}
    (hab : r.IsChildOf a b) : b < a := by
  obtain ⟨e, he, hparent⟩ := hab
  have hlt := (h.parents e (List.mem_of_getElem? he) b hparent).1
  rwa [h.ids a e he] at hlt

/-- What descends from a file is entered later. -/
theorem Report.IsForest.lt_of_descends (h : r.IsForest maxDepth) {a b : Nat}
    (hab : r.Descends a b) : b < a := by
  induction hab with
  | single hchild => exact h.lt_of_isChildOf hchild
  | tail _ hchild ih => exact Nat.lt_trans (h.lt_of_isChildOf hchild) ih

theorem Report.IsForest.le_of_isWithin (h : r.IsForest maxDepth) {a b : Nat}
    (hab : r.IsWithin a b) : b ≤ a := by
  rcases Report.isWithin_iff.1 hab with rfl | hdesc
  · exact Nat.le_refl _
  · exact Nat.le_of_lt (h.lt_of_descends hdesc)

/-- Files with the same parent do not descend from each other. -/
theorem Report.IsForest.not_descends (h : r.IsForest maxDepth) {e f : Entry} (he : e ∈ r.entries)
    (hf : f ∈ r.entries) (hparent : e.parent = f.parent) : ¬ r.Descends e.id f.id := by
  intro hdesc
  obtain ⟨p, ⟨g, hg, hgp⟩, hp⟩ := hdesc.head
  rw [h.entry he, Option.some.injEq] at hg
  subst hg
  have hlt := (h.parents f hf p (hparent ▸ hgp)).1
  exact absurd (h.le_of_isWithin hp) (Nat.not_le_of_lt hlt)

theorem Report.IsForest.pairwise_id (h : r.IsForest maxDepth) :
    r.entries.Pairwise fun e f => e.id < f.id := by
  refine List.pairwise_iff_getElem.2 fun i j hi hj hij => ?_
  rw [h.ids i _ (List.getElem?_eq_getElem hi), h.ids j _ (List.getElem?_eq_getElem hj)]
  exact hij

/-- A file is no deeper than the number of files before it. -/
theorem Report.IsForest.depth_le_id (h : r.IsForest maxDepth) {e : Entry} (he : e ∈ r.entries) :
    e.depth ≤ e.id := by
  induction hid : e.id using Nat.strongRecOn generalizing e with
  | _ n ih =>
    cases hparent : e.parent with
    | none =>
        rw [h.roots e he hparent]
        exact Nat.zero_le n
    | some p =>
        obtain ⟨hlt, f, hf, hdepth, -⟩ := h.parents e he p hparent
        have hfid : f.id = p := h.ids p f hf
        have hle := ih p (hid ▸ hlt) (List.mem_of_getElem? hf) hfid
        rw [hdepth, ← hid]
        exact Nat.lt_of_le_of_lt hle hlt

/-! ## What the outline meets -/

/-- The outline of some files consists of them and what descends from them, each at its depth. -/
theorem mem_outlineOf (h : r.IsForest maxDepth) {room level : Nat} {es : List Entry}
    (hes : ∀ y ∈ es, y ∈ r.entries ∧ y.depth = level) {z : Nat × Entry}
    (hz : z ∈ r.outlineOf room level es) :
    (z.2 ∈ r.entries ∧ z.2.depth = z.1) ∧ ∃ y ∈ es, r.IsWithin z.2.id y.id := by
  induction room generalizing level es with
  | zero => cases hz
  | succ room ih =>
      rw [Report.outlineOf_succ] at hz
      obtain ⟨y, hy, hz⟩ := List.mem_flatMap.1 hz
      rcases List.mem_cons.1 hz with rfl | hz
      · exact ⟨hes y hy, y, hy, .refl r y.id⟩
      · have hchildren : ∀ c ∈ r.children y.id, c ∈ r.entries ∧ c.depth = level + 1 := by
          intro c hc
          obtain ⟨hmem, hdepth, -⟩ := h.child (hes y hy).1 hc
          exact ⟨hmem, by rw [hdepth, (hes y hy).2]⟩
        obtain ⟨hentry, c, hc, hwithin⟩ := ih hchildren hz
        obtain ⟨-, -, hchild⟩ := h.child (hes y hy).1 hc
        exact ⟨hentry, y, hy, hwithin.trans hchild.isWithin⟩

/-- What comes out of a file is entered before the next file with the same parent. -/
theorem lt_of_isWithin_sibling (h : r.IsForest maxDepth) (hpre : r.IsPreorder) {a b x y : Entry}
    (ha : a ∈ r.entries) (hb : b ∈ r.entries) (hparent : b.parent = a.parent) (hab : a.id < b.id)
    (hx : r.IsWithin x.id a.id) (hy : r.IsWithin y.id b.id) : x.id < y.id := by
  refine Nat.lt_of_lt_of_le ?_ (h.le_of_isWithin hy)
  rcases Report.isWithin_iff.1 hx with heq | hdesc
  · rwa [heq]
  · refine Decidable.byContradiction fun hle => ?_
    have hnot := h.not_descends hb ha hparent
    rcases Nat.eq_or_lt_of_le (Nat.le_of_not_lt hle) with heq | hlt
    · exact hnot (heq ▸ hdesc)
    · exact hnot (hpre a.id b.id x.id hab hlt hdesc)

/-- The outline of files with the same parent meets entries by increasing id. -/
theorem pairwise_outlineOf (h : r.IsForest maxDepth) (hpre : r.IsPreorder) (room level : Nat)
    {es : List Entry} (hes : ∀ y ∈ es, y ∈ r.entries ∧ y.depth = level)
    (hparent : ∀ a ∈ es, ∀ b ∈ es, b.parent = a.parent)
    (hsorted : es.Pairwise fun e f => e.id < f.id) :
    (r.outlineOf room level es).Pairwise fun y z => y.2.id < z.2.id := by
  induction room generalizing level es with
  | zero => exact .nil
  | succ room ih =>
      have hchildren : ∀ a ∈ es, ∀ c ∈ r.children a.id, c ∈ r.entries ∧ c.depth = level + 1 := by
        intro a ha c hc
        obtain ⟨hmem, hdepth, -⟩ := h.child (hes a ha).1 hc
        exact ⟨hmem, by rw [hdepth, (hes a ha).2]⟩
      have hwithin : ∀ a ∈ es, ∀ z ∈ (level, a) :: r.outlineOf room (level + 1) (r.children a.id),
          r.IsWithin z.2.id a.id := by
        intro a ha z hz
        rcases List.mem_cons.1 hz with rfl | hz
        · exact .refl r a.id
        · obtain ⟨-, c, hc, hzc⟩ := mem_outlineOf h (hchildren a ha) hz
          exact hzc.trans (h.child (hes a ha).1 hc).2.2.isWithin
      rw [Report.outlineOf_succ, List.pairwise_flatMap]
      refine ⟨fun a ha => List.pairwise_cons.2 ⟨fun z hz => ?_, ?_⟩, ?_⟩
      · -- the file itself comes before what comes out of it
        obtain ⟨-, c, hc, hzc⟩ := mem_outlineOf h (hchildren a ha) hz
        have hchild := (h.child (hes a ha).1 hc).2.2
        exact Nat.lt_of_lt_of_le (h.lt_of_isChildOf hchild) (h.le_of_isWithin hzc)
      · refine ih (level + 1) (hchildren a ha) (fun c hc d hd => ?_) (h.pairwise_id.filter _)
        rw [(Report.mem_children.1 hc).2, (Report.mem_children.1 hd).2]
      · refine hsorted.imp_of_mem fun {a b} ha hb hab x hx y hy => ?_
        exact lt_of_isWithin_sibling h hpre (hes a ha).1 (hes b hb).1 (hparent a ha b hb) hab
          (hwithin a ha x hx) (hwithin b hb y hy)

/-- Below what the outline meets it meets the children, as long as levels are left. -/
theorem children_mem_outlineOf {room level l : Nat} {es : List Entry} {e f : Entry}
    (hf : (l, f) ∈ r.outlineOf room level es) (hroom : l + 1 < level + room)
    (he : e ∈ r.children f.id) : (l + 1, e) ∈ r.outlineOf room level es := by
  induction room generalizing level es with
  | zero => cases hf
  | succ room ih =>
      rw [Report.outlineOf_succ] at hf ⊢
      obtain ⟨y, hy, hf⟩ := List.mem_flatMap.1 hf
      refine List.mem_flatMap.2 ⟨y, hy, List.mem_cons_of_mem _ ?_⟩
      rcases List.mem_cons.1 hf with heq | hf
      · obtain ⟨rfl, rfl⟩ := Prod.mk.inj heq
        cases room with
        | zero => omega
        | succ room =>
            rw [Report.outlineOf_succ]
            exact List.mem_flatMap.2 ⟨e, he, List.mem_cons_self⟩
      · exact ih hf (by omega)

/-- The outline of the inputs meets every entry.  The induction is on the id, for a parent has a
smaller one. -/
theorem mem_outlineOf_roots (h : r.IsForest maxDepth) {room : Nat}
    (hroom : r.entries.length ≤ room) {e : Entry} (he : e ∈ r.entries) :
    (e.depth, e) ∈ r.outlineOf room 0 r.roots := by
  induction hid : e.id using Nat.strongRecOn generalizing e with
  | _ n ih =>
    have hlt : e.id < r.entries.length := (List.getElem?_eq_some_iff.1 (h.entry he)).1
    cases hparent : e.parent with
    | none =>
        rw [h.roots e he hparent]
        cases room with
        | zero => exact absurd hlt (Nat.not_lt_of_le (Nat.le_trans hroom (Nat.zero_le _)))
        | succ room =>
            rw [Report.outlineOf_succ]
            exact List.mem_flatMap.2 ⟨e, Report.mem_roots.2 ⟨he, hparent⟩, List.mem_cons_self⟩
    | some p =>
        obtain ⟨hp, f, hf, hdepth, -⟩ := h.parents e he p hparent
        have hfid : f.id = p := h.ids p f hf
        have hmeets := ih p (hid ▸ hp) (List.mem_of_getElem? hf) hfid
        have hdeep : e.depth < room :=
          Nat.lt_of_lt_of_le (Nat.lt_of_le_of_lt (h.depth_le_id he) hlt) hroom
        rw [hdepth]
        refine children_mem_outlineOf hmeets (by omega) (Report.mem_children.2 ⟨he, ?_⟩)
        rw [hparent, hfid]

/-- The outline is the list of the entries, each at its depth. -/
theorem outlineOf_roots (h : r.IsForest maxDepth) (hpre : r.IsPreorder) {room : Nat}
    (hroom : r.entries.length ≤ room) :
    r.outlineOf room 0 r.roots = r.entries.map fun e => (e.depth, e) := by
  have hroots : ∀ y ∈ r.roots, y ∈ r.entries ∧ y.depth = 0 := by
    intro y hy
    obtain ⟨hmem, hparent⟩ := Report.mem_roots.1 hy
    exact ⟨hmem, h.roots y hmem hparent⟩
  have hsame : ∀ a ∈ r.roots, ∀ b ∈ r.roots, b.parent = a.parent := by
    intro a ha b hb
    rw [(Report.mem_roots.1 ha).2, (Report.mem_roots.1 hb).2]
  have hirrefl : Std.Irrefl fun y z : Nat × Entry => y.2.id < z.2.id :=
    ⟨fun _ => Nat.lt_irrefl _⟩
  have hantisymm : Std.Antisymm fun y z : Nat × Entry => y.2.id < z.2.id :=
    ⟨fun _ _ hlt hgt => absurd hgt (Nat.lt_asymm hlt)⟩
  refine List.Pairwise.eq_of_mem_iff
    (pairwise_outlineOf h hpre room 0 hroots hsame (h.pairwise_id.filter _))
    (List.pairwise_map.2 h.pairwise_id) fun z => ⟨fun hz => ?_, fun hz => ?_⟩
  · obtain ⟨⟨hmem, hdepth⟩, -⟩ := mem_outlineOf h hroots hz
    exact List.mem_map.2 ⟨z.2, hmem, by rw [hdepth]⟩
  · obtain ⟨e, he, rfl⟩ := List.mem_map.1 hz
    exact mem_outlineOf_roots h hroom he

end Outline

/-! ## The lines of an entry -/

/-- A line at this level or a deeper one that is no header: it begins with `#` only if it tells the
value of a variable with such a name in one of the matches. -/
structure Line.IsBelow (level : Nat) (ms : List Match) (l : Line) : Prop where
  deeper : level ≤ l.level
  plain : l.text.toList.head? = some '#' → ∃ m ∈ ms, ∃ x ∈ m.vars.entries,
    l.text = x.1 ++ " = " ++ x.2.print

/-- Lines that tell about an entry: one header, which names the file at the level of its depth,
and deeper lines that are no headers. -/
inductive Entry.IsWritten (e : Entry) : List Line → Prop
  | lines (origin : String) (details : List Line)
      (hdetails : ∀ l ∈ details, l.IsBelow (e.depth + 1) e.allMatches) :
      e.IsWritten (⟨e.depth, "#" ++ toString e.id ++ " " ++ e.path ++ " (" ++ toString e.size ++
        " bytes" ++ origin ++ ")"⟩ :: details)

section Written

variable {ms ms' : List Match} {l : Line} {level level' : Nat} {label : String} {c : Char}

theorem Line.IsBelow.mono (h : l.IsBelow level ms) (hlevel : level' ≤ level) (hsub : ms ⊆ ms') :
    l.IsBelow level' ms' where
  deeper := Nat.le_trans hlevel h.deeper
  plain hhead := by
    obtain ⟨m, hm, hvalue⟩ := h.plain hhead
    exact ⟨m, hsub hm, hvalue⟩

/-- A line that begins with a word is no header. -/
theorem Line.IsBelow.append (hlabel : label.toList.head? = some c) (hc : c ≠ '#')
    (ms : List Match) (level : Nat) (rest : String) :
    Line.IsBelow level ms ⟨level, label ++ rest⟩ := by
  refine ⟨Nat.le_refl _, fun hhead => ?_⟩
  rw [String.toList_append, List.head?_append, hlabel, Option.some_or, Option.some.injEq] at hhead
  exact absurd hhead hc

theorem isBelow_labelled (hlabel : label.toList.head? = some c) (hc : c ≠ '#')
    {texts : List String} (h : l ∈ texts.map fun text => ⟨level, label ++ ": " ++ text⟩) :
    l.IsBelow level ms := by
  obtain ⟨text, -, rfl⟩ := List.mem_map.1 h
  rw [String.append_assoc]
  exact .append hlabel hc ms level _

theorem isBelow_listLine (hlabel : label.toList.head? = some c) (hc : c ≠ '#')
    {names : List String} (h : l ∈ listLine level label names) : l.IsBelow level ms := by
  unfold listLine at h
  split at h
  · cases h
  · rw [List.mem_singleton.1 h, String.append_assoc]
    exact .append hlabel hc ms level _

theorem isBelow_duplicateLine {r : Report} {e : Entry} (h : l ∈ duplicateLine r level e) :
    l.IsBelow level ms := by
  unfold duplicateLine at h
  split at h
  · cases h
  · next id _ =>
    have hword : "duplicate of ".toList.head? = some 'd' := by decide
    rw [List.mem_singleton.1 h]
    show Line.IsBelow level ms ⟨level, "duplicate of " ++ printId id ++ " " ++
      ((r.entry? id).map Entry.path).getD ""⟩
    rw [String.append_assoc, String.append_assoc]
    exact .append hword (by decide) ms level _

mutual

/-- The lines of a match are at its level or below, and tell of the matches of its tree. -/
theorem isBelow_matchLines (style : Style) : (level : Nat) → (m : Match) →
    ∀ l ∈ matchLines style level m, l.IsBelow level m.preorder
  | level, .node rule id vars children unmatched => by
      have hword : "match ".toList.head? = some 'm' := by decide
      have hlabel : "unmatched".toList.head? = some 'u' := by decide
      intro l hl
      simp only [matchLines, List.mem_cons, List.mem_append] at hl
      rw [Match.preorder]
      rcases hl with rfl | (hl | hl) | hl
      · exact .append hword (by decide) _ level id
      · split at hl
        · obtain ⟨x, hx, rfl⟩ := List.mem_map.1 hl
          exact ⟨Nat.le_succ level, fun _ => ⟨_, List.mem_cons_self, x, hx, rfl⟩⟩
        · cases hl
      · exact (isBelow_matchLinesAll style (level + 1) children l hl).mono (Nat.le_succ level)
          (List.subset_cons_self _ _)
      · split at hl
        · exact (isBelow_listLine hlabel (by decide) hl).mono (Nat.le_succ level)
            (List.Subset.refl _)
        · cases hl

theorem isBelow_matchLinesAll (style : Style) : (level : Nat) → (ms : List Match) →
    ∀ l ∈ matchLinesAll style level ms, l.IsBelow level (Match.preorderAll ms)
  | _, [] => nofun
  | level, m :: rest => by
      intro l hl
      rw [matchLinesAll] at hl
      rw [Match.preorderAll]
      rcases List.mem_append.1 hl with hl | hl
      · exact (isBelow_matchLines style level m l hl).mono (Nat.le_refl _)
          (List.subset_append_left _ _)
      · exact (isBelow_matchLinesAll style level rest l hl).mono (Nat.le_refl _)
          (List.subset_append_right _ _)

end

theorem header_eq (e : Entry) : ∃ origin, e.header = "#" ++ toString e.id ++ " " ++ e.path ++
    " (" ++ toString e.size ++ " bytes" ++ origin ++ ")" := by
  unfold Entry.header
  cases e.parent with
  | none => exact ⟨"", rfl⟩
  | some parent => exact ⟨s!", from {printId parent}, depth {e.depth}", rfl⟩

/-- An entry at its depth is written as its header and what is below. -/
theorem isWritten_entryLines (style : Style) (r : Report) (e : Entry) :
    e.IsWritten (entryLines style r e.depth e) := by
  obtain ⟨origin, horigin⟩ := header_eq e
  unfold entryLines
  rw [horigin]
  refine .lines origin _ fun l hl => ?_
  have htags : "tags".toList.head? = some 't' := by decide
  have hlog : "log".toList.head? = some 'l' := by decide
  have hwarning : "warning".toList.head? = some 'w' := by decide
  have herror : "error".toList.head? = some 'e' := by decide
  simp only [List.mem_append] at hl
  rcases hl with ((((hl | hl) | hl) | hl) | hl) | hl
  · exact isBelow_duplicateLine hl
  · exact isBelow_listLine htags (by decide) hl
  · rw [Entry.allMatches, ← Match.preorderAll_eq]
    exact isBelow_matchLinesAll style (e.depth + 1) e.trees l hl
  · exact isBelow_labelled hlog (by decide) hl
  · exact isBelow_labelled hwarning (by decide) hl
  · have hl' : l ∈ (e.errors.map Diagnostic.print).map fun text =>
        (⟨e.depth + 1, "error" ++ ": " ++ text⟩ : Line) := by
      rwa [List.map_map]
    exact isBelow_labelled herror (by decide) hl'

end Written

/-! ## Whole scans -/

/-- A text that consists of what is written of each entry in turn, and of the warnings; each line
is indented by its level. -/
def Report.IsWrittenAs (style : Style) (r : Report) (text : String) : Prop :=
  ∃ parts : List (List Line), List.Forall₂ Entry.IsWritten r.entries parts ∧
    text = String.join
      ((parts.flatten ++ r.warnings.map fun w => (⟨0, "warning: " ++ w⟩ : Line)).map fun l =>
        String.join (List.replicate l.level style.indent) ++ l.text ++ "\n")

/-- If the lines are those of the entries in turn, so is the text. -/
theorem isWrittenAs_print {r : Report} {style : Style}
    (h : r.lines style = (r.entries.flatMap fun e => entryLines style r e.depth e) ++
      r.warnings.map fun w => ⟨0, "warning: " ++ w⟩) : r.IsWrittenAs style (r.print style) := by
  refine ⟨r.entries.map fun e => entryLines style r e.depth e, ?_, ?_⟩
  · exact List.forall₂_map_right_iff.2
      (List.forall₂_same.2 fun e _ => isWritten_entryLines style r e)
  · rw [Report.print, h, List.flatMap_def]
    rfl

/-- A report whose entries stand in the order in which it is printed. -/
structure Report.IsInOrder (setup : Setup) (vs : List Visit) (r : Report) : Prop where
  ids : r.entries.map Entry.id = List.range r.entries.length
  preorder : r.IsPreorder
  /-- The children of a file come in the order in which they were created. -/
  children : ∀ e ∈ r.entries,
    ((r.children e.id).map Entry.path).Sublist (createdFrom setup vs e.id)
  /-- However many levels are allowed, the recursion meets the entries, each at its depth. -/
  outline : ∀ room, r.entries.length ≤ room →
    r.outlineOf room 0 r.roots = r.entries.map fun e => (e.depth, e)
  lines : ∀ style, r.lines style =
    (r.entries.flatMap fun e => entryLines style r e.depth e) ++
      r.warnings.map fun w => ⟨0, "warning: " ++ w⟩
  printed : ∀ style, r.IsWrittenAs style (r.print style)

/--
**The order of a report is its tree.**  Whatever the files, as long as they form a tree, the
rules with the built-in operators, the inputs and the configuration: between a file and what
descends from it there is only what descends from it, the children of a file come in the order
in which they were created, and printing goes through the entries in the order of their ids,
each once and at the level of its depth.  In the text that is written, each entry has one line
that names the file, indented by its depth, and below it deeper lines that name none.
-/
theorem scanWithin_isInOrder (budget : Nat) (setup : Setup)
    (hops : setup.env.operators = .builtins) (files : FileSystem) (htree : files.IsTree)
    (inputs : List Path) {r : Report}
    (h : (scanWithin budget setup files inputs).outcome = .finished r) :
    r.IsInOrder setup (visitsWithin budget setup files inputs) := by
  obtain ⟨output, files', last, hopen, hworks, hdone, rfl⟩ := scanWithin_finished h
  obtain ⟨htree', hkeeps⟩ := keeps_openOutput setup.config htree
  rw [hopen] at htree' hkeeps
  have hstart := sound_start setup.config.maxDepth files' output inputs
  have hsound := hworks.sound hstart
  have hforest := hsound.isForest
  have hpre := (hworks.isNested (.start files' output inputs)).isPreorder
  have houtline : ∀ room, last.report.entries.length ≤ room →
      last.report.outlineOf room 0 last.report.roots =
        last.report.entries.map fun e => (e.depth, e) :=
    fun _ hroom => outlineOf_roots hforest hpre hroom
  have hchildren := hworks.children hops (.start setup htree' hkeeps output inputs) hstart
    (.start setup files' output inputs) hdone
  have hlines : ∀ style, last.report.lines style =
      (last.report.entries.flatMap fun e => entryLines style last.report e.depth e) ++
        last.report.warnings.map fun w => ⟨0, "warning: " ++ w⟩ := by
    intro style
    rw [Report.lines_eq, Report.outline, houtline _ (Nat.le_refl _), List.flatMap_map]
  refine ⟨hsound.ids, hpre, fun e _ => ?_, houtline, hlines, fun style =>
    isWrittenAs_print (hlines style)⟩
  rw [hchildren]
  exact queuedFrom_sublist setup _ e.id

/-- What two inputs are printed as, each with the file that is created from it. -/
def writingText : String :=
  "#0 a (1 bytes)\n  match w\n  #1 out/x (1 bytes, from #0, depth 1)\n" ++
  "    error: depth 1 exceeds maximum depth 0\n" ++
  "#2 b (1 bytes)\n  match w\n  #3 out/x_1 (1 bytes, from #2, depth 1)\n" ++
  "    error: depth 1 exceeds maximum depth 0\n"

/-- What is created from the first input is entered and printed before the second input. -/
theorem scanWithin_isInOrder_writing :
    ∃ r, (scanWithin 8 writingSetup
        ⟨Table.ofList [(["a"], .file [7]), (["b"], .file [8])], []⟩ ["a", "b"]).outcome =
        .finished r ∧
      r.outline.map (fun p => (p.1, p.2.path)) =
        [(0, "a"), (1, "out/x"), (0, "b"), (1, "out/x_1")] ∧
      r.print {} = writingText ∧
      r.IsInOrder writingSetup (visitsWithin 8 writingSetup
        ⟨Table.ofList [(["a"], .file [7]), (["b"], .file [8])], []⟩ ["a", "b"]) := by
  have hshape : ((scanWithin 8 writingSetup
      ⟨Table.ofList [(["a"], .file [7]), (["b"], .file [8])], []⟩ ["a", "b"]).outcome.report?.map
        fun r => (r.outline.map (fun p => (p.1, p.2.path)), r.print {})) =
      some ([(0, "a"), (1, "out/x"), (0, "b"), (1, "out/x_1")], writingText) := by
    decide +kernel
  obtain ⟨r, hout, hr⟩ := Outcome.finished_of_map hshape
  obtain ⟨houtline, hprint⟩ := Prod.mk.inj hr
  exact ⟨r, hout, houtline, hprint,
    scanWithin_isInOrder 8 writingSetup rfl _ (by decide) ["a", "b"] hout⟩

end RuleScan.Scan
