import RuleScan.Files.Basic

/-!
# Segments of paths

A path is cut at its slashes into segments, some of which are idle.  The other segments, the
steps of the path, and whether it starts at the root are what a file system looks at; the
components of a path determine both.  A path that is plain ends in a step, so that nothing
but a name can follow the last slash.

## Main results

* `splitOn_append`, `splitOn_of_not_mem` — how cutting goes along with putting together.
* `components_join`, `steps_join` — a name inside a directory adds one step at the end.
* `steps_eq_of_components` — paths with the same components have the same steps.
* `segments_pathOf` — the text of a location is cut into its names.
-/

namespace RuleScan

namespace Text

variable {separator : Char}

theorem splitOn_of_not_mem {cs : List Char} (h : separator ∉ cs) :
    splitOn separator cs = [cs] := by
  induction cs with
  | nil => rfl
  | cons c rest ih =>
      rw [List.mem_cons, not_or] at h
      rw [splitOn, if_neg (Ne.symm h.1), ih h.2]

theorem splitOn_append (xs ys : List Char) :
    splitOn separator (xs ++ separator :: ys) =
      splitOn separator xs ++ splitOn separator ys := by
  induction xs with
  | nil => simp [splitOn]
  | cons c rest ih =>
      by_cases hc : c = separator
      · simp [splitOn, hc, ih]
      · simp only [List.cons_append, splitOn, if_neg hc, ih]
        cases hrest : splitOn separator rest with
        | nil => exact absurd hrest (splitOn_ne_nil separator rest)
        | cons part parts => rfl

theorem not_mem_of_mem_splitOn {cs part : List Char} (h : part ∈ splitOn separator cs) :
    separator ∉ part := by
  induction cs generalizing part with
  | nil =>
      rw [splitOn, List.mem_singleton] at h
      simp [h]
  | cons c rest ih =>
      by_cases hc : c = separator
      · simp only [splitOn, if_pos hc, List.mem_cons] at h
        rcases h with rfl | h
        · simp
        · exact ih h
      · simp only [splitOn, if_neg hc] at h
        cases hrest : splitOn separator rest with
        | nil => exact absurd hrest (splitOn_ne_nil separator rest)
        | cons first parts =>
            rw [hrest] at h ih
            rcases List.mem_cons.1 h with rfl | h
            · simp [Ne.symm hc, ih List.mem_cons_self]
            · exact ih (List.mem_cons_of_mem _ h)

end Text

namespace Path

/-! ## Steps and names -/

/-- A segment that a walk through directories does not pass over. -/
structure IsStep (name : String) : Prop where
  busy : isIdle name = false
  down : name ≠ ".."

/-- A text that can name an entry of a directory. -/
structure IsName (name : String) : Prop extends IsStep name where
  whole : '/' ∉ name.toList

instance (name : String) : Decidable (IsName name) :=
  decidable_of_iff (isIdle name = false ∧ name ≠ ".." ∧ '/' ∉ name.toList)
    ⟨fun h => ⟨⟨h.1, h.2.1⟩, h.2.2⟩, fun h => ⟨h.busy, h.down, h.whole⟩⟩

/-- The segments of a path that are not idle. -/
def steps (p : Path) : List String := p.segments.filter fun s => !isIdle s

/-- The last of some segments is a step. -/
def EndsInStep (segments : List String) : Prop :=
  ∃ name, segments.getLast? = some name ∧ isIdle name = false

/-- A path whose last segment is a step. -/
def IsPlain (p : Path) : Prop := EndsInStep p.segments

theorem EndsInStep.of_append (front : List String) {rest : List String}
    (h : EndsInStep (front ++ rest)) (hrest : rest ≠ []) : EndsInStep rest := by
  obtain ⟨name, hlast, hname⟩ := h
  refine ⟨name, ?_, hname⟩
  cases hr : rest.getLast? with
  | none => exact absurd (List.getLast?_eq_none_iff.1 hr) hrest
  | some n => rwa [List.getLast?_append, hr, Option.some_or] at hlast

theorem EndsInStep.append {rest : List String} (h : EndsInStep rest) (front : List String) :
    EndsInStep (front ++ rest) := by
  obtain ⟨name, hlast, hname⟩ := h
  exact ⟨name, by rw [List.getLast?_append, hlast, Option.some_or], hname⟩

theorem EndsInStep.filter_ne_nil {rest : List String} (h : EndsInStep rest) :
    (rest.filter fun s => !isIdle s) ≠ [] := by
  obtain ⟨name, hlast, hname⟩ := h
  exact List.ne_nil_of_mem (List.mem_filter.2 ⟨List.mem_of_getLast? hlast, by simp [hname]⟩)

theorem IsName.ne_dot {name : String} (h : IsName name) : name ≠ "." := by
  rintro rfl
  exact absurd h.busy (by decide)

theorem IsName.ne_empty {name : String} (h : IsName name) : name ≠ "" := by
  rintro rfl
  exact absurd h.busy (by decide)

theorem IsName.head? {name : String} (h : IsName name) : name.toList.head? ≠ some '/' := by
  intro hhead
  exact h.whole (List.mem_of_mem_head? hhead)

theorem whole_of_mem_segments {p : Path} {s : String} (h : s ∈ p.segments) :
    '/' ∉ s.toList := by
  obtain ⟨part, hpart, rfl⟩ := List.mem_map.1 h
  rw [String.toList_ofList]
  exact Text.not_mem_of_mem_splitOn hpart

theorem segments_ne_nil (p : Path) : p.segments ≠ [] := by
  simp [segments, Text.splitOn_ne_nil]

theorem segments_of_whole {p : Path} (h : '/' ∉ p.toList) : p.segments = [p] := by
  simp [segments, Text.splitOn_of_not_mem h]

theorem segments_append_slash (p q : Path) :
    (p ++ "/" ++ q).segments = p.segments ++ q.segments := by
  simp only [segments, String.toList_append, List.append_assoc]
  rw [show "/".toList ++ q.toList = '/' :: q.toList from rfl, Text.splitOn_append, List.map_append]

/-- The first segment of a path that starts at the root is empty. -/
theorem segments_of_isAbsolute {p : Path} (h : p.isAbsolute = true) :
    ∃ rest, p.segments = "" :: rest := by
  unfold isAbsolute at h
  unfold segments
  cases hcs : p.toList with
  | nil => simp [hcs] at h
  | cons c rest =>
      have hc : c = '/' := by simpa [hcs] using h
      exact ⟨(Text.splitOn '/' rest).map String.ofList, by simp [Text.splitOn, hc]⟩

/-! ## Components -/

/-- What the components of a path begin with besides its steps. -/
def origin (p : Path) : List Component :=
  if p.isAbsolute then [.root] else if p.segments.head? == some "." then [.here] else []

/-- The component of the origin or the step that a component stands for. -/
def Component.step? : Component → Option String
  | .root | .here => none
  | .up => some ".."
  | .name s => some s

theorem Component.step?_ofSegment (s : String) : (Component.ofSegment s).step? = some s := by
  unfold Component.ofSegment
  by_cases h : s = ".."
  · simp [h, Component.step?]
  · simp [h, Component.step?]

theorem components_eq (p : Path) : p.components = p.origin ++ p.steps.map Component.ofSegment := by
  unfold components parts origin steps
  by_cases habs : p.isAbsolute = true
  · obtain ⟨rest, hrest⟩ := segments_of_isAbsolute habs
    simp [habs, hrest, isIdle]
  · by_cases hdot : p.segments.head? = some "."
    · cases hsegs : p.segments with
      | nil => simp [hsegs] at hdot
      | cons s rest =>
          have hs : s = "." := by simpa [hsegs] using hdot
          simp [habs, hs, isIdle]
    · simp [habs, hdot]

/-- The components of a path tell its steps. -/
theorem steps_eq_of_components {p q : Path} (h : p.components = q.components) :
    p.steps = q.steps := by
  have hsteps : ∀ r : Path, r.components.filterMap Component.step? = r.steps := by
    intro r
    have horigin : r.origin.filterMap Component.step? = [] := by
      unfold origin
      split
      · rfl
      · split <;> rfl
    have hstep : Component.step? ∘ Component.ofSegment = some :=
      funext Component.step?_ofSegment
    rw [components_eq, List.filterMap_append, horigin, List.nil_append, List.filterMap_map, hstep,
      List.filterMap_some]
  rw [← hsteps p, ← hsteps q, h]

/-- The components of a path tell whether it starts at the root. -/
theorem isAbsolute_eq_of_components {p q : Path} (h : p.components = q.components) :
    p.isAbsolute = q.isAbsolute := by
  have hroot : ∀ r : Path, r.isAbsolute = true ↔ Component.root ∈ r.components := by
    intro r
    have hsteps : Component.root ∉ r.steps.map Component.ofSegment := by
      intro hmem
      obtain ⟨s, -, hs⟩ := List.mem_map.1 hmem
      have hstep := Component.step?_ofSegment s
      rw [hs] at hstep
      cases hstep
    rw [components_eq, List.mem_append, or_iff_left hsteps]
    unfold origin
    cases r.isAbsolute with
    | true => simp
    | false => by_cases hdot : r.segments.head? = some "." <;> simp [hdot]
  rw [Bool.eq_iff_iff, hroot p, hroot q, h]

/-! ## Names inside directories -/

theorem isAbsolute_append {p : Path} (h : p ≠ "") (q : Path) :
    isAbsolute (p ++ q) = p.isAbsolute := by
  unfold isAbsolute
  rw [String.toList_append]
  cases hcs : p.toList with
  | nil => exact absurd (String.toList_eq_nil_iff.1 hcs) h
  | cons c rest => rfl

theorem origin_congr {p q : Path} (habs : p.isAbsolute = q.isAbsolute)
    (hhead : p.segments.head? = q.segments.head?) : p.origin = q.origin := by
  unfold origin
  rw [habs, hhead]

/-- Putting a name inside a directory puts it behind the segments of the directory, in the
place of an empty last segment. -/
theorem segments_join (p : Path) {name : Path} (h : IsName name) :
    ∃ front, (p.join name).segments = front ++ [name] ∧
      (front.filter fun s => !isIdle s) = p.steps ∧
      (p.join name).isAbsolute = p.isAbsolute ∧ (p.join name).origin = p.origin := by
  have hname : name.segments = [name] := segments_of_whole h.whole
  unfold join
  rw [if_neg (by simpa using h.head?)]
  by_cases hempty : p = ""
  · subst hempty
    refine ⟨[], ?_, rfl, ?_, ?_⟩
    · simpa using hname
    · simpa [isAbsolute] using h.head?
    · have habs : name.isAbsolute = false := by simpa [isAbsolute] using h.head?
      show origin ("" ++ name) = []
      rw [String.empty_append]
      simp [origin, habs, hname, h.ne_dot]
  · by_cases hslash : p.toList.getLast? = some '/'
    · -- the name takes the place of the empty segment after the last slash
      obtain ⟨q, hq⟩ : ∃ q : Path, p = q ++ "/" := by
        obtain ⟨cs, hcs⟩ := List.getLast?_eq_some_iff.1 hslash
        exact ⟨String.ofList cs, String.toList_inj.1 (by simp [hcs])⟩
      have hp : p.segments = q.segments ++ [""] := by
        have h := segments_append_slash q ""
        rw [String.append_empty] at h
        rw [hq, h]
        rfl
      have hjoin : (p ++ name).segments = q.segments ++ [name] := by
        rw [hq, segments_append_slash, hname]
      have habs := isAbsolute_append hempty name
      simp only [hslash, beq_self_eq_true, Bool.or_true, if_true]
      refine ⟨q.segments, hjoin, ?_, habs, origin_congr habs ?_⟩
      · simp [steps, hp, isIdle]
      · rw [hp, hjoin, List.head?_append, List.head?_append,
          List.head?_eq_some_head (segments_ne_nil q)]
        rfl
    · have hjoin : (p ++ "/" ++ name).segments = p.segments ++ [name] := by
        rw [segments_append_slash, hname]
      have habs : (p ++ "/" ++ name).isAbsolute = p.isAbsolute := by
        rw [String.append_assoc]
        exact isAbsolute_append hempty _
      have hno : (p.isEmpty || p.toList.getLast? == some '/') = false := by
        simp [hempty, hslash]
      rw [hno]
      refine ⟨p.segments, hjoin, rfl, habs, origin_congr habs ?_⟩
      simp only [Bool.false_eq_true, if_false]
      rw [hjoin, List.head?_append, List.head?_eq_some_head (segments_ne_nil p)]
      rfl

section Join

variable (p : Path) {name : String} (h : IsName name)

include h

theorem isPlain_join : (p.join name).IsPlain := by
  obtain ⟨front, hsegs, -⟩ := segments_join p h
  exact ⟨name, by rw [hsegs, List.getLast?_concat], h.busy⟩

theorem steps_join : (p.join name).steps = p.steps ++ [name] := by
  obtain ⟨front, hsegs, hfront, -⟩ := segments_join p h
  simp [steps, hsegs, hfront, h.busy]

theorem isAbsolute_join : (p.join name).isAbsolute = p.isAbsolute := by
  obtain ⟨front, -, -, habs, -⟩ := segments_join p h
  exact habs

theorem components_join : (p.join name).components = p.components ++ [.name name] := by
  obtain ⟨front, -, -, -, horigin⟩ := segments_join p h
  rw [components_eq, components_eq, steps_join p h, horigin, List.map_append, List.append_assoc]
  simp [Component.ofSegment, h.down]

end Join

/-! ## The end of a path -/

theorem IsPlain.ne_empty {p : Path} (h : p.IsPlain) : p ≠ "" := by
  rintro rfl
  obtain ⟨name, hlast, hbusy⟩ := h
  have hempty : segments "" = [""] := rfl
  rw [hempty, List.getLast?_singleton, Option.some.injEq] at hlast
  rw [← hlast] at hbusy
  exact absurd hbusy (by decide)

/-- No slash stands at the end of a path that is plain. -/
theorem IsPlain.getLast? {p : Path} (h : p.IsPlain) : p.toList.getLast? ≠ some '/' := by
  intro hslash
  obtain ⟨name, hlast, hbusy⟩ := h
  obtain ⟨cs, hcs⟩ := List.getLast?_eq_some_iff.1 hslash
  have hempty : p.segments.getLast? = some "" := by
    simp [segments, hcs, Text.splitOn_append, Text.splitOn]
  rw [hempty, Option.some.injEq] at hlast
  rw [← hlast] at hbusy
  exact absurd hbusy (by decide)

theorem IsPlain.endsInSlash {p : Path} (h : p.IsPlain) : FileSystem.endsInSlash p = false := by
  simpa [FileSystem.endsInSlash] using h.getLast?

theorem IsPlain.dropTrailingSlashes {p : Path} (h : p.IsPlain) :
    FileSystem.dropTrailingSlashes p = p := by
  have hlast := h.getLast?
  rw [← List.head?_reverse] at hlast
  unfold FileSystem.dropTrailingSlashes
  cases hrev : p.toList.reverse with
  | nil =>
      have hnil : p.toList = [] := by simpa using hrev
      rw [List.dropWhile_nil, List.reverse_nil, ← hnil, String.ofList_toList]
  | cons c rest =>
      rw [hrev] at hlast
      have hc : (c == '/') = false := by simpa using hlast
      rw [List.dropWhile_cons, hc, if_neg Bool.false_ne_true, ← hrev, List.reverse_reverse,
        String.ofList_toList]

end Path

/-! ## Locations as paths -/

/-- The text of a location is cut into the names that lead there. -/
theorem FileSystem.segments_pathOf {loc : Location} (hne : loc ≠ [])
    (h : ∀ name ∈ loc, '/' ∉ name.toList) : (pathOf loc).segments = "" :: loc := by
  have hsegs : Path.segments (String.intercalate "/" loc) = loc := by
    induction loc with
    | nil => exact absurd rfl hne
    | cons name rest ih =>
        have hname : Path.segments name = [name] := Path.segments_of_whole (h name (by simp))
        cases rest with
        | nil => simpa using hname
        | cons next rest =>
            rw [String.intercalate_cons_cons, Path.segments_append_slash, hname,
              ih (by simp) fun n hn => h n (List.mem_cons_of_mem _ hn)]
            rfl
  have hslash := Path.segments_append_slash "" (String.intercalate "/" loc)
  rw [String.empty_append, hsegs] at hslash
  exact hslash

theorem FileSystem.isAbsolute_pathOf (loc : Location) : (pathOf loc).isAbsolute = true := by
  unfold pathOf Path.isAbsolute
  rw [String.toList_append]
  rfl

theorem FileSystem.pathOf_ne_empty (loc : Location) : (pathOf loc).isEmpty = false := by
  have habs := isAbsolute_pathOf loc
  cases hempty : (pathOf loc).isEmpty with
  | false => rfl
  | true =>
      rw [String.isEmpty_iff] at hempty
      rw [hempty] at habs
      cases habs

end RuleScan
