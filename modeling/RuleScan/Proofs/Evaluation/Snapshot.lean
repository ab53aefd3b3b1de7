import RuleScan.Proofs.Evaluation.Forcing

/-!
# Snapshots of forced scopes

A snapshot goes through the frames from the outermost inwards and stores what has a value.  When
every frame is forced, all variables but those with a `$` in front have one.  So a rule adds to
the snapshot of the frames around it: its new names follow those that were there, in the order
of their declaration, and of a name that was there already only the value changes
(`Rule.Extends`).

## Main results

* `Scope.snapshot_cons` — a frame is stored over the snapshot of the frames around it.
* `extends_snapshot` — what the forced frame of a rule makes of a snapshot.
* `Rule.Extends.mem_keys` — whose names there are.
-/

namespace RuleScan

/-- The variables of a rule that are looked up in frames, in the order of their declaration. -/
def Rule.locals (r : Rule) : List String := r.vars.keys.filter fun name => Scope.IsLocal name

/-- The values `vars` are `outer` after the variables of a rule were added: new names come last,
in the order of their declaration, and names that the rule does not declare keep their values. -/
structure Rule.Extends (r : Rule) (outer vars : Table String Value) : Prop where
  keys : vars.keys = outer.keys ++ r.locals.filter fun name => name ∉ outer.keys
  inherited : ∀ name, name ∉ r.locals → vars.get? name = outer.get? name

theorem Rule.Extends.mem_keys {r : Rule} {outer vars : Table String Value}
    (h : r.Extends outer vars) {name : String} :
    name ∈ vars.keys ↔ name ∈ r.locals ∨ name ∈ outer.keys := by
  rw [h.keys, List.mem_append, List.mem_filter, decide_eq_true_eq]
  by_cases hname : name ∈ outer.keys <;> simp [hname]

namespace Scope

variable {f : Frame} {name : String}

/-- A frame is stored over the snapshot of the frames around it. -/
theorem snapshot_cons (f : Frame) (outer : List Frame) :
    snapshot ⟨f :: outer⟩ =
      (Frame.resolved f).foldl (fun t (name, v) => t.insert name v) (snapshot ⟨outer⟩) := by
  unfold snapshot Table.ofList
  rw [List.reverse_cons, List.flatMap_append, List.foldl_append, List.flatMap_singleton]

/-- In a forced frame, exactly the names that are looked up have values. -/
theorem map_fst_resolved (hf : f.IsForced) :
    (Frame.resolved f).map Prod.fst = f.bindings.keys.filter fun name => IsLocal name := by
  obtain ⟨value?, hresolved, hvalue, hnone⟩ :
      ∃ value? : String × Binding → Option (String × Value),
        Frame.resolved f = f.bindings.entries.filterMap value? ∧
          (∀ name v, value? (name, .resolved v) = some (name, v)) ∧
            ∀ name e, value? (name, .unevaluated e) = none :=
    ⟨_, rfl, fun _ _ => rfl, fun _ _ => rfl⟩
  have hentries : ∀ x ∈ f.bindings.entries, (IsLocal x.1 → ∃ v, x.2 = .resolved v) ∧
      (¬ IsLocal x.1 → ∃ e, x.2 = .unevaluated e) :=
    fun x hx => hf x.1 x.2 (Table.get?_of_mem hx)
  rw [hresolved, Table.keys]
  generalize f.bindings.entries = entries at hentries
  induction entries with
  | nil => rfl
  | cons entry rest ih =>
      obtain ⟨x, b⟩ := entry
      rw [List.forall_mem_cons] at hentries
      by_cases hlocal : IsLocal x
      · obtain ⟨v, rfl⟩ := hentries.1.1 hlocal
        simp [hvalue, hlocal, ih hentries.2]
      · obtain ⟨e, rfl⟩ := hentries.1.2 hlocal
        simp [hnone, hlocal, ih hentries.2]

end Scope

variable {g : Frame} {r : Rule} {outer : List Frame}

/-- The forced frame of a rule extends the snapshot of the frames around it. -/
theorem extends_snapshot (hg : g.IsForced) (hkeys : g.bindings.keys = r.vars.keys) :
    r.Extends (Scope.snapshot ⟨outer⟩) (Scope.snapshot ⟨g :: outer⟩) := by
  have hnames : (Scope.Frame.resolved g).map Prod.fst = r.locals := by
    rw [Scope.map_fst_resolved hg, hkeys, Rule.locals]
  rw [Scope.snapshot_cons]
  refine ⟨?_, fun name hname => ?_⟩
  · rw [Table.keys_foldl_insert (Scope.nodup_resolved g), hnames]
  · rw [← hnames, ← Table.findList_eq_none_iff] at hname
    rw [Table.get?_foldl_insert (Scope.nodup_resolved g), hname, Option.none_or]

end RuleScan
