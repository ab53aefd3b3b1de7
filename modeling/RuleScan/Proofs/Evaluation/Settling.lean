import RuleScan.Scope
import Mathlib.Data.List.Forall2

/-!
# Settling of scopes

While a frame lives, a binding changes at most once for good: from its expression to the
value of that expression.  `Scope.Settles s t` says that `t` has the frames of `s`, for
the same rules and with the same names in the same order, and that every binding of `t`
is the one of `s` or the value that it was resolved to.

A binding is in progress meanwhile.  That is no settling, but it is undone: if a scope
settles after a binding was marked, and the mark is then replaced by the expression or by
a value, the scope has settled from before the mark (`Settles.of_marked`).

## Main results

* `Settles.refl`, `Settles.trans` — settling is a preorder.
* `lookup_replaceAt` — what is written where a name was found is found there.
* `Settles.lookup` — a name is found in the same frame as before.
* `Settles.of_marked` — marking a binding and settling it in the end.
-/

namespace RuleScan

/-- What may become of a binding while its frame lives. -/
inductive Binding.Settles : Binding → Binding → Prop
  | same (b : Binding) : Settles b b
  | resolved (e : Expr) (v : Value) : Settles (.unevaluated e) (.resolved v)

theorem Binding.Settles.trans {a b c : Binding} (h : a.Settles b) (h' : b.Settles c) :
    a.Settles c := by
  cases h with
  | same => exact h'
  | resolved e v =>
      cases h'
      exact .resolved e v

/-- The second frame is the first one after some of its bindings have been resolved. -/
structure Frame.Settles (f g : Frame) : Prop where
  rule : g.rule = f.rule
  names : g.bindings.keys = f.bindings.keys
  bindings : ∀ {name b}, f.bindings.get? name = some b →
    ∃ c, g.bindings.get? name = some c ∧ b.Settles c

namespace Frame.Settles

variable {f g h : Frame}

theorem refl (f : Frame) : f.Settles f := ⟨rfl, rfl, fun hb => ⟨_, hb, .same _⟩⟩

theorem trans (hfg : f.Settles g) (hgh : g.Settles h) : f.Settles h where
  rule := hgh.rule.trans hfg.rule
  names := hgh.names.trans hfg.names
  bindings := by
    intro name b hb
    obtain ⟨c, hc, hbc⟩ := hfg.bindings hb
    obtain ⟨d, hd, hcd⟩ := hgh.bindings hc
    exact ⟨d, hd, hbc.trans hcd⟩

theorem get?_none (hfg : f.Settles g) {name : String} (hn : f.bindings.get? name = none) :
    g.bindings.get? name = none := by
  rw [Table.get?_eq_none_iff] at hn ⊢
  rwa [hfg.names]

/-- A mark put on one binding and replaced in the end by what the binding may become. -/
theorem of_marked {name : String} {e : Expr} {b : Binding}
    (hu : f.bindings.get? name = some (.unevaluated e))
    (hg : Frame.Settles { f with bindings := f.bindings.replace name .inProgress } g)
    (hb : (Binding.unevaluated e).Settles b) :
    f.Settles { g with bindings := g.bindings.replace name b } where
  rule := hg.rule
  names := by simpa using hg.names
  bindings := by
    intro x c hc
    have hx := Table.get?_replace f.bindings name .inProgress x
    rw [hc] at hx
    obtain ⟨d, hd, hcd⟩ := hg.bindings hx
    refine ⟨if x = name then b else d, by simp [Table.get?_replace, hd], ?_⟩
    by_cases h : x = name
    · subst h
      rw [hu, Option.some.injEq] at hc
      simpa [← hc] using hb
    · simpa [h] using hcd

end Frame.Settles

namespace Scope

/-- The second scope is the first one after some of its bindings have been resolved. -/
def Settles (s t : Scope) : Prop := List.Forall₂ Frame.Settles s.frames t.frames

theorem lookupIn_lt {name : String} {level : Nat} {b : Binding} {fs : List Frame}
    (h : lookupIn name fs = some (level, b)) : level < fs.length := by
  induction fs with
  | nil => cases h
  | cons f outer ih =>
      unfold lookupIn at h
      split at h
      · simp only [Option.some.injEq, Prod.mk.injEq] at h
        simp [← h.1]
      · exact Nat.lt_succ_of_lt (ih h)

private theorem lookupIn_replaceIn {name : String} {level : Nat} {b : Binding} (c : Binding)
    {fs : List Frame} (h : lookupIn name fs = some (level, b)) :
    lookupIn name (replaceIn level name c fs) = some (level, c) := by
  induction fs with
  | nil => cases h
  | cons f outer ih =>
      unfold lookupIn at h
      split at h
      · next d hd =>
          simp only [Option.some.injEq, Prod.mk.injEq] at h
          rw [replaceIn, if_pos h.1, lookupIn, Table.get?_replace, hd]
          simp [h.1]
      · next hd =>
          rw [replaceIn, if_neg (Nat.ne_of_gt (lookupIn_lt h)), lookupIn, hd]
          exact ih h

/-- The binding that a name leads to can be overwritten where it was found. -/
theorem lookup_replaceAt {s : Scope} {name : String} {level : Nat} {b : Binding} (c : Binding)
    (h : s.lookup name = some (level, b)) :
    (s.replaceAt level name c).lookup name = some (level, c) :=
  lookupIn_replaceIn c h

/-- Frames after a binding was overwritten bind what was bound before, or the new binding. -/
theorem get?_of_mem_replaceIn {level : Nat} {name x : String} {b c : Binding} {fs : List Frame}
    {f : Frame} (hf : f ∈ replaceIn level name b fs) (hc : f.bindings.get? x = some c) :
    c = b ∨ ∃ g ∈ fs, g.bindings.get? x = some c := by
  induction fs with
  | nil => cases hf
  | cons g outer ih =>
      unfold replaceIn at hf
      split at hf
      · rcases List.mem_cons.1 hf with rfl | hf
        · rw [Table.get?_replace] at hc
          obtain ⟨d, hd, rfl⟩ := Option.map_eq_some_iff.1 hc
          split
          · exact Or.inl rfl
          · exact Or.inr ⟨g, List.mem_cons_self, hd⟩
        · exact Or.inr ⟨f, List.mem_cons_of_mem _ hf, hc⟩
      · rcases List.mem_cons.1 hf with rfl | hf
        · exact Or.inr ⟨f, List.mem_cons_self, hc⟩
        · obtain hb | ⟨g', hg', hget⟩ := ih hf
          · exact Or.inl hb
          · exact Or.inr ⟨g', List.mem_cons_of_mem _ hg', hget⟩

theorem exists_of_lookupIn {name : String} {level : Nat} {b : Binding} {fs : List Frame}
    (h : lookupIn name fs = some (level, b)) :
    ∃ f ∈ fs, f.bindings.get? name = some b := by
  induction fs with
  | nil => cases h
  | cons f outer ih =>
      unfold lookupIn at h
      split at h
      · next hb =>
        cases h
        exact ⟨f, List.mem_cons_self, hb⟩
      · obtain ⟨g, hg, hget⟩ := ih h
        exact ⟨g, List.mem_cons_of_mem _ hg, hget⟩

/-- Every expression that is left to be evaluated satisfies the predicate. -/
def Awaits (P : Expr → Prop) (s : Scope) : Prop :=
  ∀ f ∈ s.frames, ∀ name e, f.bindings.get? name = some (.unevaluated e) → P e

namespace Awaits

variable {P : Expr → Prop} {s : Scope}

theorem of_lookup (h : s.Awaits P) {name : String} {level : Nat} {e : Expr}
    (hl : s.lookup name = some (level, .unevaluated e)) : P e := by
  obtain ⟨f, hf, hget⟩ := exists_of_lookupIn hl
  exact h f hf name e hget

/-- A binding may be overwritten by anything but an expression without the property. -/
theorem replaceAt (h : s.Awaits P) (level : Nat) (name : String) {b : Binding}
    (hb : ∀ e, b = .unevaluated e → P e) : (s.replaceAt level name b).Awaits P := by
  intro f hf x e he
  obtain heq | ⟨g, hg, hget⟩ := get?_of_mem_replaceIn hf he
  · exact hb e heq.symm
  · exact h g hg x e hget

theorem push (h : s.Awaits P) (rule : RuleId) {vars : Table String Expr}
    (hvars : ∀ x ∈ vars.entries, P x.2) : (s.push rule vars.entries).Awaits P := by
  obtain ⟨g, hframes, hget⟩ := s.exists_frame_push rule vars
  intro f hf name e he
  rw [hframes] at hf
  rcases List.mem_cons.1 hf with rfl | hf
  · rw [hget, Option.map_eq_some_iff] at he
    obtain ⟨d, hd, hde⟩ := he
    cases hde
    exact hvars (name, e) (Table.mem_of_get? hd)
  · exact h f hf name e he

theorem pop (h : s.Awaits P) : s.pop.Awaits P :=
  fun f hf => h f (List.mem_of_mem_tail hf)

end Awaits

namespace Settles

variable {s t u : Scope}

theorem refl (s : Scope) : s.Settles s := by
  unfold Settles
  induction s.frames with
  | nil => exact .nil
  | cons f outer ih => exact .cons (.refl f) ih

private theorem trans_frames {fs gs hs : List Frame} (h : List.Forall₂ Frame.Settles fs gs)
    (h' : List.Forall₂ Frame.Settles gs hs) : List.Forall₂ Frame.Settles fs hs := by
  induction h generalizing hs with
  | nil =>
      cases h'
      exact .nil
  | cons hf _ ih =>
      cases h' with
      | cons hg hrest => exact .cons (hf.trans hg) (ih hrest)

theorem trans (h : s.Settles t) (h' : t.Settles u) : s.Settles u := trans_frames h h'

private theorem lookup_frames {name : String} {level : Nat} {b : Binding} {fs gs : List Frame}
    (h : List.Forall₂ Frame.Settles fs gs) (hl : lookupIn name fs = some (level, b)) :
    ∃ c, lookupIn name gs = some (level, c) ∧ b.Settles c := by
  induction h with
  | nil => cases hl
  | @cons f g outer outer' hf hrest ih =>
      unfold lookupIn at hl ⊢
      cases hb : f.bindings.get? name with
      | none =>
          rw [hb] at hl
          simpa only [hf.get?_none hb] using ih hl
      | some d =>
          rw [hb] at hl
          obtain ⟨c, hc, hdc⟩ := hf.bindings hb
          simp only [Option.some.injEq, Prod.mk.injEq] at hl
          obtain ⟨rfl, rfl⟩ := hl
          exact ⟨c, by simp only [hc, hrest.length_eq], hdc⟩

/-- A name is found in the frame in which it was found, with what became of its binding. -/
theorem lookup (h : s.Settles t) {name : String} {level : Nat} {b : Binding}
    (hl : s.lookup name = some (level, b)) :
    ∃ c, t.lookup name = some (level, c) ∧ b.Settles c :=
  lookup_frames h hl

private theorem of_marked_frames {name : String} {level : Nat} {e : Expr} {b : Binding}
    {fs gs : List Frame} (hl : lookupIn name fs = some (level, .unevaluated e))
    (h : List.Forall₂ Frame.Settles (replaceIn level name .inProgress fs) gs)
    (hb : (Binding.unevaluated e).Settles b) :
    List.Forall₂ Frame.Settles fs (replaceIn level name b gs) := by
  induction fs generalizing gs with
  | nil => cases hl
  | cons f outer ih =>
      unfold lookupIn at hl
      unfold replaceIn at h
      split at hl
      · next d hd =>
          simp only [Option.some.injEq, Prod.mk.injEq] at hl
          obtain ⟨rfl, rfl⟩ := hl
          rw [if_pos rfl] at h
          cases h with
          | cons hf hrest =>
              rw [replaceIn, if_pos hrest.length_eq.symm]
              exact .cons (Frame.Settles.of_marked hd hf hb) hrest
      · have hne : outer.length ≠ level := Nat.ne_of_gt (lookupIn_lt hl)
        rw [if_neg hne] at h
        cases h with
        | cons hf hrest =>
            have hlen := hrest.length_eq
            rw [length_replaceIn] at hlen
            rw [replaceIn, if_neg (hlen ▸ hne)]
            exact .cons hf (ih hl hrest)

/-- A scope that settles under a mark has settled without it once the mark is replaced. -/
theorem of_marked {name : String} {level : Nat} {e : Expr} {b : Binding}
    (hl : s.lookup name = some (level, .unevaluated e))
    (h : (s.replaceAt level name .inProgress).Settles t)
    (hb : (Binding.unevaluated e).Settles b) : s.Settles (t.replaceAt level name b) :=
  of_marked_frames hl h hb

end Settles

end Scope

end RuleScan
