import RuleScan.Proofs.Evaluation.Builtin
import RuleScan.Proofs.Evaluation.Invariant
import RuleScan.Proofs.Evaluation.Settling

/-!
# How the variables of a rule get their values

A rule that is evaluated has a frame of its own on top of frames all of whose variables have
values.  Whatever is evaluated then, be it a condition, a variable or an argument of an
operator, only that frame changes, and each of its bindings changes at most once: from the
expression that was declared to the value that this expression came to.  When the rule has
evaluated the variables that no one needed before, its own frame is like the others, and
from then on nothing changes any more.

Names that start with `$` are never looked up in frames.  A variable declared under such a name
keeps its expression, and a frame with such a variable counts as forced all the same.

What an operator does with the evaluation that calls it is up to the operator.  It can get at
the scope by looking names up and in no other way (`Registry.IsTame`).

## Main results

* `Advances.trans`, `Advances.of_marked` — a frame advances step by step, also below a mark.
* `Site.maintains_evaluateWithin` — evaluation advances the frame of the rule and no other.
* `Site.exists_forced` — the frame of a rule whose variables have all been evaluated is forced.
* `Site.maintains_fits` — where every frame is forced, evaluation changes none.
-/

namespace RuleScan

open Step

/-! ## Operators -/

/--
The operators leave a condition on the globals and the current file alone, and they change the
scope only by looking names up: what a name that is looked up maintains, they maintain.
-/
def Registry.IsTame (operators : Registry) (known : Register → Source → Prop) : Prop :=
  ∀ name op, operators.get? name = some op →
    ∀ (host : Host) (args : List Value) (m : Register) (P : Scope → Prop),
      (∀ x, Maintains (fun s => known s.globals s.source ∧ P s.scope) (host.resolve x)) →
        Maintains (fun s => known s.globals s.source ∧ P s.scope) (op.run host args m)

/-- The built-in operators change nothing of all that. -/
theorem Registry.isTame_builtins (known : Register → Source → Prop) :
    Registry.builtins.IsTame known := by
  intro name op hop host args m P _ s hs
  have hview := Builtin.sameView_builtins hop host args m s
  rwa [hview.globals, hview.source, hview.scope]

/-! ## Frames -/

/-- The name is one that is looked up in frames. -/
def Scope.IsLocal (name : String) : Prop := name.toList.head? ≠ some '$'

instance : DecidablePred Scope.IsLocal :=
  fun name => inferInstanceAs (Decidable (name.toList.head? ≠ some '$'))

/-- Every variable has a value, but for those that are never looked up. -/
def Frame.IsForced (f : Frame) : Prop :=
  ∀ name b, f.bindings.get? name = some b →
    (Scope.IsLocal name → ∃ v, b = .resolved v) ∧
      (¬ Scope.IsLocal name → ∃ e, b = .unevaluated e)

/-- The frame in which a rule starts. -/
def Rule.frame (r : Rule) (i : RuleId) : Frame := ⟨i, r.vars.mapValues .unevaluated⟩

theorem Rule.get?_frame (r : Rule) (i : RuleId) (name : String) :
    (r.frame i).bindings.get? name = (r.vars.get? name).map .unevaluated :=
  Table.findList_map _ name r.vars.entries

theorem Scope.push_vars (s : Scope) (i : RuleId) (r : Rule) :
    s.push i r.vars.entries = ⟨r.frame i :: s.frames⟩ :=
  congrArg (fun bindings => Scope.mk (⟨i, bindings⟩ :: s.frames))
    (Table.ofList_entries (r.vars.mapValues Binding.unevaluated))

/-- The third frame may be met while the first one becomes the second: a binding of it is in
progress, or it is one of the first frame, or already one of the second. -/
structure Frame.Between (f g h : Frame) : Prop where
  rule : h.rule = f.rule
  names : h.bindings.keys = f.bindings.keys
  bindings : ∀ {name b}, h.bindings.get? name = some b →
    b = .inProgress ∨ f.bindings.get? name = some b ∨ g.bindings.get? name = some b

/-! ## Where a rule is evaluated -/

/-- A place where rules are evaluated: what is known of the globals and the current file, and
the frames that are there. -/
structure Site where
  env : Environment
  limit : Nat
  known : Register → Source → Prop
  frames : List Frame

namespace Site

variable {σ : Site} {f g h : Frame} {name : String} {e : Expr} {v : Value}

/-- The place within another frame. -/
def inside (σ : Site) (f : Frame) : Site := { σ with frames := f :: σ.frames }

/-- The session is at the place. -/
def Fits (σ : Site) (s : Session) : Prop :=
  σ.known s.globals s.source ∧ s.scope.frames = σ.frames

/-- Every frame at the place is forced. -/
def IsForced (σ : Site) : Prop := ∀ f ∈ σ.frames, f.IsForced

/-- The expression came to the value at the place while the frame `f` in it became `g`. -/
def CameTo (σ : Site) (f g : Frame) (e : Expr) (v : Value) : Prop :=
  ∃ budget h s s', f.Between g h ∧ (σ.inside h).Fits s ∧
    σ.env.evaluateWithin σ.limit budget e s = .ok v s'

theorem CameTo.mono {f' g' : Frame} (hmet : ∀ h, f.Between g h → f'.Between g' h)
    (hv : σ.CameTo f g e v) : σ.CameTo f' g' e v := by
  obtain ⟨budget, h, s, s', hbetween, hrun⟩ := hv
  exact ⟨budget, h, s, s', hmet h hbetween, hrun⟩

/-- The second frame is the first one after some of its variables were evaluated at the
place. -/
structure Advances (σ : Site) (f g : Frame) : Prop where
  rule : g.rule = f.rule
  names : g.bindings.keys = f.bindings.keys
  bindings : ∀ {name b}, f.bindings.get? name = some b → g.bindings.get? name = some b ∨
    Scope.IsLocal name ∧ ∃ e v, b = .unevaluated e ∧
      g.bindings.get? name = some (.resolved v) ∧ σ.CameTo f g e v

namespace Advances

theorem refl (σ : Site) (f : Frame) : σ.Advances f f := ⟨rfl, rfl, Or.inl⟩

/-- What has a value keeps it. -/
theorem resolved (hfg : σ.Advances f g) (hf : f.bindings.get? name = some (.resolved v)) :
    g.bindings.get? name = some (.resolved v) := by
  obtain hg | ⟨-, e, w, hb, -⟩ := hfg.bindings hf
  · exact hg
  · cases hb

theorem inProgress (hfg : σ.Advances f g) (hf : f.bindings.get? name = some .inProgress) :
    g.bindings.get? name = some .inProgress := by
  obtain hg | ⟨-, e, w, hb, -⟩ := hfg.bindings hf
  · exact hg
  · cases hb

/-- A name that is bound later was bound before. -/
theorem exists_get? (hfg : σ.Advances f g) {b : Binding}
    (hg : g.bindings.get? name = some b) : ∃ c, f.bindings.get? name = some c := by
  cases hf : f.bindings.get? name with
  | some c => exact ⟨c, rfl⟩
  | none =>
      rw [Table.get?_eq_none_iff, ← hfg.names, ← Table.get?_eq_none_iff, hg] at hf
      cases hf

/-- A binding changes once, so what it is in the middle it is at the start or in the end. -/
theorem start_or_end {k : Frame} (hfg : σ.Advances f g) (hgk : σ.Advances g k) {b : Binding}
    (hg : g.bindings.get? name = some b) :
    f.bindings.get? name = some b ∨ k.bindings.get? name = some b := by
  obtain ⟨c, hf⟩ := hfg.exists_get? hg
  obtain hsame | ⟨-, e, v, -, hv, -⟩ := hfg.bindings hf
  · rw [hg] at hsame
    exact Or.inl (hf.trans hsame.symm)
  · rw [hg, Option.some.injEq] at hv
    exact Or.inr (hgk.resolved (hv ▸ hg) |>.trans (congrArg some hv.symm))

/-- What is met on the first part of the way is met on the whole of it. -/
theorem between_left {k : Frame} (hfg : σ.Advances f g) (hgk : σ.Advances g k)
    (h' : f.Between g h) : f.Between k h where
  rule := h'.rule
  names := h'.names
  bindings hb := by
    obtain hmark | hf | hg := h'.bindings hb
    · exact Or.inl hmark
    · exact Or.inr (Or.inl hf)
    · exact Or.inr (hfg.start_or_end hgk hg)

/-- What is met on the second part of the way is met on the whole of it. -/
theorem between_right {k : Frame} (hfg : σ.Advances f g) (hgk : σ.Advances g k)
    (h' : g.Between k h) : f.Between k h where
  rule := h'.rule.trans hfg.rule
  names := h'.names.trans hfg.names
  bindings hb := by
    obtain hmark | hg | hk := h'.bindings hb
    · exact Or.inl hmark
    · exact Or.inr (hfg.start_or_end hgk hg)
    · exact Or.inr (Or.inr hk)

theorem trans {k : Frame} (hfg : σ.Advances f g) (hgk : σ.Advances g k) : σ.Advances f k where
  rule := hgk.rule.trans hfg.rule
  names := hgk.names.trans hfg.names
  bindings := by
    intro name b hf
    obtain hg | ⟨hname, e, v, rfl, hg, hv⟩ := hfg.bindings hf
    · obtain hk | ⟨hname, e, v, rfl, hk, hv⟩ := hgk.bindings hg
      · exact Or.inl hk
      · exact Or.inr ⟨hname, e, v, rfl, hk, hv.mono fun _ => hfg.between_right hgk⟩
    · exact Or.inr ⟨hname, e, v, rfl, hgk.resolved hg, hv.mono fun _ => hfg.between_left hgk⟩

/-- What is met below a mark is met while the marked binding becomes another one. -/
theorem between_of_marked {b : Binding}
    (hg : σ.Advances { f with bindings := f.bindings.replace name .inProgress } g)
    (hmet : Frame.Between { f with bindings := f.bindings.replace name .inProgress } g h) :
    f.Between { g with bindings := g.bindings.replace name b } h where
  rule := hmet.rule
  names := by simpa using hmet.names
  bindings := by
    intro x c hc
    obtain hmark | hf | hx := hmet.bindings hc
    · exact Or.inl hmark
    · rw [Table.get?_replace, Option.map_eq_some_iff] at hf
      obtain ⟨d, hd, hdc⟩ := hf
      split at hdc
      · exact Or.inl hdc.symm
      · exact Or.inr (Or.inl (hdc ▸ hd))
    · by_cases hxn : x = name
      · subst hxn
        obtain ⟨d, hd⟩ := hg.exists_get? hx
        rw [Table.get?_replace, Option.map_eq_some_iff] at hd
        obtain ⟨d', hd', -⟩ := hd
        have hmarked : g.bindings.get? x = some .inProgress :=
          hg.inProgress (by simp [Table.get?_replace, hd'])
        rw [hx, Option.some.injEq] at hmarked
        exact Or.inl hmarked
      · exact Or.inr (Or.inr (by simp [Table.get?_replace, hx, hxn]))

/-- A binding is marked, and in the end the mark is replaced by the expression that stood there
or by the value that it came to meanwhile. -/
theorem of_marked {b : Binding} (hu : f.bindings.get? name = some (.unevaluated e))
    (hg : σ.Advances { f with bindings := f.bindings.replace name .inProgress } g)
    (hb : b = .unevaluated e ∨ Scope.IsLocal name ∧ ∃ v budget s s', b = .resolved v ∧
      (σ.inside { f with bindings := f.bindings.replace name .inProgress }).Fits s ∧
      σ.env.evaluateWithin σ.limit budget e s = .ok v s') :
    σ.Advances f { g with bindings := g.bindings.replace name b } where
  rule := hg.rule
  names := by simpa using hg.names
  bindings := by
    intro x c hc
    have hx := Table.get?_replace f.bindings name .inProgress x
    rw [hc] at hx
    by_cases hxn : x = name
    · subst hxn
      rw [hu, Option.some.injEq] at hc
      simp only [Option.map_some, if_true] at hx
      have hset : (g.bindings.replace x b).get? x = some b := by
        simp [Table.get?_replace, hg.inProgress hx]
      obtain rfl | ⟨hname, v, budget, s, s', rfl, hfits, hv⟩ := hb
      · exact Or.inl (hset.trans (congrArg some hc))
      · have hmet := hg.between_of_marked (b := .resolved v)
          ⟨rfl, rfl, fun hb => Or.inr (Or.inl hb)⟩
        exact Or.inr ⟨hname, e, v, hc.symm, hset, budget, _, s, s', hmet, hfits, hv⟩
    · simp only [Option.map_some, hxn, if_false] at hx
      obtain hsame | ⟨hname, d, w, rfl, hw, hv⟩ := hg.bindings hx
      · exact Or.inl (by simp [Table.get?_replace, hsame, hxn])
      · exact Or.inr ⟨hname, d, w, rfl, by simp [Table.get?_replace, hw, hxn],
          hv.mono fun _ => hg.between_of_marked⟩

/-- A frame in which there is nothing left to be evaluated stays as it is. -/
theorem eq_of_isForced (hfg : σ.Advances f g) (hf : f.IsForced) : g = f := by
  have hget : ∀ name, g.bindings.get? name = f.bindings.get? name := by
    intro name
    cases hb : f.bindings.get? name with
    | none => rwa [Table.get?_eq_none_iff, hfg.names, ← Table.get?_eq_none_iff]
    | some b =>
        obtain hg | ⟨hname, e, v, rfl, -, -⟩ := hfg.bindings hb
        · exact hg
        · obtain ⟨w, hw⟩ := (hf name _ hb).1 hname
          cases hw
  have hbindings := Table.ext_get? hfg.names hget
  have hrule := hfg.rule
  cases f
  cases g
  cases hrule
  cases hbindings
  rfl

/-- The frame of a rule is forced when its variables that are looked up have values: the others
have never been touched. -/
theorem isForced {r : Rule} {i : RuleId} (hg : σ.Advances (r.frame i) g)
    (hall : ∀ name ∈ r.vars.keys, Scope.IsLocal name →
      ∃ v, g.bindings.get? name = some (.resolved v)) : g.IsForced := by
  intro name b hb
  obtain ⟨c, hc⟩ := hg.exists_get? hb
  have hstart := hc
  rw [Rule.get?_frame, Option.map_eq_some_iff] at hstart
  obtain ⟨e, he, rfl⟩ := hstart
  refine ⟨fun hname => ?_, fun hname => ?_⟩
  · obtain ⟨v, hv⟩ := hall name (List.mem_map_of_mem (Table.mem_of_get? he)) hname
    rw [hb, Option.some.injEq] at hv
    exact ⟨v, hv⟩
  · obtain hsame | ⟨hlocal, -⟩ := hg.bindings hc
    · rw [hb, Option.some.injEq] at hsame
      exact ⟨e, hsame⟩
    · exact absurd hlocal hname

end Advances

/-! ## Evaluation advances the frame of the rule -/

/-- Evaluation at the place has brought the frame as far as it is in the session. -/
def Reached (σ : Site) (f : Frame) (s : Session) : Prop :=
  σ.known s.globals s.source ∧ ∃ g, σ.Advances f g ∧ s.scope.frames = g :: σ.frames

variable {s t : Session} {budget : Nat}

theorem reached_iff : σ.Reached f s ↔ ∃ g, σ.Advances f g ∧ (σ.inside g).Fits s :=
  ⟨fun ⟨hknown, g, hfg, hframes⟩ => ⟨g, hfg, hknown, hframes⟩,
    fun ⟨g, hfg, hknown, hframes⟩ => ⟨hknown, g, hfg, hframes⟩⟩

theorem reached_self (h : (σ.inside f).Fits s) : σ.Reached f s := ⟨h.1, f, .refl σ f, h.2⟩

theorem Fits.replaceAt (h : (σ.inside f).Fits s) (name : String) (b : Binding) :
    (σ.inside { f with bindings := f.bindings.replace name b }).Fits
      { s with scope := s.scope.replaceAt σ.frames.length name b } := by
  refine ⟨h.1, ?_⟩
  simp [Scope.replaceAt, h.2, inside, Scope.replaceIn]

/-- A name that leads to an expression leads to a variable of the rule itself. -/
theorem Fits.of_lookup (h : (σ.inside f).Fits s) (hσ : σ.IsForced) (hname : Scope.IsLocal name)
    {level : Nat} (hl : s.scope.lookup name = some (level, .unevaluated e)) :
    level = σ.frames.length ∧ f.bindings.get? name = some (.unevaluated e) := by
  rw [Scope.lookup, h.2] at hl
  unfold inside Scope.lookupIn at hl
  split at hl
  · next b hb =>
    cases hl
    exact ⟨rfl, hb⟩
  · obtain ⟨g, hg, hget⟩ := Scope.exists_of_lookupIn hl
    obtain ⟨v, hv⟩ := (hσ g hg name _ hget).1 hname
    cases hv

section Evaluation

variable (hσ : σ.IsForced)

include hσ

/-- The frame advances by one variable, and by those that this one needs. -/
theorem reached_settle
    (heval : ∀ f, Maintains (σ.Reached f) (σ.env.evaluateWithin σ.limit budget e))
    (hs : σ.Reached f s) (hname : Scope.IsLocal name) {level : Nat}
    (hl : s.scope.lookup name = some (level, .unevaluated e)) :
    σ.Reached f
      ((Environment.settle (σ.env.evaluateWithin σ.limit budget) level name e).after s) := by
  rw [reached_iff] at hs ⊢
  obtain ⟨g, hfg, hfits⟩ := hs
  obtain ⟨rfl, hg⟩ := hfits.of_lookup hσ hname hl
  have hmarked := hfits.replaceAt name .inProgress
  obtain ⟨k, hgk, hk⟩ := reached_iff.1 (heval _ _ (reached_self hmarked))
  cases hr : σ.env.evaluateWithin σ.limit budget e
      { s with scope := s.scope.replaceAt σ.frames.length name .inProgress } with
  | ok v u =>
      rw [after_of_ok hr] at hk
      rw [after_of_ok (Environment.settle_ok hr)]
      refine ⟨_, hfg.trans (.of_marked hg hgk ?_), hk.replaceAt name (.resolved v)⟩
      exact Or.inr ⟨hname, v, budget, _, u, rfl, hmarked, hr⟩
  | error cause u =>
      rw [after_of_error hr] at hk
      rw [after_of_error (Environment.settle_error hr)]
      exact ⟨_, hfg.trans (.of_marked hg hgk (Or.inl rfl)), hk.replaceAt name (.unevaluated e)⟩

theorem maintains_resolveWith
    (heval : ∀ e f, Maintains (σ.Reached f) (σ.env.evaluateWithin σ.limit budget e))
    (name : String) (f : Frame) :
    Maintains (σ.Reached f)
      (Environment.resolveWith (σ.env.evaluateWithin σ.limit budget) name) :=
  Environment.maintains_resolveWith fun _ _ e hs hname hl =>
    reached_settle hσ (heval e) hs hname hl

variable (hops : σ.env.operators.IsTame σ.known)

include hops

/-- The induction is on the budget; the frame is not fixed, since a variable is evaluated with
its binding marked. -/
theorem maintains_evaluateWithin (budget : Nat) (e : Expr) (f : Frame) :
    Maintains (σ.Reached f) (σ.env.evaluateWithin σ.limit budget e) := by
  induction budget generalizing e f with
  | zero => exact maintains_throw _
  | succ budget ih =>
      have hname := maintains_resolveWith hσ ih
      have hcall : ∀ name values m, Maintains (σ.Reached f)
          (σ.env.call (Environment.resolveWith (σ.env.evaluateWithin σ.limit budget)) name values
            m) :=
        fun name values m => (composable_maintains _).call (fun op hop args m =>
          hops name op hop _ args m
            (fun scope => ∃ g, σ.Advances f g ∧ scope.frames = g :: σ.frames)
            fun x => hname x f) values m
      have hnode : Maintains (σ.Reached f)
          (σ.env.evaluateNode (σ.env.evaluateWithin σ.limit budget) e) :=
        (composable_maintains _).evaluateNode (fun x _ => ih x f) (fun name _ => hname name f)
          fun name _ m values _ => hcall name values m
      exact maintains_nested fun s hs => hnode { s with depth := s.depth + 1 } hs

/-- A variable of the rule that could be evaluated has a value. -/
theorem exists_resolved {b : Binding} (hs : (σ.inside f).Fits s) (hname : Scope.IsLocal name)
    (hb : f.bindings.get? name = some b)
    (h : Environment.resolveWith (σ.env.evaluateWithin σ.limit budget) name s = .ok v t) :
    ∃ g w, σ.Advances f g ∧ (σ.inside g).Fits t ∧ g.bindings.get? name = some (.resolved w) := by
  have hl : s.scope.lookup name = some (σ.frames.length, b) := by
    simp [Scope.lookup, hs.2, inside, Scope.lookupIn, hb]
  cases b with
  | inProgress =>
      rw [Environment.resolveWith_inProgress hname hl] at h
      cases h
  | resolved w =>
      rw [Environment.resolveWith_resolved hname hl] at h
      cases h
      exact ⟨f, v, .refl σ f, hs, hb⟩
  | unevaluated e =>
      rw [Environment.resolveWith_unevaluated hname hl] at h
      have hmarked := hs.replaceAt name .inProgress
      obtain ⟨g, hfg, hg⟩ :=
        reached_iff.1 (maintains_evaluateWithin hσ hops budget e _ _ (reached_self hmarked))
      cases hr : σ.env.evaluateWithin σ.limit budget e
          { s with scope := s.scope.replaceAt σ.frames.length name .inProgress } with
      | error cause u =>
          rw [Environment.settle_error hr] at h
          cases h
      | ok w u =>
          rw [after_of_ok hr] at hg
          rw [Environment.settle_ok hr] at h
          cases h
          have hstill : g.bindings.get? name = some .inProgress :=
            hfg.inProgress (by simp [Table.get?_replace, hb])
          exact ⟨_, v, .of_marked hb hfg (Or.inr ⟨hname, v, budget, _, u, rfl, hmarked, hr⟩),
            hg.replaceAt name (.resolved v), by simp [Table.get?_replace, hstill]⟩

/-- The induction is on the names; what one of them has is kept while the others follow. -/
theorem exists_forceAll {names : List String} (hs : (σ.inside f).Fits s)
    (hbound : ∀ name ∈ names, name ∈ f.bindings.keys)
    (h : Environment.forceAll (σ.env.evaluateWithin σ.limit budget) names s = .ok () t) :
    ∃ g, σ.Advances f g ∧ (σ.inside g).Fits t ∧
      ∀ name ∈ names, Scope.IsLocal name → ∃ v, g.bindings.get? name = some (.resolved v) := by
  induction names generalizing f s with
  | nil =>
      cases h
      exact ⟨f, .refl σ f, hs, fun name hname => nomatch hname⟩
  | cons name rest ih =>
      rw [List.forall_mem_cons] at hbound
      cases hr : Environment.resolveWith (σ.env.evaluateWithin σ.limit budget) name s with
      | error cause u =>
          rw [Environment.forceAll, bind_of_error hr] at h
          cases h
      | ok v u =>
          rw [Environment.forceAll, bind_of_ok hr] at h
          have hstep : ∃ k, σ.Advances f k ∧ (σ.inside k).Fits u ∧
              (Scope.IsLocal name → ∃ w, k.bindings.get? name = some (.resolved w)) := by
            by_cases hname : Scope.IsLocal name
            · obtain ⟨b, hb⟩ : ∃ b, f.bindings.get? name = some b := by
                rw [← Option.ne_none_iff_exists', Ne, Table.get?_eq_none_iff, not_not]
                exact hbound.1
              obtain ⟨k, w, hfk, hk, hw⟩ := exists_resolved hσ hops hs hname hb hr
              exact ⟨k, hfk, hk, fun _ => ⟨w, hw⟩⟩
            · obtain ⟨k, hfk, hk⟩ := reached_iff.1 (maintains_resolveWith hσ
                (maintains_evaluateWithin hσ hops budget) name f s (reached_self hs))
              rw [after_of_ok hr] at hk
              exact ⟨k, hfk, hk, fun hlocal => absurd hlocal hname⟩
          obtain ⟨k, hfk, hk, hvalue⟩ := hstep
          obtain ⟨g, hkg, hg, hrest⟩ := ih hk (hfk.names ▸ hbound.2) h
          refine ⟨g, hfk.trans hkg, hg, List.forall_mem_cons.2 ⟨fun hname => ?_, hrest⟩⟩
          obtain ⟨w, hw⟩ := hvalue hname
          exact ⟨w, hkg.resolved hw⟩

/-- When the variables of a rule have been evaluated its frame is forced. -/
theorem exists_forced {r : Rule} {i : RuleId} (hs : σ.Reached (r.frame i) s)
    (h : Environment.forceAll (σ.env.evaluateWithin σ.limit budget) r.vars.keys s = .ok () t) :
    ∃ g, σ.Advances (r.frame i) g ∧ g.IsForced ∧ (σ.inside g).Fits t := by
  obtain ⟨f, hf, hfits⟩ := reached_iff.1 hs
  have hkeys : f.bindings.keys = r.vars.keys := hf.names.trans (Table.keys_mapValues _ _)
  obtain ⟨g, hfg, hg, hall⟩ := exists_forceAll hσ hops hfits (hkeys ▸ fun _ h => h) h
  exact ⟨g, hf.trans hfg, (hf.trans hfg).isForced hall, hg⟩

end Evaluation

/-- Where every frame is forced, evaluation changes none. -/
theorem maintains_fits (hσ : (σ.inside f).IsForced) (hops : σ.env.operators.IsTame σ.known)
    (budget : Nat) (e : Expr) :
    Maintains (σ.inside f).Fits (σ.env.evaluateWithin σ.limit budget e) := by
  intro s hs
  have hforced := List.forall_mem_cons.1 hσ
  obtain ⟨g, hfg, hg⟩ :=
    reached_iff.1 (maintains_evaluateWithin hforced.2 hops budget e f s (reached_self hs))
  rwa [hfg.eq_of_isForced hforced.1] at hg

end Site

end RuleScan
