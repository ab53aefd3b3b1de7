import RuleScan.Session

/-!
# Reasoning about steps

A step ends in an outcome and in a session, whether it succeeds or fails.  Two kinds of
statement are made about that end.  `Ensures P t Q` is a triple: from a session with `P`
the step ends with `Q`, which sees the outcome.  `Maintains P t` is the triple whose two
conditions are the same and do not look at the outcome; it composes without any side
condition and is what frame arguments are made of.

Evaluation reads the globals, the current file, the scope and the level.  Two sessions that
agree on these have the same view (`Session.SameView`), whatever was written or recorded
in between.

## Main results

* `ensures_bind`, `maintains_bind` — conditions chain along a sequence of steps.
* `ensures_nested`, `maintains_nested` — a level is entered and left again.
-/

namespace RuleScan

/-- The second session differs from the first in nothing that evaluation reads. -/
structure Session.SameView (s t : Session) : Prop where
  globals : t.globals = s.globals
  source : t.source = s.source
  scope : t.scope = s.scope
  depth : t.depth = s.depth

theorem Session.SameView.refl (s : Session) : s.SameView s := ⟨rfl, rfl, rfl, rfl⟩

theorem Session.SameView.trans {s t u : Session} (h : s.SameView t) (h' : t.SameView u) :
    s.SameView u :=
  ⟨h'.globals.trans h.globals, h'.source.trans h.source, h'.scope.trans h.scope,
    h'.depth.trans h.depth⟩

namespace Step

variable {α β : Type} {P : Session → Prop}

/-! ## Where a step ends -/

/-- The outcome of a step. -/
def outcome (t : Step α) (s : Session) : Except Error α :=
  match t s with
  | .ok a _ => .ok a
  | .error e _ => .error e

/-- The session that a step leaves behind, whatever its outcome. -/
def after (t : Step α) (s : Session) : Session :=
  match t s with
  | .ok _ s' => s'
  | .error _ s' => s'

theorem outcome_of_ok {t : Step α} {s s' : Session} {a : α} (h : t s = .ok a s') :
    t.outcome s = .ok a := by
  simp [outcome, h]

theorem outcome_of_error {t : Step α} {s s' : Session} {e : Error} (h : t s = .error e s') :
    t.outcome s = .error e := by
  simp [outcome, h]

theorem after_of_ok {t : Step α} {s s' : Session} {a : α} (h : t s = .ok a s') :
    t.after s = s' := by
  simp [after, h]

theorem after_of_error {t : Step α} {s s' : Session} {e : Error} (h : t s = .error e s') :
    t.after s = s' := by
  simp [after, h]

/-- Attempting a step hands on its whole end. -/
theorem attempt_eq (t : Step α) (s : Session) : t.attempt s = .ok (t.outcome s) (t.after s) := by
  unfold attempt outcome after
  cases t s <;> rfl

theorem bind_of_ok {t : Step α} {s s' : Session} {a : α} (h : t s = .ok a s')
    (f : α → Step β) : (t >>= f) s = f a s' := by
  show EStateM.bind t f s = f a s'
  simp [EStateM.bind, h]

theorem bind_of_error {t : Step α} {s s' : Session} {e : Error} (h : t s = .error e s')
    (f : α → Step β) : (t >>= f) s = .error e s' := by
  show EStateM.bind t f s = .error e s'
  simp [EStateM.bind, h]

/-! ## Triples -/

/-- From a session with the first condition a step ends with the second. -/
def Ensures (P : Session → Prop) (t : Step α) (Q : Except Error α → Session → Prop) : Prop :=
  ∀ s, P s → Q (t.outcome s) (t.after s)

theorem ensures_pure {a : α} {Q : Except Error α → Session → Prop}
    (h : ∀ s, P s → Q (.ok a) s) : Ensures P (pure a) Q := h

theorem ensures_throw {e : Error} {Q : Except Error α → Session → Prop}
    (h : ∀ s, P s → Q (.error e) s) : Ensures P (throw e : Step α) Q := h

/-- The step after a success starts where the first one ended; after a failure there is
none. -/
theorem ensures_bind {t : Step α} {f : α → Step β} {R : Except Error α → Session → Prop}
    {Q : Except Error β → Session → Prop} (ht : Ensures P t R)
    (hf : ∀ a, Ensures (R (.ok a)) (f a) Q) (he : ∀ e s, R (.error e) s → Q (.error e) s) :
    Ensures P (t >>= f) Q := by
  intro s hs
  have h := ht s hs
  cases hr : t s with
  | ok a s' =>
      rw [outcome_of_ok hr, after_of_ok hr] at h
      have h' := hf a s' h
      unfold outcome after at h' ⊢
      rwa [bind_of_ok hr]
  | error e s' =>
      rw [outcome_of_error hr, after_of_error hr] at h
      have h' := he e s' h
      unfold outcome after
      rwa [bind_of_error hr]

theorem nested_of_le {limit : Nat} {s : Session} (h : limit ≤ s.depth) (t : Step α) :
    nested limit t s = .error (.tooDeep limit) s := by
  rw [nested, if_pos h]

/-- Inside a level the count is one higher, and leaving it takes that back. -/
theorem ensures_nested {limit : Nat} {t : Step α} {Q : Except Error α → Session → Prop}
    (hdeep : ∀ s, P s → Q (.error (.tooDeep limit)) s)
    (ht : ∀ s, P s → Q (t.outcome { s with depth := s.depth + 1 })
      { t.after { s with depth := s.depth + 1 } with
        depth := (t.after { s with depth := s.depth + 1 }).depth - 1 }) :
    Ensures P (nested limit t) Q := by
  intro s hs
  have h := ht s hs
  unfold nested outcome after at *
  by_cases hd : limit ≤ s.depth
  · simpa only [hd, if_true] using hdeep s hs
  · simp only [hd, if_false]
    cases hr : t { s with depth := s.depth + 1 } <;> simpa only [hr] using h

/-! ## Conditions that a step maintains -/

/-- A condition that held before a step holds after it. -/
def Maintains (P : Session → Prop) (t : Step α) : Prop := ∀ s, P s → P (t.after s)

/-- What a step maintains besides. -/
theorem ensures_and {M : Session → Prop} {t : Step α} {Q : Except Error α → Session → Prop}
    (ht : Ensures P t Q) (hm : Maintains M t) :
    Ensures (fun s => P s ∧ M s) t fun outcome s => Q outcome s ∧ M s :=
  fun s ⟨hs, hsame⟩ => ⟨ht s hs, hm s hsame⟩

theorem maintains_pure (a : α) : Maintains P (pure a) := fun _ h => h

theorem maintains_throw (e : Error) : Maintains P (throw e : Step α) := fun _ h => h

theorem maintains_view (f : Session → α) : Maintains P (view f) := fun _ h => h

theorem maintains_bind {t : Step α} {f : α → Step β} (ht : Maintains P t)
    (hf : ∀ a, Maintains P (f a)) : Maintains P (t >>= f) :=
  ensures_bind (R := fun _ => P) (Q := fun _ => P) ht hf fun _ _ h => h

theorem maintains_attempt {t : Step α} (h : Maintains P t) : Maintains P t.attempt := by
  intro s hs
  rw [after_of_ok (attempt_eq t s)]
  exact h s hs

theorem maintains_change {f : Session → Session} (h : ∀ s, P s → P (f s)) :
    Maintains P (change f) := h

theorem maintains_ofValue (r : Except ValueError α) : Maintains P (ofValue r) := by
  cases r <;> exact fun _ h => h

theorem maintains_read (offset length : Nat) : Maintains P (read offset length) := by
  intro s hs
  unfold after read
  cases s.source.read offset length <;> exact hs

theorem maintains_readTerminated (offset limit : Nat) :
    Maintains P (readTerminated offset limit) := by
  intro s hs
  unfold after readTerminated
  cases s.source.readTerminated offset limit <;> exact hs

theorem maintains_global (name : String) : Maintains P (global name) := by
  intro s hs
  unfold after global
  cases s.globals.get? name <;> exact hs

/-- A level entered is left again, so a step within it may rely on the raised count. -/
theorem maintains_nested {limit : Nat} {t : Step α}
    (ht : ∀ s, P s → P { t.after { s with depth := s.depth + 1 } with
      depth := (t.after { s with depth := s.depth + 1 }).depth - 1 }) :
    Maintains P (nested limit t) :=
  ensures_nested (Q := fun _ => P) (fun _ h => h) ht

end Step

end RuleScan
