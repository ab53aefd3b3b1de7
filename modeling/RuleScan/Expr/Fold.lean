import RuleScan.Expr.Basic

/-!
# Folding constants

Folding replaces every operation on literals by its result, so a rule does at load
time what needs no file. An operation that cannot be carried out makes folding fail.
A connective whose left operand is a literal that settles it is replaced as well.

The answer also tells whether anything was replaced. Where nothing was, the answer
is the expression itself.

## Main results

* `fold_unchanged` — an answer that reports no change is the expression given.
* `binaryValue?_eq_some` — when the operands of a binary operation tell its value.
* `result_foldUnary`, `result_foldBinary`, `result_foldIndex`, `result_foldSlice` — an operation
  becomes a literal or stays what it is.
* `foldList_length` — folding arguments keeps their number.
-/

namespace RuleScan.Expr

/-- A folded expression, and whether it differs from the one given. -/
structure Folded (α : Type) where
  result : α
  changed : Bool

/-- An operation on a folded operand. -/
def foldUnary (op : UnaryOp) (e : Folded Expr) : Except ValueError (Folded Expr) :=
  match e.result.literal? with
  | some v => (Value.unary op v).map fun w => ⟨literal w, true⟩
  | none => .ok ⟨unary op e.result, e.changed⟩

/-- The value of a binary operation as far as its folded operands give it. -/
def binaryValue? (op : BinaryOp) (left right : Option Value) :
    Except ValueError (Option Value) :=
  match op, left, right with
  | _, some v, some w => (Value.binary op v w).map some
  | .connective c, some v, none => do
    let decided ← v.truthy
    pure (if decided = c.decisive then some (.bool decided) else none)
  | _, _, _ => .ok none

/-- A binary operation on folded operands. -/
def foldBinary (op : BinaryOp) (l r : Folded Expr) : Except ValueError (Folded Expr) := do
  match ← binaryValue? op l.result.literal? r.result.literal? with
  | some v => pure ⟨literal v, true⟩
  | none => pure ⟨binary op l.result r.result, l.changed || r.changed⟩

/-- A byte of a folded byte string. -/
def foldIndex (e i : Folded Expr) : Except ValueError (Folded Expr) :=
  match e.result.literal?, i.result.literal? with
  | some v, some s => (Value.index v s).map fun w => ⟨literal w, true⟩
  | _, _ => .ok ⟨index e.result i.result, e.changed || i.changed⟩

/-- A range of a folded byte string. -/
def foldSlice (e i j : Folded Expr) : Except ValueError (Folded Expr) :=
  match e.result.literal?, i.result.literal?, j.result.literal? with
  | some v, some s, some t => (Value.slice v s t).map fun w => ⟨literal w, true⟩
  | _, _, _ => .ok ⟨slice e.result i.result j.result, e.changed || i.changed || j.changed⟩

mutual

/-- Replaces operations on literals, from the leaves up. -/
def fold : Expr → Except ValueError (Folded Expr)
  | literal v => .ok ⟨literal v, false⟩
  | var name => .ok ⟨var name, false⟩
  | unary op e => do
    let e ← e.fold
    foldUnary op e
  | binary op l r => do
    let l ← l.fold
    let r ← r.fold
    foldBinary op l r
  | index e i => do
    let e ← e.fold
    let i ← i.fold
    foldIndex e i
  | slice e i j => do
    let e ← e.fold
    let i ← i.fold
    let j ← j.fold
    foldSlice e i j
  | extract format o s m => do
    let o ← o.fold
    let s ← s.fold
    pure ⟨extract format o.result s.result m, o.changed || s.changed⟩
  | call name args m => do
    let args ← foldList args
    pure ⟨call name args.result m, args.changed⟩

/-- Folds every expression of a list. -/
def foldList : List Expr → Except ValueError (Folded (List Expr))
  | [] => .ok ⟨[], false⟩
  | e :: rest => do
    let e ← e.fold
    let rest ← foldList rest
    pure ⟨e.result :: rest.result, e.changed || rest.changed⟩

end

/-- The folded expression. -/
def simplify (e : Expr) : Except ValueError Expr := e.fold.map Folded.result

/-! ## What the operands tell -/

/-- Opens a sequence of two steps that succeeded. -/
theorem bind_eq_ok {ε α β : Type} {x : Except ε α} {f : α → Except ε β} {b : β}
    (h : (x >>= f) = .ok b) : ∃ a, x = .ok a ∧ f a = .ok b := by
  cases x with
  | error e => cases h
  | ok a => exact ⟨a, rfl, h⟩

/-- A binary operation is known when both operands are, or when the left one decides. -/
theorem binaryValue?_eq_some {op : BinaryOp} {l r : Option Value} {x : Value}
    (h : binaryValue? op l r = .ok (some x)) :
    (∃ v w, l = some v ∧ r = some w ∧ Value.binary op v w = .ok x) ∨
    (∃ c v, op = .connective c ∧ l = some v ∧ v.truthy = .ok c.decisive ∧
      x = .bool c.decisive) := by
  unfold binaryValue? at h
  split at h
  · next v w =>
    cases hx : Value.binary op v w <;> simp [hx, Except.map] at h
    exact Or.inl ⟨v, w, rfl, rfl, hx.trans (congrArg Except.ok h)⟩
  · next c v =>
    obtain ⟨p, hp, h⟩ := bind_eq_ok h
    by_cases hc : p = c.decisive
    · simp only [hc, if_true, pure, Except.pure, Except.ok.injEq, Option.some.injEq] at h
      exact Or.inr ⟨c, v, rfl, rfl, hc ▸ hp, h.symm⟩
    · simp [hc, pure, Except.pure] at h
  · cases h

/-! ## What an operation becomes -/

section Node

variable {e f g r : Folded Expr}

/-- An operation that is folded becomes a literal, or it stays what it is. -/
theorem result_foldUnary {op : UnaryOp} (h : foldUnary op e = .ok r) :
    (∃ v, r.result = literal v) ∨ r.result = unary op e.result := by
  unfold foldUnary at h
  split at h
  · next v _ =>
    cases hw : Value.unary op v <;> simp [hw, Except.map] at h
    exact .inl ⟨_, congrArg Folded.result h.symm⟩
  · cases h
    exact .inr rfl

theorem result_foldBinary {op : BinaryOp} (h : foldBinary op e f = .ok r) :
    (∃ v, r.result = literal v) ∨ r.result = binary op e.result f.result := by
  obtain ⟨found, -, h⟩ := bind_eq_ok h
  cases found with
  | some v =>
    cases h
    exact .inl ⟨v, rfl⟩
  | none =>
    cases h
    exact .inr rfl

theorem result_foldIndex (h : foldIndex e f = .ok r) :
    (∃ v, r.result = literal v) ∨ r.result = index e.result f.result := by
  unfold foldIndex at h
  split at h
  · next v s _ _ =>
    cases hw : Value.index v s <;> simp [hw, Except.map] at h
    exact .inl ⟨_, congrArg Folded.result h.symm⟩
  · cases h
    exact .inr rfl

theorem result_foldSlice (h : foldSlice e f g = .ok r) :
    (∃ v, r.result = literal v) ∨ r.result = slice e.result f.result g.result := by
  unfold foldSlice at h
  split at h
  · next v s t _ _ _ =>
    cases hw : Value.slice v s t <;> simp [hw, Except.map] at h
    exact .inl ⟨_, congrArg Folded.result h.symm⟩
  · cases h
    exact .inr rfl

end Node

/-! ## Unchanged answers -/

theorem foldUnary_unchanged {op : UnaryOp} {e : Folded Expr} {r : Folded Expr}
    (h : foldUnary op e = .ok r) (hr : r.changed = false) :
    e.changed = false ∧ r.result = unary op e.result := by
  unfold foldUnary at h
  split at h
  · next v _ =>
    cases hv : Value.unary op v <;> simp [hv, Except.map] at h
    rw [← h] at hr
    cases hr
  · simp only [Except.ok.injEq] at h
    rw [← h] at hr ⊢
    exact ⟨hr, rfl⟩

theorem foldBinary_unchanged {op : BinaryOp} {l r s : Folded Expr}
    (h : foldBinary op l r = .ok s) (hs : s.changed = false) :
    (l.changed = false ∧ r.changed = false) ∧ s.result = binary op l.result r.result := by
  unfold foldBinary at h
  cases hv : binaryValue? op l.result.literal? r.result.literal? with
  | error e => simp [hv, bind, Except.bind] at h
  | ok v =>
    cases v with
    | some v =>
      simp only [hv, bind, Except.bind, pure, Except.pure, Except.ok.injEq] at h
      rw [← h] at hs
      cases hs
    | none =>
      simp only [hv, bind, Except.bind, pure, Except.pure, Except.ok.injEq] at h
      rw [← h] at hs ⊢
      exact ⟨by simpa using hs, rfl⟩

theorem foldIndex_unchanged {e i s : Folded Expr}
    (h : foldIndex e i = .ok s) (hs : s.changed = false) :
    (e.changed = false ∧ i.changed = false) ∧ s.result = index e.result i.result := by
  unfold foldIndex at h
  split at h
  · next v w _ _ =>
    cases hv : Value.index v w <;> simp [hv, Except.map] at h
    rw [← h] at hs
    cases hs
  · simp only [Except.ok.injEq] at h
    rw [← h] at hs ⊢
    exact ⟨by simpa using hs, rfl⟩

theorem foldSlice_unchanged {e i j s : Folded Expr}
    (h : foldSlice e i j = .ok s) (hs : s.changed = false) :
    ((e.changed = false ∧ i.changed = false) ∧ j.changed = false) ∧
      s.result = slice e.result i.result j.result := by
  unfold foldSlice at h
  split at h
  · next u v w _ _ _ =>
    cases hv : Value.slice u v w <;> simp [hv, Except.map] at h
    rw [← h] at hs
    cases hs
  · simp only [Except.ok.injEq] at h
    rw [← h] at hs ⊢
    exact ⟨by simpa using hs, rfl⟩

mutual

theorem fold_unchanged : ∀ {e : Expr} {r : Folded Expr}, e.fold = .ok r → r.changed = false →
    r.result = e
  | literal _, r, h, _ | var _, r, h, _ => by
    simp only [fold, Except.ok.injEq] at h
    rw [← h]
  | unary op e, r, h, hr => by
    obtain ⟨f, hf, h⟩ := bind_eq_ok h
    obtain ⟨hc, hres⟩ := foldUnary_unchanged h hr
    rw [hres, fold_unchanged hf hc]
  | binary op a b, r, h, hr => by
    obtain ⟨f, hf, h⟩ := bind_eq_ok h
    obtain ⟨g, hg, h⟩ := bind_eq_ok h
    obtain ⟨⟨hc, hd⟩, hres⟩ := foldBinary_unchanged h hr
    rw [hres, fold_unchanged hf hc, fold_unchanged hg hd]
  | index a b, r, h, hr => by
    obtain ⟨f, hf, h⟩ := bind_eq_ok h
    obtain ⟨g, hg, h⟩ := bind_eq_ok h
    obtain ⟨⟨hc, hd⟩, hres⟩ := foldIndex_unchanged h hr
    rw [hres, fold_unchanged hf hc, fold_unchanged hg hd]
  | slice a b c, r, h, hr => by
    obtain ⟨f, hf, h⟩ := bind_eq_ok h
    obtain ⟨g, hg, h⟩ := bind_eq_ok h
    obtain ⟨k, hk, h⟩ := bind_eq_ok h
    obtain ⟨⟨⟨hc, hd⟩, he⟩, hres⟩ := foldSlice_unchanged h hr
    rw [hres, fold_unchanged hf hc, fold_unchanged hg hd, fold_unchanged hk he]
  | extract format a b m, r, h, hr => by
    obtain ⟨f, hf, h⟩ := bind_eq_ok h
    obtain ⟨g, hg, h⟩ := bind_eq_ok h
    simp only [pure, Except.pure, Except.ok.injEq] at h
    rw [← h] at hr ⊢
    simp only [Bool.or_eq_false_iff] at hr
    rw [fold_unchanged hf hr.1, fold_unchanged hg hr.2]
  | call name as m, r, h, hr => by
    obtain ⟨f, hf, h⟩ := bind_eq_ok h
    simp only [pure, Except.pure, Except.ok.injEq] at h
    rw [← h] at hr ⊢
    rw [foldList_unchanged hf hr]

theorem foldList_unchanged : ∀ {es : List Expr} {r : Folded (List Expr)},
    foldList es = .ok r → r.changed = false → r.result = es
  | [], r, h, _ => by
    simp only [foldList, Except.ok.injEq] at h
    rw [← h]
  | e :: rest, r, h, hr => by
    obtain ⟨f, hf, h⟩ := bind_eq_ok h
    obtain ⟨g, hg, h⟩ := bind_eq_ok h
    simp only [pure, Except.pure, Except.ok.injEq] at h
    rw [← h] at hr ⊢
    simp only [Bool.or_eq_false_iff] at hr
    rw [fold_unchanged hf hr.1, foldList_unchanged hg hr.2]

end

theorem foldList_length {es : List Expr} {r : Folded (List Expr)} (h : foldList es = .ok r) :
    r.result.length = es.length := by
  induction es generalizing r with
  | nil =>
    simp only [foldList, Except.ok.injEq] at h
    rw [← h]
  | cons e rest ih =>
    obtain ⟨f, hf, h⟩ := bind_eq_ok h
    obtain ⟨g, hg, h⟩ := bind_eq_ok h
    simp only [pure, Except.pure, Except.ok.injEq] at h
    rw [← h, List.length_cons, List.length_cons, ih hg]

end RuleScan.Expr
