import RuleScan.Proofs.Expr.Nodes
import RuleScan.Proofs.Expr.Simplified

/-!
# Nothing is left to fold

What folding may leave behind is said here without folding: no operation on literals alone and
no connective that a literal on its left decides (`IsReducible`), at any depth.  A simplified
expression is simplified all the way down, and none of its nodes is reducible, so one pass over
an expression is enough even where folding an operand makes the operation around it constant,
or drops another operand altogether.

## Main results

* `IsFolded.of_mem_nodes` — every node of a simplified expression is simplified.
* `IsFolded.not_isReducible` — a simplified expression is not reducible.
* `fold_fixedPoint` — one pass of folding reaches a fixed point and tells whether it moved.
-/

namespace RuleScan.Expr

/-- The expression is an operation on literals, or a connective that a literal on its left
decides. -/
inductive IsReducible : Expr → Prop where
  | unary (op : UnaryOp) (v : Value) : IsReducible (unary op (literal v))
  | binary (op : BinaryOp) (v w : Value) : IsReducible (binary op (literal v) (literal w))
  | index (v i : Value) : IsReducible (index (literal v) (literal i))
  | slice (v i j : Value) : IsReducible (slice (literal v) (literal i) (literal j))
  | decided {c : Connective} {v : Value} (r : Expr) :
      v.truthy = .ok c.decisive → IsReducible (binary (.connective c) (literal v) r)

/-! ## Operands of simplified expressions -/

/-- An operand whose folding went into an unchanged expression is simplified. -/
theorem isFolded_of_unchanged {e : Expr} {f : Folded Expr} (h : e.fold = .ok f)
    (hf : f.changed = false) : e.IsFolded := by
  have hresult := fold_unchanged h hf
  obtain ⟨result, changed⟩ := f
  cases hresult
  cases hf
  exact h

theorem isFolded_of_foldList {es : List Expr} {f : Folded (List Expr)} (h : foldList es = .ok f)
    (hf : f.changed = false) : ∀ e ∈ es, e.IsFolded := by
  induction es generalizing f with
  | nil => exact List.forall_mem_nil _
  | cons e rest ih =>
      obtain ⟨g, hg, h⟩ := bind_eq_ok h
      obtain ⟨k, hk, h⟩ := bind_eq_ok h
      cases h
      rw [Bool.or_eq_false_iff] at hf
      exact List.forall_mem_cons.2 ⟨isFolded_of_unchanged hg hf.1, ih hk hf.2⟩

/-- No operand of a simplified expression was changed, or the expression would have been. -/
theorem IsFolded.operands {e : Expr} (h : e.IsFolded) : ∀ x ∈ e.operands, x.IsFolded := by
  cases e with
  | literal | var => exact List.forall_mem_nil _
  | unary op e =>
      obtain ⟨f, hf, h⟩ := bind_eq_ok h
      exact List.forall_mem_singleton.2 (isFolded_of_unchanged hf (foldUnary_unchanged h rfl).1)
  | binary op l r =>
      obtain ⟨f, hf, h⟩ := bind_eq_ok h
      obtain ⟨g, hg, h⟩ := bind_eq_ok h
      obtain ⟨⟨hcf, hcg⟩, -⟩ := foldBinary_unchanged h rfl
      simpa [Expr.operands] using ⟨isFolded_of_unchanged hf hcf, isFolded_of_unchanged hg hcg⟩
  | index e i =>
      obtain ⟨f, hf, h⟩ := bind_eq_ok h
      obtain ⟨g, hg, h⟩ := bind_eq_ok h
      obtain ⟨⟨hcf, hcg⟩, -⟩ := foldIndex_unchanged h rfl
      simpa [Expr.operands] using ⟨isFolded_of_unchanged hf hcf, isFolded_of_unchanged hg hcg⟩
  | slice e i j =>
      obtain ⟨f, hf, h⟩ := bind_eq_ok h
      obtain ⟨g, hg, h⟩ := bind_eq_ok h
      obtain ⟨k, hk, h⟩ := bind_eq_ok h
      obtain ⟨⟨⟨hcf, hcg⟩, hck⟩, -⟩ := foldSlice_unchanged h rfl
      simpa [Expr.operands] using ⟨isFolded_of_unchanged hf hcf, isFolded_of_unchanged hg hcg,
        isFolded_of_unchanged hk hck⟩
  | extract format o s m =>
      obtain ⟨f, hf, h⟩ := bind_eq_ok h
      obtain ⟨g, hg, h⟩ := bind_eq_ok h
      have hchanged : (f.changed || g.changed) = false := congrArg Folded.changed (Except.ok.inj h)
      rw [Bool.or_eq_false_iff] at hchanged
      simpa [Expr.operands] using ⟨isFolded_of_unchanged hf hchanged.1,
        isFolded_of_unchanged hg hchanged.2⟩
  | call name args m =>
      obtain ⟨f, hf, h⟩ := bind_eq_ok h
      have hchanged : f.changed = false := congrArg Folded.changed (Except.ok.inj h)
      exact isFolded_of_foldList hf hchanged

/-- An expression that is simplified is simplified all the way down. -/
theorem IsFolded.of_mem_nodes {e n : Expr} (h : e.IsFolded) (hn : n ∈ e.nodes) : n.IsFolded :=
  Expr.of_mem_nodes (fun he hx => he.operands _ hx) h hn

/-! ## What folding replaces -/

/-- An outcome of an operation is marked as a change, so it is no unchanged answer. -/
theorem map_literal_ne_unchanged (x : Except ValueError Value) (e : Expr) :
    (x.map fun v => (⟨literal v, true⟩ : Folded Expr)) ≠ .ok ⟨e, false⟩ := by
  cases x <;> simp [Except.map]

theorem foldBinary_literals (op : BinaryOp) (v w : Value) :
    foldBinary op ⟨literal v, false⟩ ⟨literal w, false⟩ =
      (Value.binary op v w).map fun x => ⟨literal x, true⟩ := by
  unfold foldBinary
  cases op <;> simp only [literal?, binaryValue?] <;> cases Value.binary _ v w <;> rfl

theorem foldBinary_decided {c : Connective} {v : Value} (hv : v.truthy = .ok c.decisive)
    (g : Folded Expr) : foldBinary (.connective c) ⟨literal v, false⟩ g ≠
      .ok ⟨binary (.connective c) (literal v) g.result, false⟩ := by
  unfold foldBinary
  cases hw : g.result.literal? with
  | none => simp [literal?, binaryValue?, hv, bind, Except.bind, pure, Except.pure]
  | some w =>
      simp only [literal?, binaryValue?]
      cases Value.binary (.connective c) v w <;>
        simp [Except.map, bind, Except.bind, pure, Except.pure]

/-- Where there is something to replace, folding replaces it or fails. -/
theorem IsFolded.not_isReducible {e : Expr} (h : e.IsFolded) : ¬ e.IsReducible := by
  intro hred
  cases hred with
  | unary op v => exact map_literal_ne_unchanged _ _ h
  | binary op v w =>
      have hfold : (binary op (literal v) (literal w)).fold = _ := foldBinary_literals op v w
      rw [IsFolded, hfold] at h
      exact map_literal_ne_unchanged _ _ h
  | index v i => exact map_literal_ne_unchanged _ _ h
  | slice v i j => exact map_literal_ne_unchanged _ _ h
  | @decided c v r hv =>
      have hr : r.IsFolded := h.operands r (by simp [Expr.operands])
      have hfold : (binary (.connective c) (literal v) r).fold =
          foldBinary (.connective c) ⟨literal v, false⟩ ⟨r, false⟩ := by
        show (r.fold >>= fun g => foldBinary (.connective c) ⟨literal v, false⟩ g) = _
        rw [hr]
        rfl
      rw [IsFolded, hfold] at h
      exact foldBinary_decided hv _ h

/-! ## The fixed point -/

/--
**Folding reaches a fixed point in one pass.**  The folded expression holds no operation on literals
and no connective that is decided, at any depth; folding it again succeeds, gives the same
expression and reports no change; and a change is reported exactly when there was one.
-/
theorem fold_fixedPoint {e : Expr} {r : Folded Expr} (h : e.fold = .ok r) :
    e.simplify = .ok r.result ∧ (∀ n ∈ r.result.nodes, ¬ n.IsReducible) ∧
      r.result.fold = .ok ⟨r.result, false⟩ ∧ (r.changed = false ↔ r.result = e) := by
  have hr : r.result.IsFolded := isFolded_of_fold h
  refine ⟨by rw [simplify, h]; rfl, fun n hn => (hr.of_mem_nodes hn).not_isReducible, hr,
    fold_unchanged h, fun hsame => ?_⟩
  -- An expression that is its own outcome is simplified, and folding has only one outcome.
  rw [IsFolded, hsame, h, Except.ok.injEq] at hr
  rw [hr]

/-- Dropping `x` turns the negation into a literal, which does not decide what stands before it. -/
theorem fold_fixedPoint_dropping :
    let dropped := binary (.connective .and) (literal (.bool false)) (var "x")
    let e := binary (.connective .or) (var "y") (unary .not dropped)
    let r : Folded Expr :=
      ⟨binary (.connective .or) (var "y") (literal (.bool true)), true⟩
    e.fold = .ok r ∧ e.simplify = .ok r.result ∧ (∀ n ∈ r.result.nodes, ¬ n.IsReducible) ∧
      r.result.fold = .ok ⟨r.result, false⟩ ∧ (r.changed = false ↔ r.result = e) := by
  intro dropped e r
  have h : e.fold = .ok r := rfl
  exact ⟨h, fold_fixedPoint h⟩

end RuleScan.Expr
