import RuleScan.Expr.Fold

/-!
# Simplified expressions

An expression is simplified when folding finds nothing to replace in it.  What folding
returns is simplified, so folding a second time neither changes it nor fails: the faults of
constant operations all show the first time.

Folding looks at literals and at the shape of an expression, not at metadata.  So an
expression is simplified when the same expression with other metadata is.

## Main results

* `isFolded_of_fold` — the outcome of folding is simplified.
* `simplify_eq_self_iff` — the expressions that simplifying returns as they are.
* `IsFolded.bare` — metadata does not matter to folding.
* `bindMetadata_bare` — chaining metadata to a rule forgets what it fell back on before.
-/

namespace RuleScan.Expr

/-- Folding finds nothing to replace in the expression. -/
def IsFolded (e : Expr) : Prop := e.fold = .ok ⟨e, false⟩

/-- Folding finds nothing to replace in the expressions. -/
def AllFolded (es : List Expr) : Prop := foldList es = .ok ⟨es, false⟩

theorem isFolded_literal (v : Value) : (literal v).IsFolded := rfl

/-! ## Folding the outcome of folding -/

section Node

variable {f g k r : Folded Expr}

theorem isFolded_foldUnary {op : UnaryOp} (hf : f.result.IsFolded) (h : foldUnary op f = .ok r) :
    r.result.IsFolded := by
  unfold foldUnary at h
  cases hv : f.result.literal? with
  | some v =>
      cases hw : Value.unary op v <;> simp [hv, hw, Except.map] at h
      rw [← h]
      exact isFolded_literal _
  | none =>
      simp only [hv, Except.ok.injEq] at h
      rw [← h]
      show (f.result.fold >>= foldUnary op) = _
      rw [hf]
      show foldUnary op _ = _
      simp [foldUnary, hv]

/-- A binary operation that was left alone is left alone again, since its operands tell as
little as before. -/
theorem isFolded_foldBinary {op : BinaryOp} (hf : f.result.IsFolded) (hg : g.result.IsFolded)
    (h : foldBinary op f g = .ok r) : r.result.IsFolded := by
  unfold foldBinary at h
  obtain ⟨found, hfound, h⟩ := bind_eq_ok h
  cases found with
  | some v =>
      simp only [pure, Except.pure, Except.ok.injEq] at h
      rw [← h]
      exact isFolded_literal _
  | none =>
      simp only [pure, Except.pure, Except.ok.injEq] at h
      rw [← h]
      show (f.result.fold >>= fun l => g.result.fold >>= fun r => foldBinary op l r) = _
      rw [hf, hg]
      show foldBinary op _ _ = _
      unfold foldBinary
      rw [hfound]
      rfl

theorem isFolded_foldIndex (hf : f.result.IsFolded) (hg : g.result.IsFolded)
    (h : foldIndex f g = .ok r) : r.result.IsFolded := by
  unfold foldIndex at h
  split at h
  · next v w _ _ =>
    cases hx : Value.index v w <;> simp [hx, Except.map] at h
    rw [← h]
    exact isFolded_literal _
  · next hneither =>
    simp only [Except.ok.injEq] at h
    rw [← h]
    show (f.result.fold >>= fun e => g.result.fold >>= fun i => foldIndex e i) = _
    rw [hf, hg]
    show foldIndex _ _ = _
    unfold foldIndex
    split
    · next hv hw => exact absurd hw (hneither _ _ hv)
    · rfl

theorem isFolded_foldSlice (hf : f.result.IsFolded) (hg : g.result.IsFolded)
    (hk : k.result.IsFolded) (h : foldSlice f g k = .ok r) : r.result.IsFolded := by
  unfold foldSlice at h
  split at h
  · next u v w _ _ _ =>
    cases hx : Value.slice u v w <;> simp [hx, Except.map] at h
    rw [← h]
    exact isFolded_literal _
  · next hneither =>
    simp only [Except.ok.injEq] at h
    rw [← h]
    show (f.result.fold >>= fun e => g.result.fold >>= fun i => k.result.fold >>= fun j =>
      foldSlice e i j) = _
    rw [hf, hg, hk]
    show foldSlice _ _ _ = _
    unfold foldSlice
    split
    · next hu hv hw => exact absurd hw (hneither _ _ _ hu hv)
    · rfl

end Node

theorem isFolded_extract {o s : Expr} (format : ExtractFormat) (m : Register)
    (ho : o.IsFolded) (hs : s.IsFolded) : (extract format o s m).IsFolded := by
  show (o.fold >>= fun o => s.fold >>= fun s => _) = _
  rw [ho, hs]
  rfl

theorem isFolded_call {args : List Expr} (name : String) (m : Register) (h : AllFolded args) :
    (call name args m).IsFolded := by
  show (foldList args >>= fun args => _) = _
  rw [h]
  rfl

mutual

/-- The recursion is that of `fold`: the folded operands are simplified, and so is what a
node makes of them. -/
theorem isFolded_of_fold : ∀ {e : Expr} {r : Folded Expr}, e.fold = .ok r → r.result.IsFolded
  | literal _, r, h | var _, r, h => by
    simp only [fold, Except.ok.injEq] at h
    rw [← h]
    rfl
  | unary op e, r, h => by
    obtain ⟨f, hf, h⟩ := bind_eq_ok h
    exact isFolded_foldUnary (isFolded_of_fold hf) h
  | binary op a b, r, h => by
    obtain ⟨f, hf, h⟩ := bind_eq_ok h
    obtain ⟨g, hg, h⟩ := bind_eq_ok h
    exact isFolded_foldBinary (isFolded_of_fold hf) (isFolded_of_fold hg) h
  | index a b, r, h => by
    obtain ⟨f, hf, h⟩ := bind_eq_ok h
    obtain ⟨g, hg, h⟩ := bind_eq_ok h
    exact isFolded_foldIndex (isFolded_of_fold hf) (isFolded_of_fold hg) h
  | slice a b c, r, h => by
    obtain ⟨f, hf, h⟩ := bind_eq_ok h
    obtain ⟨g, hg, h⟩ := bind_eq_ok h
    obtain ⟨k, hk, h⟩ := bind_eq_ok h
    exact isFolded_foldSlice (isFolded_of_fold hf) (isFolded_of_fold hg) (isFolded_of_fold hk) h
  | extract format a b m, r, h => by
    obtain ⟨f, hf, h⟩ := bind_eq_ok h
    obtain ⟨g, hg, h⟩ := bind_eq_ok h
    simp only [pure, Except.pure, Except.ok.injEq] at h
    rw [← h]
    exact isFolded_extract format m (isFolded_of_fold hf) (isFolded_of_fold hg)
  | call name as m, r, h => by
    obtain ⟨f, hf, h⟩ := bind_eq_ok h
    simp only [pure, Except.pure, Except.ok.injEq] at h
    rw [← h]
    exact isFolded_call name m (allFolded_of_foldList hf)

theorem allFolded_of_foldList : ∀ {es : List Expr} {r : Folded (List Expr)},
    foldList es = .ok r → AllFolded r.result
  | [], r, h => by
    simp only [foldList, Except.ok.injEq] at h
    rw [← h]
    rfl
  | e :: rest, r, h => by
    obtain ⟨f, hf, h⟩ := bind_eq_ok h
    obtain ⟨g, hg, h⟩ := bind_eq_ok h
    simp only [pure, Except.pure, Except.ok.injEq] at h
    rw [← h]
    show (f.result.fold >>= fun e => foldList g.result >>= fun rest => _) = _
    rw [isFolded_of_fold hf, allFolded_of_foldList hg]
    rfl

end

/-! ## Simplifying twice -/

theorem IsFolded.simplify_eq {e : Expr} (h : e.IsFolded) : e.simplify = .ok e := by
  unfold simplify
  rw [h]
  rfl

theorem isFolded_of_simplify {e e' : Expr} (h : e.simplify = .ok e') : e'.IsFolded := by
  unfold simplify at h
  cases hr : e.fold with
  | error cause => simp [hr, Except.map] at h
  | ok r =>
      simp only [hr, Except.map, Except.ok.injEq] at h
      rw [← h]
      exact isFolded_of_fold hr

theorem simplify_eq_self_iff {e : Expr} : e.simplify = .ok e ↔ e.IsFolded :=
  ⟨isFolded_of_simplify, IsFolded.simplify_eq⟩

/-! ## Metadata without fallbacks -/

mutual

/-- The expression whose metadata falls back on nothing. -/
def bare : Expr → Expr
  | literal v => literal v
  | var name => var name
  | unary op e => unary op e.bare
  | binary op l r => binary op l.bare r.bare
  | index e i => index e.bare i.bare
  | slice e i j => slice e.bare i.bare j.bare
  | extract format o s m => extract format o.bare s.bare (m.setParent none)
  | call name args m => call name (bareAll args) (m.setParent none)

/-- The expressions whose metadata falls back on nothing. -/
def bareAll : List Expr → List Expr
  | [] => []
  | e :: rest => e.bare :: bareAll rest

end

theorem bareAll_eq_map (es : List Expr) : bareAll es = es.map bare := by
  induction es with
  | nil => rfl
  | cons e rest ih => rw [bareAll, ih, List.map_cons]

theorem literal?_bare (e : Expr) : e.bare.literal? = e.literal? := by
  cases e <;> rfl

/-- A folded expression whose metadata falls back on nothing. -/
def Folded.bare (f : Folded Expr) : Folded Expr := ⟨f.result.bare, f.changed⟩

theorem map_literal_bare (x : Except ValueError Value) :
    (x.map fun v => (⟨literal v, true⟩ : Folded Expr)) =
      (x.map fun v => (⟨literal v, true⟩ : Folded Expr)).map Folded.bare := by
  cases x <;> rfl

section Node

variable (f g k : Folded Expr)

theorem foldUnary_bare (op : UnaryOp) :
    foldUnary op f.bare = (foldUnary op f).map Folded.bare := by
  unfold foldUnary
  simp only [Folded.bare, literal?_bare]
  cases f.result.literal? with
  | none => rfl
  | some v => exact map_literal_bare _

theorem foldBinary_bare (op : BinaryOp) :
    foldBinary op f.bare g.bare = (foldBinary op f g).map Folded.bare := by
  unfold foldBinary
  simp only [Folded.bare, literal?_bare]
  cases binaryValue? op f.result.literal? g.result.literal? with
  | error cause => rfl
  | ok found => cases found <;> rfl

theorem foldIndex_bare : foldIndex f.bare g.bare = (foldIndex f g).map Folded.bare := by
  unfold foldIndex
  simp only [Folded.bare, literal?_bare]
  cases f.result.literal? with
  | none => rfl
  | some v =>
      cases g.result.literal? with
      | none => rfl
      | some w => exact map_literal_bare _

theorem foldSlice_bare :
    foldSlice f.bare g.bare k.bare = (foldSlice f g k).map Folded.bare := by
  unfold foldSlice
  simp only [Folded.bare, literal?_bare]
  cases f.result.literal? with
  | none => rfl
  | some u =>
      cases g.result.literal? with
      | none => rfl
      | some v =>
          cases k.result.literal? with
          | none => rfl
          | some w => exact map_literal_bare _

end Node

/-- What follows a step may follow a change of its outcome, if it makes up for that change. -/
theorem map_bind_eq {ε α α' β β' : Type} {x : Except ε α} {f : α → α'} {g : β → β'}
    {k : α → Except ε β} {k' : α' → Except ε β'} (h : ∀ a, k' (f a) = (k a).map g) :
    (x.map f >>= k') = (x >>= k).map g := by
  cases x with
  | error cause => rfl
  | ok a => exact h a

mutual

/-- Folding looks at literals and at shapes, not at metadata. -/
theorem fold_bare : ∀ e : Expr, e.bare.fold = e.fold.map Folded.bare
  | literal _ | var _ => rfl
  | unary op e => by
    show (e.bare.fold >>= foldUnary op) = (e.fold >>= foldUnary op).map Folded.bare
    rw [fold_bare e]
    exact map_bind_eq fun f => foldUnary_bare f op
  | binary op a b => by
    show (a.bare.fold >>= fun l => b.bare.fold >>= fun r => foldBinary op l r) =
      (a.fold >>= fun l => b.fold >>= fun r => foldBinary op l r).map Folded.bare
    rw [fold_bare a, fold_bare b]
    exact map_bind_eq fun f => map_bind_eq fun g => foldBinary_bare f g op
  | index a b => by
    show (a.bare.fold >>= fun e => b.bare.fold >>= fun i => foldIndex e i) =
      (a.fold >>= fun e => b.fold >>= fun i => foldIndex e i).map Folded.bare
    rw [fold_bare a, fold_bare b]
    exact map_bind_eq fun f => map_bind_eq fun g => foldIndex_bare f g
  | slice a b c => by
    show (a.bare.fold >>= fun e => b.bare.fold >>= fun i => c.bare.fold >>= fun j =>
        foldSlice e i j) =
      (a.fold >>= fun e => b.fold >>= fun i => c.fold >>= fun j => foldSlice e i j).map Folded.bare
    rw [fold_bare a, fold_bare b, fold_bare c]
    exact map_bind_eq fun f => map_bind_eq fun g => map_bind_eq fun k =>
      foldSlice_bare f g k
  | extract format a b m => by
    show (a.bare.fold >>= fun o => b.bare.fold >>= fun s => _) =
      (a.fold >>= fun o => b.fold >>= fun s => _).map Folded.bare
    rw [fold_bare a, fold_bare b]
    exact map_bind_eq fun f => map_bind_eq fun g => rfl
  | call name args m => by
    show (foldList (bareAll args) >>= fun args => _) =
      (foldList args >>= fun args => _).map Folded.bare
    rw [foldList_bareAll args]
    exact map_bind_eq fun f => rfl

theorem foldList_bareAll : ∀ es : List Expr,
    foldList (bareAll es) = (foldList es).map fun f => ⟨bareAll f.result, f.changed⟩
  | [] => rfl
  | e :: rest => by
    show (e.bare.fold >>= fun e => foldList (bareAll rest) >>= fun rest => _) =
      (e.fold >>= fun e => foldList rest >>= fun rest => _).map _
    rw [fold_bare e, foldList_bareAll rest]
    exact map_bind_eq fun f => map_bind_eq fun g => rfl

end

/-- Metadata does not matter to folding. -/
theorem IsFolded.bare {e : Expr} (h : e.IsFolded) : e.bare.IsFolded := by
  unfold IsFolded at h ⊢
  rw [fold_bare, h]
  rfl

mutual

/-- Metadata that is chained to a rule falls back on what the rule does, whatever it fell back
on before. -/
theorem bindMetadata_bare (rule : Register) : ∀ e : Expr,
    e.bare.bindMetadata rule = e.bindMetadata rule
  | literal _ | var _ => rfl
  | unary _ e => by rw [bare, bindMetadata, bindMetadata, bindMetadata_bare rule e]
  | binary _ a b | index a b => by
    rw [bare, bindMetadata, bindMetadata, bindMetadata_bare rule a, bindMetadata_bare rule b]
  | slice a b c => by
    rw [bare, bindMetadata, bindMetadata, bindMetadata_bare rule a, bindMetadata_bare rule b,
      bindMetadata_bare rule c]
  | extract _ a b m => by
    rw [bare, bindMetadata, bindMetadata, bindMetadata_bare rule a, bindMetadata_bare rule b]
    rfl
  | call _ args m => by
    rw [bare, bindMetadata, bindMetadata, bindMetadataAll_bareAll rule args]
    rfl

theorem bindMetadataAll_bareAll (rule : Register) : ∀ es : List Expr,
    bindMetadataAll rule (bareAll es) = bindMetadataAll rule es
  | [] => rfl
  | e :: rest => by
    rw [bareAll, bindMetadataAll, bindMetadataAll, bindMetadata_bare rule e,
      bindMetadataAll_bareAll rule rest]

end

end RuleScan.Expr
