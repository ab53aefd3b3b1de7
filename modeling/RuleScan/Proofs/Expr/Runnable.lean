import RuleScan.Expr.Fold
import RuleScan.Proofs.Reading.Yields

/-!
# Runnable expressions

The reader accepts an extract of a number only in one of the four widths, and a call only of an
operator that is registered and takes so many arguments.  `Expr.IsRunnable` says that this holds
of every node of an expression.  The reader builds runnable expressions only, and folding and
chaining metadata keep them so.

## Main results

* `isRunnable_callNode` — what the reader makes of a name, arguments and metadata.
* `IsRunnable.fold`, `IsRunnable.simplify` — folding keeps expressions runnable.
* `IsRunnable.bindMetadata` — so does chaining metadata.
-/

namespace RuleScan.Expr

/-- Extracts have a width that numbers can have, and calls fit a registered signature. -/
inductive IsRunnable (signatures : String → Option Signature) : Expr → Prop where
  | literal (v : Value) : IsRunnable signatures (literal v)
  | var (name : String) : IsRunnable signatures (var name)
  | unary {op : UnaryOp} {e : Expr} :
      IsRunnable signatures e → IsRunnable signatures (unary op e)
  | binary {op : BinaryOp} {l r : Expr} :
      IsRunnable signatures l → IsRunnable signatures r → IsRunnable signatures (binary op l r)
  | index {e i : Expr} :
      IsRunnable signatures e → IsRunnable signatures i → IsRunnable signatures (index e i)
  | slice {e i j : Expr} :
      IsRunnable signatures e → IsRunnable signatures i → IsRunnable signatures j →
      IsRunnable signatures (slice e i j)
  | number {o : Expr} (width : Width) {m : Register} :
      IsRunnable signatures o → IsRunnable signatures (extractNumber o width m)
  | bytes {format : ExtractFormat} {o s : Expr} {m : Register} : format ≠ .number →
      IsRunnable signatures o → IsRunnable signatures s →
      IsRunnable signatures (extract format o s m)
  | call {name : String} {args : List Expr} {m : Register} {signature : Signature} :
      signatures name = some signature → signature.accepts args.length = true →
      (∀ a ∈ args, IsRunnable signatures a) → IsRunnable signatures (call name args m)

variable {signatures : String → Option Signature}

/-! ## Reading -/

theorem format_ne_number {name : String} {format : ExtractFormat}
    (h : Parser.extractFormat? name = some format) : format ≠ .number := by
  unfold Parser.extractFormat? at h
  split at h
  · cases h
    exact ExtractFormat.noConfusion
  · split at h <;> cases h
    exact ExtractFormat.noConfusion

theorem isRunnable_callNode {name : String} {args : List Expr} {m : Register} {e : Expr}
    (h : Parser.callNode signatures name args m = .ok e)
    (hargs : ∀ a ∈ args, IsRunnable signatures a) : IsRunnable signatures e := by
  unfold Parser.callNode at h
  split at h
  · next width _ =>
    split at h
    · cases h
      exact .number width (hargs _ (List.mem_singleton.2 rfl))
    · cases h
  · next format _ hformat =>
    split at h
    · cases h
      exact .bytes (format_ne_number hformat) (hargs _ (by simp)) (hargs _ (by simp))
    · cases h
  · split at h
    · cases h
    · next signature hsignature =>
      split at h
      · next haccepts =>
        cases h
        exact .call hsignature haccepts hargs
      · cases h

theorem constructs_isRunnable (signatures : String → Option Signature) :
    Parser.Constructs signatures (IsRunnable signatures) where
  literal := .literal
  var := .var
  unary _ := .unary
  binary _ := .binary
  index := .index
  slice := .slice
  call := isRunnable_callNode

/-! ## Folding -/

section Node

variable {f g k r : Folded Expr}

theorem isRunnable_foldUnary {op : UnaryOp} (hf : f.result.IsRunnable signatures)
    (h : foldUnary op f = .ok r) : r.result.IsRunnable signatures := by
  obtain ⟨v, hr⟩ | hr := result_foldUnary h
  · exact hr ▸ .literal v
  · exact hr ▸ .unary hf

theorem isRunnable_foldBinary {op : BinaryOp} (hf : f.result.IsRunnable signatures)
    (hg : g.result.IsRunnable signatures) (h : foldBinary op f g = .ok r) :
    r.result.IsRunnable signatures := by
  obtain ⟨v, hr⟩ | hr := result_foldBinary h
  · exact hr ▸ .literal v
  · exact hr ▸ .binary hf hg

theorem isRunnable_foldIndex (hf : f.result.IsRunnable signatures)
    (hg : g.result.IsRunnable signatures) (h : foldIndex f g = .ok r) :
    r.result.IsRunnable signatures := by
  obtain ⟨v, hr⟩ | hr := result_foldIndex h
  · exact hr ▸ .literal v
  · exact hr ▸ .index hf hg

theorem isRunnable_foldSlice (hf : f.result.IsRunnable signatures)
    (hg : g.result.IsRunnable signatures) (hk : k.result.IsRunnable signatures)
    (h : foldSlice f g k = .ok r) : r.result.IsRunnable signatures := by
  obtain ⟨v, hr⟩ | hr := result_foldSlice h
  · exact hr ▸ .literal v
  · exact hr ▸ .slice hf hg hk

end Node

/-- Folding a list folds every expression in it. -/
theorem exists_fold_of_mem {es : List Expr} {r : Folded (List Expr)} (h : foldList es = .ok r)
    {e' : Expr} (he' : e' ∈ r.result) : ∃ e ∈ es, ∃ f, e.fold = .ok f ∧ f.result = e' := by
  induction es generalizing r with
  | nil =>
      cases h
      cases he'
  | cons e rest ih =>
      obtain ⟨f, hf, h⟩ := bind_eq_ok h
      obtain ⟨g, hg, h⟩ := bind_eq_ok h
      cases h
      rcases List.mem_cons.1 he' with rfl | he'
      · exact ⟨e, List.mem_cons_self .., f, hf, rfl⟩
      · obtain ⟨x, hx, hfold⟩ := ih hg he'
        exact ⟨x, List.mem_cons_of_mem _ hx, hfold⟩

/-- The size of a numeric extract is a literal, which folding leaves alone; the arguments of a
call keep their number. -/
theorem IsRunnable.fold {e : Expr} (h : e.IsRunnable signatures) {r : Folded Expr}
    (hr : e.fold = .ok r) : r.result.IsRunnable signatures := by
  induction h generalizing r with
  | literal v =>
      cases hr
      exact .literal v
  | var name =>
      cases hr
      exact .var name
  | unary _ ih =>
      obtain ⟨f, hf, hr⟩ := bind_eq_ok hr
      exact isRunnable_foldUnary (ih hf) hr
  | binary _ _ ihl ihr =>
      obtain ⟨f, hf, hr⟩ := bind_eq_ok hr
      obtain ⟨g, hg, hr⟩ := bind_eq_ok hr
      exact isRunnable_foldBinary (ihl hf) (ihr hg) hr
  | index _ _ ihe ihi =>
      obtain ⟨f, hf, hr⟩ := bind_eq_ok hr
      obtain ⟨g, hg, hr⟩ := bind_eq_ok hr
      exact isRunnable_foldIndex (ihe hf) (ihi hg) hr
  | slice _ _ _ ihe ihi ihj =>
      obtain ⟨f, hf, hr⟩ := bind_eq_ok hr
      obtain ⟨g, hg, hr⟩ := bind_eq_ok hr
      obtain ⟨k, hk, hr⟩ := bind_eq_ok hr
      exact isRunnable_foldSlice (ihe hf) (ihi hg) (ihj hk) hr
  | number width _ ih =>
      obtain ⟨f, hf, hr⟩ := bind_eq_ok hr
      obtain ⟨g, hg, hr⟩ := bind_eq_ok hr
      cases hg
      cases hr
      exact .number width (ih hf)
  | bytes hformat _ _ iho ihs =>
      obtain ⟨f, hf, hr⟩ := bind_eq_ok hr
      obtain ⟨g, hg, hr⟩ := bind_eq_ok hr
      cases hr
      exact .bytes hformat (iho hf) (ihs hg)
  | call hsignature haccepts _ ih =>
      obtain ⟨f, hf, hr⟩ := bind_eq_ok hr
      cases hr
      refine .call hsignature (foldList_length hf ▸ haccepts) fun a ha => ?_
      obtain ⟨e, he, g, hg, rfl⟩ := exists_fold_of_mem hf ha
      exact ih e he hg

theorem IsRunnable.simplify {e e' : Expr} (h : e.IsRunnable signatures)
    (he' : e.simplify = .ok e') : e'.IsRunnable signatures := by
  unfold Expr.simplify at he'
  cases hr : e.fold with
  | error cause => simp [hr, Except.map] at he'
  | ok r =>
      simp only [hr, Except.map, Except.ok.injEq] at he'
      exact he' ▸ h.fold hr

/-! ## Chaining metadata -/

theorem IsRunnable.bindMetadata {e : Expr} (h : e.IsRunnable signatures) (rule : Register) :
    (e.bindMetadata rule).IsRunnable signatures := by
  induction h with
  | literal v => exact .literal v
  | var name => exact .var name
  | unary _ ih => exact .unary ih
  | binary _ _ ihl ihr => exact .binary ihl ihr
  | index _ _ ihe ihi => exact .index ihe ihi
  | slice _ _ _ ihe ihi ihj => exact .slice ihe ihi ihj
  | number width _ ih => exact .number width ih
  | bytes hformat _ _ iho ihs => exact .bytes hformat iho ihs
  | call hsignature haccepts _ ih =>
      rw [Expr.bindMetadata, bindMetadataAll_eq_map]
      refine .call hsignature (by rwa [List.length_map]) fun a ha => ?_
      obtain ⟨e, he, rfl⟩ := List.mem_map.1 ha
      exact ih e he

end RuleScan.Expr
