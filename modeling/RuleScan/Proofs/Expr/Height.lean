import RuleScan.Expr.Fold
import RuleScan.Proofs.Expr.Nodes

/-!
# The height of an expression

The height of an expression is the number of nodes on the longest way down into it: literals and
variables have height one, and everything else is one higher than the highest of its operands.
It is the number of levels that the evaluation of an expression enters.

Folding replaces operations by literals, which are as low as can be, and chaining metadata leaves
every operand where it is.

## Main results

* `height_eq` — an expression is one higher than its operands.
* `height_le_of_fold`, `height_le_of_simplify` — folding makes no expression higher.
* `height_bindMetadata` — chaining metadata leaves the height as it is.
-/

namespace RuleScan.Expr

mutual

/-- The number of nodes on the longest way down. -/
def height : Expr → Nat
  | literal _ | var _ => 1
  | unary _ e => e.height + 1
  | binary _ l r => max l.height r.height + 1
  | index e i => max e.height i.height + 1
  | slice e i j => max e.height (max i.height j.height) + 1
  | extract _ o s _ => max o.height s.height + 1
  | call _ args _ => heightAll args + 1

/-- The height of the highest expression of a list. -/
def heightAll : List Expr → Nat
  | [] => 0
  | e :: rest => max e.height (heightAll rest)

end

theorem height_eq (e : Expr) : e.height = heightAll e.operands + 1 := by
  cases e <;> simp [height, heightAll, operands]

theorem height_pos (e : Expr) : 0 < e.height := by
  rw [height_eq]
  exact Nat.succ_pos _

theorem heightAll_le_iff {es : List Expr} {n : Nat} :
    heightAll es ≤ n ↔ ∀ e ∈ es, e.height ≤ n := by
  induction es with
  | nil => simp [heightAll]
  | cons e rest ih => rw [heightAll, Nat.max_le, ih, List.forall_mem_cons]

theorem height_lt_of_mem_operands {e x : Expr} (h : x ∈ e.operands) : x.height < e.height := by
  rw [height_eq e]
  exact Nat.lt_succ_of_le (heightAll_le_iff.1 (Nat.le_refl _) x h)

/-! ## Folding -/

section Node

variable {f g k r : Folded Expr} {a b c : Nat}

theorem height_literal_le (v : Value) (n : Nat) : (literal v).height ≤ n + 1 :=
  Nat.le_add_left 1 n

theorem height_le_foldUnary {op : UnaryOp} (hf : f.result.height ≤ a)
    (h : foldUnary op f = .ok r) : r.result.height ≤ a + 1 := by
  obtain ⟨v, hr⟩ | hr := result_foldUnary h
  · exact hr ▸ height_literal_le v a
  · rw [hr, height]
    omega

theorem height_le_foldBinary {op : BinaryOp} (hf : f.result.height ≤ a)
    (hg : g.result.height ≤ b) (h : foldBinary op f g = .ok r) :
    r.result.height ≤ max a b + 1 := by
  obtain ⟨v, hr⟩ | hr := result_foldBinary h
  · exact hr ▸ height_literal_le v _
  · rw [hr, height]
    omega

theorem height_le_foldIndex (hf : f.result.height ≤ a) (hg : g.result.height ≤ b)
    (h : foldIndex f g = .ok r) : r.result.height ≤ max a b + 1 := by
  obtain ⟨v, hr⟩ | hr := result_foldIndex h
  · exact hr ▸ height_literal_le v _
  · rw [hr, height]
    omega

theorem height_le_foldSlice (hf : f.result.height ≤ a) (hg : g.result.height ≤ b)
    (hk : k.result.height ≤ c) (h : foldSlice f g k = .ok r) :
    r.result.height ≤ max a (max b c) + 1 := by
  obtain ⟨v, hr⟩ | hr := result_foldSlice h
  · exact hr ▸ height_literal_le v _
  · rw [hr, height]
    omega

end Node

mutual

theorem height_le_of_fold : ∀ {e : Expr} {r : Folded Expr}, e.fold = .ok r →
    r.result.height ≤ e.height
  | literal _, r, h | var _, r, h => by
    cases h
    exact Nat.le_refl _
  | unary op e, r, h => by
    obtain ⟨f, hf, h⟩ := bind_eq_ok h
    exact height_le_foldUnary (height_le_of_fold hf) h
  | binary op a b, r, h => by
    obtain ⟨f, hf, h⟩ := bind_eq_ok h
    obtain ⟨g, hg, h⟩ := bind_eq_ok h
    exact height_le_foldBinary (height_le_of_fold hf) (height_le_of_fold hg) h
  | index a b, r, h => by
    obtain ⟨f, hf, h⟩ := bind_eq_ok h
    obtain ⟨g, hg, h⟩ := bind_eq_ok h
    exact height_le_foldIndex (height_le_of_fold hf) (height_le_of_fold hg) h
  | slice a b c, r, h => by
    obtain ⟨f, hf, h⟩ := bind_eq_ok h
    obtain ⟨g, hg, h⟩ := bind_eq_ok h
    obtain ⟨k, hk, h⟩ := bind_eq_ok h
    exact height_le_foldSlice (height_le_of_fold hf) (height_le_of_fold hg)
      (height_le_of_fold hk) h
  | extract format a b m, r, h => by
    obtain ⟨f, hf, h⟩ := bind_eq_ok h
    obtain ⟨g, hg, h⟩ := bind_eq_ok h
    cases h
    have hoffset := height_le_of_fold hf
    have hsize := height_le_of_fold hg
    simp only [height]
    omega
  | call name as m, r, h => by
    obtain ⟨f, hf, h⟩ := bind_eq_ok h
    cases h
    exact Nat.succ_le_succ (heightAll_le_of_foldList hf)

theorem heightAll_le_of_foldList : ∀ {es : List Expr} {r : Folded (List Expr)},
    foldList es = .ok r → heightAll r.result ≤ heightAll es
  | [], r, h => by
    cases h
    exact Nat.le_refl _
  | e :: rest, r, h => by
    obtain ⟨f, hf, h⟩ := bind_eq_ok h
    obtain ⟨g, hg, h⟩ := bind_eq_ok h
    cases h
    have hhead := height_le_of_fold hf
    have htail := heightAll_le_of_foldList hg
    simp only [heightAll]
    omega

end

theorem height_le_of_simplify {e e' : Expr} (h : e.simplify = .ok e') :
    e'.height ≤ e.height := by
  unfold simplify at h
  cases hr : e.fold with
  | error cause => simp [hr, Except.map] at h
  | ok r =>
    simp only [hr, Except.map, Except.ok.injEq] at h
    exact h ▸ height_le_of_fold hr

/-! ## Chaining metadata -/

mutual

theorem height_bindMetadata (rule : Register) : ∀ e : Expr, (e.bindMetadata rule).height = e.height
  | literal _ | var _ => rfl
  | unary _ e => by simp [bindMetadata, height, height_bindMetadata rule e]
  | binary _ a b | index a b | extract _ a b _ => by
    simp [bindMetadata, height, height_bindMetadata rule a, height_bindMetadata rule b]
  | slice a b c => by
    simp [bindMetadata, height, height_bindMetadata rule a, height_bindMetadata rule b,
      height_bindMetadata rule c]
  | call _ args _ => by simp [bindMetadata, height, heightAll_bindMetadataAll rule args]

theorem heightAll_bindMetadataAll (rule : Register) :
    ∀ es : List Expr, heightAll (bindMetadataAll rule es) = heightAll es
  | [] => rfl
  | e :: rest => by
    simp [bindMetadataAll, heightAll, height_bindMetadata rule e,
      heightAll_bindMetadataAll rule rest]

end

end RuleScan.Expr
