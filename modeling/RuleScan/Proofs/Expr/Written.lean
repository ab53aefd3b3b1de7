import RuleScan.Proofs.Expr.Height
import Mathlib.Algebra.GroupWithZero.Nat
import Mathlib.Algebra.Order.BigOperators.Group.List
import Mathlib.Algebra.Order.Group.Nat

/-!
# The written nodes of an expression

Every node of an expression is written in a source, except the size of an extract of a number: that
follows from the name of the extract.  So an extract of a number counts as written once together
with its size, and all other nodes count one by one.

What is said of all expressions here is said of an expression if it is said of its operands
(`of_operands`), and the list of operands is where the sums and the maxima are compared.

## Main results

* `length_nodes` — all nodes are the written ones and one more for each extract of a number.
* `numberExtracts_lt_written` — there are fewer extracts of numbers than written nodes.
* `height_le_written` — no expression is higher than its written nodes.
-/

namespace RuleScan.Expr

mutual

/-- The number of nodes that are written. -/
def written : Expr → Nat
  | literal _ | var _ => 1
  | unary _ e => e.written + 1
  | binary _ l r => l.written + r.written + 1
  | index e i => e.written + i.written + 1
  | slice e i j => e.written + i.written + j.written + 1
  | extract .number o s _ => o.written + s.written
  | extract _ o s _ => o.written + s.written + 1
  | call _ args _ => writtenAll args + 1

/-- The number of written nodes of the expressions of a list. -/
def writtenAll : List Expr → Nat
  | [] => 0
  | e :: rest => e.written + writtenAll rest

end

/-- Whether an expression is an extract of a number. -/
def isNumberExtract : Expr → Bool
  | extract .number _ _ _ => true
  | _ => false

/-- How many extracts of numbers there are in an expression. -/
def numberExtracts (e : Expr) : Nat := e.nodes.countP isNumberExtract

/-! ## Operand by operand -/

theorem writtenAll_eq (es : List Expr) : writtenAll es = (es.map written).sum := by
  induction es with
  | nil => rfl
  | cons e rest ih => rw [writtenAll, ih, List.map_cons, List.sum_cons]

theorem written_eq (e : Expr) : e.written + (if e.isNumberExtract then 1 else 0) =
    (e.operands.map written).sum + 1 := by
  cases e with
  | extract format o s m => cases format <;> simp [written, isNumberExtract, operands]
  | slice e i j => simp [written, isNumberExtract, operands, Nat.add_assoc]
  | _ => simp [written, isNumberExtract, operands, writtenAll_eq]

theorem numberExtracts_eq (e : Expr) : e.numberExtracts =
    (e.operands.map numberExtracts).sum + if e.isNumberExtract then 1 else 0 := by
  rw [numberExtracts, nodes_eq, List.countP_cons, List.countP_flatMap]
  rfl

/-- An extract of a number has two operands. -/
theorem two_le_length_operands {e : Expr} (h : e.isNumberExtract = true) :
    2 ≤ e.operands.length := by
  cases e with
  | extract format o s m => exact Nat.le_refl 2
  | _ => cases h

/-- What an expression has whenever its operands have it, every expression has. -/
@[elab_as_elim] theorem of_operands {P : Expr → Prop}
    (h : ∀ e : Expr, (∀ x ∈ e.operands, P x) → P e) (e : Expr) : P e :=
  h e fun x _ => of_operands h x
termination_by sizeOf e
decreasing_by exact sizeOf_lt_of_mem_operands ‹_›

theorem sum_add_length_le {f g : Expr → Nat} {es : List Expr} (h : ∀ x ∈ es, f x < g x) :
    (es.map f).sum + es.length ≤ (es.map g).sum := by
  calc (es.map f).sum + es.length
      = (es.map fun x => f x + 1).sum := by simp [List.sum_map_add]
    _ ≤ (es.map g).sum := List.sum_le_sum h

/-! ## Extracts of numbers -/

theorem length_nodes (e : Expr) : e.nodes.length = e.written + e.numberExtracts := by
  induction e using of_operands with
  | h e ih =>
      have hoperands : (e.operands.map fun x => x.nodes.length).sum =
          (e.operands.map written).sum + (e.operands.map numberExtracts).sum := by
        rw [List.map_congr_left ih, List.sum_map_add]
      have hwritten := written_eq e
      have hextracts := numberExtracts_eq e
      rw [nodes_eq, List.length_cons, List.length_flatMap, hoperands]
      omega

theorem numberExtracts_lt_written (e : Expr) : e.numberExtracts < e.written := by
  induction e using of_operands with
  | h e ih =>
      have hoperands := sum_add_length_le ih
      have hwritten := written_eq e
      have hextracts := numberExtracts_eq e
      by_cases he : e.isNumberExtract = true
      · have htwo := two_le_length_operands he
        rw [if_pos he] at hwritten hextracts
        omega
      · rw [if_neg he] at hwritten hextracts
        omega

/-! ## The height -/

/-- A sum of positive numbers exceeds the largest of them by the number of the others at least. -/
theorem heightAll_add_le {es : List Expr} (h : ∀ x ∈ es, x.height ≤ x.written) :
    heightAll es + (es.length - 1) ≤ (es.map written).sum := by
  induction es with
  | nil => exact Nat.le_refl 0
  | cons e rest ih =>
      have he := h e (List.mem_cons_self ..)
      have hrest := ih fun x hx => h x (List.mem_cons_of_mem e hx)
      have hpos := numberExtracts_lt_written e
      have hlength : (rest.map numberExtracts).sum + rest.length ≤ (rest.map written).sum :=
        sum_add_length_le fun x _ => numberExtracts_lt_written x
      simp only [heightAll, List.map_cons, List.sum_cons, List.length_cons]
      omega

theorem height_le_written (e : Expr) : e.height ≤ e.written := by
  induction e using of_operands with
  | h e ih =>
      have hoperands := heightAll_add_le ih
      have hwritten := written_eq e
      rw [height_eq]
      by_cases he : e.isNumberExtract = true
      · have htwo := two_le_length_operands he
        rw [if_pos he] at hwritten
        omega
      · rw [if_neg he] at hwritten
        omega

end RuleScan.Expr
