import RuleScan.Register

/-!
# Expressions

An expression is a literal, a variable, an operation, a piece of a byte string, an
extract from the current file, or a call of an operator. Extracts and calls carry
metadata of their own, which is chained to that of the rule they stand in.

## Main results

* `same_iff` — structural equality is decided by `same`.
* `literal?_eq_some_iff` — which expressions are literals.
-/

namespace RuleScan

/-- How the bytes read by an extract are understood. -/
inductive ExtractFormat where
  /-- A number as wide as the extract; byte order and sign come from metadata. -/
  | number
  /-- The bytes themselves. -/
  | string
  /-- The bytes before the first zero byte. -/
  | stringz
  deriving DecidableEq, Repr

/-- An expression of the rule language. -/
inductive Expr where
  | literal (value : Value)
  | var (name : String)
  | unary (op : UnaryOp) (operand : Expr)
  | binary (op : BinaryOp) (left right : Expr)
  | index (subject start : Expr)
  | slice (subject start stop : Expr)
  | extract (format : ExtractFormat) (offset size : Expr) (metadata : Register)
  | call (name : String) (args : List Expr) (metadata : Register)
  deriving Inhabited

namespace Expr

/-- A literal number in the width and sign that literals have. -/
def number (n : Nat) : Expr := literal (.number (.literal n))

/-- An extract of a number of a fixed width. -/
def extractNumber (offset : Expr) (width : Width) (metadata : Register) : Expr :=
  extract .number offset (number width.bytes) metadata

/-- The value of a literal. -/
def literal? : Expr → Option Value
  | literal v => some v
  | _ => none

theorem literal?_eq_some_iff {e : Expr} {v : Value} : e.literal? = some v ↔ e = literal v := by
  cases e <;> simp [literal?]

/-- Whether an expression is a call. -/
def isCall : Expr → Bool
  | call .. => true
  | _ => false

/-! ## Metadata -/

mutual

/-- Chains the metadata of every extract and call to that of a rule. -/
def bindMetadata (rule : Register) : Expr → Expr
  | literal v => literal v
  | var name => var name
  | unary op e => unary op (e.bindMetadata rule)
  | binary op l r => binary op (l.bindMetadata rule) (r.bindMetadata rule)
  | index e i => index (e.bindMetadata rule) (i.bindMetadata rule)
  | slice e i j => slice (e.bindMetadata rule) (i.bindMetadata rule) (j.bindMetadata rule)
  | extract format o s m =>
    extract format (o.bindMetadata rule) (s.bindMetadata rule) (m.setParent (some rule))
  | call name args m => call name (bindMetadataAll rule args) (m.setParent (some rule))

/-- Chains the metadata inside every expression of a list. -/
def bindMetadataAll (rule : Register) : List Expr → List Expr
  | [] => []
  | e :: rest => e.bindMetadata rule :: bindMetadataAll rule rest

end

theorem bindMetadataAll_eq_map (rule : Register) (es : List Expr) :
    bindMetadataAll rule es = es.map (bindMetadata rule) := by
  induction es with
  | nil => rfl
  | cons e rest ih => simp [bindMetadataAll, ih]

/-! ## Equality -/

mutual

/-- Whether two expressions are built alike. -/
def same : Expr → Expr → Bool
  | literal v, literal w => v == w
  | var x, var y => x == y
  | unary o a, unary p b => o == p && a.same b
  | binary o a b, binary p c d => o == p && a.same c && b.same d
  | index a b, index c d => a.same c && b.same d
  | slice a b c, slice d e f => a.same d && b.same e && c.same f
  | extract f a b m, extract g c d n => f == g && a.same c && b.same d && decide (m = n)
  | call x as m, call y bs n => x == y && sameAll as bs && decide (m = n)
  | _, _ => false

/-- Whether two lists hold expressions that are built alike. -/
def sameAll : List Expr → List Expr → Bool
  | [], [] => true
  | a :: as, b :: bs => a.same b && sameAll as bs
  | _, _ => false

end

mutual

theorem eq_of_same : ∀ {a b : Expr}, a.same b = true → a = b
  | literal _, b, h | var _, b, h => by cases b <;> simp_all [same]
  | unary _ a, b, h => by
    cases b <;> simp only [same, Bool.and_eq_true, beq_iff_eq, Bool.false_eq_true] at h
    rw [h.1, eq_of_same h.2]
  | binary _ a b, c, h => by
    cases c <;> simp only [same, Bool.and_eq_true, beq_iff_eq, Bool.false_eq_true] at h
    rw [h.1.1, eq_of_same h.1.2, eq_of_same h.2]
  | index a b, c, h => by
    cases c <;> simp only [same, Bool.and_eq_true, Bool.false_eq_true] at h
    rw [eq_of_same h.1, eq_of_same h.2]
  | slice a b c, d, h => by
    cases d <;> simp only [same, Bool.and_eq_true, Bool.false_eq_true] at h
    rw [eq_of_same h.1.1, eq_of_same h.1.2, eq_of_same h.2]
  | extract _ a b _, c, h => by
    cases c <;>
      simp only [same, Bool.and_eq_true, beq_iff_eq, decide_eq_true_eq, Bool.false_eq_true] at h
    rw [h.1.1.1, eq_of_same h.1.1.2, eq_of_same h.1.2, h.2]
  | call _ as _, c, h => by
    cases c <;>
      simp only [same, Bool.and_eq_true, beq_iff_eq, decide_eq_true_eq, Bool.false_eq_true] at h
    rw [h.1.1, eq_of_sameAll h.1.2, h.2]

theorem eq_of_sameAll : ∀ {as bs : List Expr}, sameAll as bs = true → as = bs
  | [], bs, h => by cases bs <;> simp_all [sameAll]
  | a :: as, bs, h => by
    cases bs <;> simp only [sameAll, Bool.and_eq_true, Bool.false_eq_true] at h
    rw [eq_of_same h.1, eq_of_sameAll h.2]

end

mutual

theorem same_refl : ∀ a : Expr, a.same a = true
  | literal _ | var _ => by simp [same]
  | unary _ a => by simp [same, same_refl a]
  | binary _ a b | index a b => by simp [same, same_refl a, same_refl b]
  | slice a b c => by simp [same, same_refl a, same_refl b, same_refl c]
  | extract _ a b _ => by simp [same, same_refl a, same_refl b]
  | call _ as _ => by simp [same, sameAll_refl as]

theorem sameAll_refl : ∀ as : List Expr, sameAll as as = true
  | [] => rfl
  | a :: as => by simp [sameAll, same_refl a, sameAll_refl as]

end

theorem same_iff {a b : Expr} : a.same b = true ↔ a = b :=
  ⟨eq_of_same, fun h => h ▸ same_refl a⟩

instance : DecidableEq Expr := fun _ _ => decidable_of_iff _ same_iff

end Expr

end RuleScan
