import RuleScan.Table
import RuleScan.Value.Basic

/-!
# Registers

A register holds named values and falls back on other registers where it has no
value of its own: the metadata of a rule falls back on that of its ancestors, the
metadata of a call on that of its rule, and what is known about a file on what the
user defined. The chain of fallbacks is kept flat, nearest first, so a look-up is a
search in a list of tables.

## Main results

* `get?_set`, `get?_child` — what storing and chaining do to look-ups.
* `foldl_set_entries` — a register without fallbacks is determined by its entries.
-/

namespace RuleScan

/-- Named values, with the tables that are asked for names it lacks, nearest first. -/
structure Register where
  own : Table String Value
  outer : List (Table String Value)
  deriving DecidableEq, Inhabited

namespace Register

/-- The register without entries or fallbacks. -/
def empty : Register := ⟨∅, []⟩

instance : EmptyCollection Register := ⟨empty⟩

/-- A register and its fallbacks as one list of tables. -/
def chain (r : Register) : List (Table String Value) := r.own :: r.outer

/-- A register without entries that falls back on another. -/
def child (parent : Register) : Register := ⟨∅, parent.chain⟩

/-- Replaces the fallback, or removes it. -/
def setParent (r : Register) (parent : Option Register) : Register :=
  ⟨r.own, (parent.map chain).getD []⟩

/-- Whether there is a fallback. -/
def hasParent (r : Register) : Bool := !r.outer.isEmpty

/-- Stores a value in the register itself. -/
def set (r : Register) (key : String) (value : Value) : Register :=
  { r with own := r.own.insert key value }

/-- The nearest value under a key along the chain. -/
def get? (r : Register) (key : String) : Option Value :=
  r.chain.findSome? fun t => t.get? key

/-- The nearest value under a key, or a default. -/
def getD (r : Register) (key : String) (default : Value) : Value := (r.get? key).getD default

/-- The nearest value under a key, if it is a number. -/
def number? (r : Register) (key : String) : Option Number :=
  match r.get? key with
  | some (.number n) => some n
  | _ => none

/-- The nearest value under a key, if it is a truth value. -/
def bool? (r : Register) (key : String) : Option Bool :=
  match r.get? key with
  | some (.bool b) => some b
  | _ => none

/-- The nearest value under a key, if it is a byte string. -/
def bytes? (r : Register) (key : String) : Option Bytes :=
  match r.get? key with
  | some (.bytes b) => some b
  | _ => none

/--
Whether two registers hold the same entries and fall back on registers that do; the
order of entries does not count.
-/
def same (r s : Register) : Bool :=
  r.chain.length == s.chain.length &&
    (r.chain.zip s.chain).all fun (t, u) => t.sameEntries u

theorem get?_set (r : Register) (key : String) (value : Value) (k : String) :
    (r.set key value).get? k = if k = key then some value else r.get? k := by
  by_cases h : k = key <;>
    simp [get?, chain, set, List.findSome?_cons, Table.get?_insert, h]

@[simp] theorem get?_child (parent : Register) (k : String) :
    (child parent).get? k = parent.get? k := by
  simp [get?, child, chain, List.findSome?_cons]

@[simp] theorem own_setParent (r : Register) (parent : Option Register) :
    (r.setParent parent).own = r.own := rfl

/-- A register is put together again from its own entries. -/
theorem foldl_set_entries (r : Register) :
    r.own.entries.foldl (fun (r : Register) (key, value) => r.set key value) ∅ =
      r.setParent none := by
  have hfold : ∀ (pairs : List (String × Value)) (t : Table String Value),
      pairs.foldl (fun (r : Register) (key, value) => r.set key value) ⟨t, []⟩ =
        ⟨pairs.foldl (fun t (key, value) => t.insert key value) t, []⟩ := by
    intro pairs
    induction pairs with
    | nil => exact fun _ => rfl
    | cons pair rest ih => exact fun t => ih _
  refine (hfold r.own.entries ∅).trans ?_
  show (⟨Table.ofList r.own.entries, []⟩ : Register) = ⟨r.own, []⟩
  rw [Table.ofList_entries]

end Register

end RuleScan
