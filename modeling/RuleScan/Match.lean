import RuleScan.Rule.Basic

/-!
# Matches

A rule whose conditions all held against a file matched it. The match keeps the values
of the variables in sight, the matches of the child rules that matched too, and the
ids of those that did not.

## Main results

* `preorder_eq`, `leaves_eq` — a match comes before the matches below it.
* `leaves_sublist` — the leaves are among the matches of the tree, in their order.
-/

namespace RuleScan

/-- A rule that matched, with the child rules that matched below it. -/
inductive Match where
  | node (rule : RuleId) (id : String) (vars : Table String Value) (children : List Match)
      (unmatched : List String)

namespace Match

/-- The rule that matched. -/
def rule : Match → RuleId
  | node rule _ _ _ _ => rule

/-- The id of the rule that matched. -/
def id : Match → String
  | node _ id _ _ _ => id

/-- The values in sight when the rule matched. -/
def vars : Match → Table String Value
  | node _ _ vars _ _ => vars

/-- The matches of child rules. -/
def children : Match → List Match
  | node _ _ _ children _ => children

/-- The ids of the child rules that did not match. -/
def unmatched : Match → List String
  | node _ _ _ _ unmatched => unmatched

/-- Whether no child rule matched. -/
def isLeaf (m : Match) : Bool := m.children.isEmpty

mutual

/-- The match and all matches below it, each before those below it. -/
def preorder : Match → List Match
  | node r i v cs u => node r i v cs u :: preorderAll cs

/-- The matches of several trees. -/
def preorderAll : List Match → List Match
  | [] => []
  | m :: rest => m.preorder ++ preorderAll rest

end

theorem preorderAll_eq (ms : List Match) : preorderAll ms = ms.flatMap preorder := by
  induction ms with
  | nil => rfl
  | cons m rest ih => simp [preorderAll, ih]

theorem preorder_eq (m : Match) : m.preorder = m :: m.children.flatMap preorder := by
  cases m
  simp [preorder, children, preorderAll_eq]

/-- The matches of the tree below which nothing matched. -/
def leaves (m : Match) : List Match := m.preorder.filter isLeaf

/-- The first match of the tree of the rule with an id. -/
def find? (m : Match) (id : String) : Option Match := m.preorder.find? fun n => n.id == id

theorem leaves_sublist (m : Match) : m.leaves.Sublist m.preorder := List.filter_sublist

theorem leaves_eq (m : Match) :
    m.leaves = if m.isLeaf then [m] else m.children.flatMap leaves := by
  have h : (m.children.flatMap preorder).filter isLeaf = m.children.flatMap leaves := by
    rw [List.filter_flatMap]
    rfl
  unfold leaves at h ⊢
  rw [preorder_eq]
  cases hl : m.isLeaf with
  | true =>
    have hc : m.children = [] := by simpa [isLeaf] using hl
    simp [hl, hc]
  | false => simp [hl, h]

end Match

end RuleScan
