import RuleScan.Operator.Builtin
import RuleScan.Proofs.Reading.Affording
import RuleScan.Proofs.Rule.Collection

/-!
# How many nodes an expression can have

The limit of nodes is kept for the nodes that are written.  An extract of a number has one node
more, its size, which is part of the expression but is counted nowhere.  So an expression that is
read has at most as many nodes as the limit and its extracts of numbers together, and never twice
the limit.  A sum of 65 extracts of bytes passes the limit that way and is accepted.

## Main results

* `length_nodes_boundedExpression` — the bound on all nodes.
* `boundedExpression_byteSum` — an expression that is accepted although it has too many nodes.
-/

namespace RuleScan.Parser

/--
**What the limit of nodes comes to.**  An expression that is read, from whatever tokens, has at most
256 nodes besides the sizes of its extracts of numbers, one for each of these, and fewer than 512
nodes in all.
-/
theorem length_nodes_boundedExpression (signatures : String → Option Signature) {c c' : Cursor}
    {e : Expr} (h : boundedExpression signatures c = .ok (e, c')) :
    e.nodes.length ≤ 256 + e.nodes.countP Expr.isNumberExtract ∧ e.nodes.length < 512 := by
  have hlimit : e.written ≤ 256 := yields_written_boundedExpression signatures c e c' h
  have hnodes : e.nodes.length = e.written + e.nodes.countP Expr.isNumberExtract := e.length_nodes
  have hextracts : e.nodes.countP Expr.isNumberExtract < e.written := e.numberExtracts_lt_written
  omega

/-- The tokens of a sum of extracts of bytes, by the number of its additions. -/
def byteSum (additions : Nat) : List Token :=
  let byte := [.ident "Byte", .symbol .parenOpen, .number 0, .symbol .parenClose]
  let kinds := byte ++ (List.replicate additions (.symbol .plus :: byte)).flatten ++ [.eof]
  kinds.map fun kind => ⟨kind, ⟨1, 1⟩, kind.describe.toList⟩

theorem read_byteSum : ∃ e c',
    boundedExpression Registry.builtins.signature? ⟨byteSum 64, 0⟩ = .ok (e, c') ∧
      e.nodes.length = 259 := by
  have hread : ((boundedExpression Registry.builtins.signature? ⟨byteSum 64, 0⟩).toOption.map
      fun r => r.1.nodes.length) = some 259 := by decide +kernel
  obtain ⟨⟨e, c'⟩, he, hnodes⟩ := Option.map_eq_some_iff.1 hread
  exact ⟨e, c', ok_of_toOption he, hnodes⟩

theorem length_nodes_boundedExpression_byteSum : ∃ e c',
    boundedExpression Registry.builtins.signature? ⟨byteSum 64, 0⟩ = .ok (e, c') ∧
      e.nodes.length ≤ 256 + e.nodes.countP Expr.isNumberExtract ∧ e.nodes.length < 512 := by
  obtain ⟨e, c', he, -⟩ := read_byteSum
  exact ⟨e, c', he, length_nodes_boundedExpression _ he⟩

/-- The limit is passed by the sizes of 65 extracts. -/
theorem boundedExpression_byteSum :
    ¬ ∀ (signatures : String → Option Signature) (c : Cursor) (e : Expr) (c' : Cursor),
      boundedExpression signatures c = .ok (e, c') → e.nodes.length ≤ 256 := by
  intro hlimit
  obtain ⟨e, c', he, hnodes⟩ := read_byteSum
  have hle := hlimit _ _ e c' he
  omega

end RuleScan.Parser
