import RuleScan.Expr.Basic

/-!
# The nodes of an expression

A node of an expression is the expression itself or anything inside it, at any depth.
Extracts and calls are the nodes with metadata.  Chaining the metadata of an expression to
that of a rule goes from node to node: every node keeps its own entries and falls back on the
metadata of the rule, and nothing else about it changes.

## Main results

* `nodes_eq` — an expression comes before the nodes of the expressions directly inside it.
* `of_mem_nodes` — from an expression to every node inside it, operand by operand.
* `nodes_bindMetadata` — the nodes after chaining are the chained nodes.
* `outer_of_mem_nodes_bindMetadata` — what a chained node falls back on.
-/

namespace RuleScan.Expr

mutual

/-- The nodes of an expression, each before those inside it. -/
def nodes : Expr → List Expr
  | literal v => [literal v]
  | var name => [var name]
  | unary op e => unary op e :: e.nodes
  | binary op l r => binary op l r :: (l.nodes ++ r.nodes)
  | index e i => index e i :: (e.nodes ++ i.nodes)
  | slice e i j => slice e i j :: (e.nodes ++ i.nodes ++ j.nodes)
  | extract format o s m => extract format o s m :: (o.nodes ++ s.nodes)
  | call name args m => call name args m :: nodesAll args

/-- The nodes of the expressions of a list. -/
def nodesAll : List Expr → List Expr
  | [] => []
  | e :: rest => e.nodes ++ nodesAll rest

end

/-- The expressions directly inside an expression. -/
def operands : Expr → List Expr
  | literal _ | var _ => []
  | unary _ e => [e]
  | binary _ l r => [l, r]
  | index e i => [e, i]
  | slice e i j => [e, i, j]
  | extract _ o s _ => [o, s]
  | call _ args _ => args

theorem nodesAll_eq (es : List Expr) : nodesAll es = es.flatMap nodes := by
  induction es with
  | nil => rfl
  | cons e rest ih => simp [nodesAll, ih]

theorem nodes_eq (e : Expr) : e.nodes = e :: e.operands.flatMap nodes := by
  cases e <;> simp [nodes, operands, nodesAll_eq]

theorem mem_nodes_self (e : Expr) : e ∈ e.nodes := by
  rw [nodes_eq]
  exact List.mem_cons_self

theorem nodes_subset_of_mem_operands {e x : Expr} (h : x ∈ e.operands) : x.nodes ⊆ e.nodes := by
  intro n hn
  rw [nodes_eq e]
  exact List.mem_cons_of_mem _ (List.mem_flatMap.2 ⟨x, h, hn⟩)

theorem sizeOf_lt_of_mem_operands {e x : Expr} (h : x ∈ e.operands) : sizeOf x < sizeOf e := by
  cases e with
  | literal | var => cases h
  | call name args m =>
      have hlt := List.sizeOf_lt_of_mem (show x ∈ args from h)
      simp only [call.sizeOf_spec]
      omega
  | _ =>
      simp only [operands, List.mem_cons, List.not_mem_nil, or_false] at h
      rcases h with rfl | rfl | rfl <;> simp <;> omega

/-- What holds of an expression and passes on to operands holds of every node. -/
theorem of_mem_nodes {P : Expr → Prop} (hP : ∀ {e x : Expr}, P e → x ∈ e.operands → P x)
    {e n : Expr} (he : P e) (hn : n ∈ e.nodes) : P n := by
  rw [nodes_eq, List.mem_cons, List.mem_flatMap] at hn
  obtain rfl | ⟨x, hx, hn⟩ := hn
  · exact he
  · exact of_mem_nodes hP (hP he hx) hn
termination_by sizeOf e
decreasing_by exact sizeOf_lt_of_mem_operands hx

/-- The metadata of a node, if it is an extract or a call. -/
def metadata? : Expr → Option Register
  | extract _ _ _ m => some m
  | call _ _ m => some m
  | _ => none

theorem metadata?_bindMetadata (rule : Register) (e : Expr) :
    (e.bindMetadata rule).metadata? = e.metadata?.map (·.setParent (some rule)) := by
  cases e <;> rfl

mutual

theorem nodes_bindMetadata (rule : Register) :
    ∀ e : Expr, (e.bindMetadata rule).nodes = e.nodes.map (bindMetadata rule)
  | literal _ | var _ => rfl
  | unary _ e => by simp [bindMetadata, nodes, nodes_bindMetadata rule e]
  | binary _ l r | index l r => by
    simp [bindMetadata, nodes, nodes_bindMetadata rule l, nodes_bindMetadata rule r]
  | slice a b c => by
    simp [bindMetadata, nodes, nodes_bindMetadata rule a, nodes_bindMetadata rule b,
      nodes_bindMetadata rule c]
  | extract _ o s _ => by
    simp [bindMetadata, nodes, nodes_bindMetadata rule o, nodes_bindMetadata rule s]
  | call _ args _ => by simp [bindMetadata, nodes, nodesAll_bindMetadataAll rule args]

theorem nodesAll_bindMetadataAll (rule : Register) :
    ∀ es : List Expr, nodesAll (bindMetadataAll rule es) = (nodesAll es).map (bindMetadata rule)
  | [] => rfl
  | e :: rest => by
    simp [bindMetadataAll, nodesAll, nodes_bindMetadata rule e,
      nodesAll_bindMetadataAll rule rest]

end

/-- Every node with metadata falls back on the metadata that was bound. -/
theorem outer_of_mem_nodes_bindMetadata {rule : Register} {e n : Expr} {m : Register}
    (hn : n ∈ (e.bindMetadata rule).nodes) (hm : n.metadata? = some m) :
    m.outer = rule.chain := by
  rw [nodes_bindMetadata] at hn
  obtain ⟨n', -, rfl⟩ := List.mem_map.1 hn
  rw [metadata?_bindMetadata] at hm
  obtain ⟨m', -, rfl⟩ := Option.map_eq_some_iff.1 hm
  rfl

end RuleScan.Expr
