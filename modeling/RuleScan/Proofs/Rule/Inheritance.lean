import RuleScan.Evaluation
import RuleScan.Proofs.Expr.Nodes
import RuleScan.Proofs.Rule.Linking

/-!
# Metadata is resolved where it is declared

The extracts and calls in a closed rule ask for metadata in their own register, which falls
back on the metadata of the rule they stand in, of its parent, and so on up to a root.  Since
the fallbacks are part of the expression, the answer is the same wherever the expression is
evaluated, also in a rule further down that has other metadata.

`RuleSet.Lineage` lists a rule and its ancestors up to a root.  In a linked set every rule has
exactly one lineage, and the tables that the metadata of a rule consults are those of its
lineage, in order.

## Main results

* `IsLinked.exists_lineage`, `Lineage.unique` — every rule has one line of ancestors.
* `IsLinked.chain_eq` — the tables that the metadata of a rule consults.
* `metadata_resolved` — what the extracts and calls of an accepted rule find.
-/

namespace RuleScan

open Environment

/-- The entry for a key of the nearest of several rules that has one. -/
def nearestEntry (rs : List Rule) (key : String) : Option Value :=
  rs.findSome? fun r => r.metadata.own.get? key

/-- The truth value that an entry holds, or a default. -/
def flagOf (entry : Option Value) (default : Bool) : Bool :=
  match entry with
  | some (.bool b) => b
  | _ => default

/-- The truth value under a key that a node with entries of its own finds in a rule with a
lineage. -/
def resolvedFlag (own : Table String Value) (rs : List Rule) (key : String) (default : Bool) :
    Bool :=
  flagOf ((own.get? key).or (nearestEntry rs key)) default

/-- Reads a number of the current file in a given byte order and sign, at an offset and of a
size that are given by expressions. -/
def readNumber (eval : Expr → Step Value) (offset size : Expr) (bigEndian signed : Bool) :
    Step Value := do
  let offset ← Step.ofValue (← eval offset).asOffset
  let size ← Step.ofValue (← eval size).asOffset
  match Width.ofBytes? size with
  | none => throw (.invalidWidth size)
  | some width =>
    let bytes ← Step.read offset width.bytes
    let word := wordOfBytes (if bigEndian then bytes else bytes.reverse)
    pure (.number (.ofWord (BitVec.ofNat 64 word) width signed))

theorem Register.bool?_getD (m : Register) (key : String) (default : Bool) :
    (m.bool? key).getD default = flagOf (m.get? key) default := by
  unfold bool? flagOf
  cases m.get? key with
  | none => rfl
  | some v => cases v <;> rfl

/-- A numeric extract reads a number in the byte order and sign of its own register, whatever
the session and whatever rules are being evaluated. -/
theorem evaluateNode_extract (env : Environment) (eval : Expr → Step Value) (o n : Expr)
    (m : Register) :
    env.evaluateNode eval (.extract .number o n m) =
      readNumber eval o n (flagOf (m.get? "bigendian") true) (flagOf (m.get? "signed") false) := by
  rw [← Register.bool?_getD, ← Register.bool?_getD]
  rfl

namespace RuleSet

variable {s t : RuleSet}

/-! ## Lines of ancestors -/

/-- A rule and its ancestors, up to a rule without a parent. -/
inductive Lineage (t : RuleSet) : RuleId → List Rule → Prop where
  | root {i : RuleId} {r : Rule} : t.rules[i]? = some r → r.parentName = none → Lineage t i [r]
  | child {p i : RuleId} {r : Rule} {rs : List Rule} :
      t.rules[i]? = some r → t.Names p i → Lineage t p rs → Lineage t i (r :: rs)

theorem Names.parentName_ne_none {p i : RuleId} {r : Rule} (h : t.Names p i)
    (hr : t.rules[i]? = some r) : r.parentName ≠ none := by
  obtain ⟨name, hname, -⟩ := h
  rw [hr, Option.bind_some] at hname
  rw [hname]
  exact Option.some_ne_none name

/-- A lineage begins with the rule itself. -/
theorem Lineage.exists_cons {i : RuleId} {r : Rule} {rs : List Rule} (h : t.Lineage i rs)
    (hr : t.rules[i]? = some r) : ∃ rest, rs = r :: rest := by
  cases h with
  | root hr' _ | child hr' _ _ =>
      rw [hr, Option.some.injEq] at hr'
      exact ⟨_, by rw [hr']⟩

theorem Lineage.unique (ht : t.IsIndexed) {i : RuleId} {rs rs' : List Rule}
    (h : t.Lineage i rs) (h' : t.Lineage i rs') : rs = rs' := by
  induction h generalizing rs' with
  | root hr hnone =>
      cases h' with
      | root hr' _ =>
          rw [hr, Option.some.injEq] at hr'
          rw [hr']
      | child hr' hp _ =>
          rw [hr, Option.some.injEq] at hr'
          exact absurd (hr' ▸ hnone) (hp.parentName_ne_none (hr'.symm ▸ hr))
  | child hr hp _ ih =>
      cases h' with
      | root hr' hnone =>
          exact absurd hnone (hp.parentName_ne_none hr')
      | child hr' hp' hrs' =>
          rw [hr, Option.some.injEq] at hr'
          rw [ht.names_iff] at hp hp'
          rw [hp, Option.some.injEq] at hp'
          rw [hr', ih (hp' ▸ hrs')]

namespace IsLinked

variable {i : RuleId} {r : Rule}

/-- The way from its root to a rule, read backwards, is the line of its ancestors. -/
theorem exists_lineage (ht : s.IsLinked t) (hr : t.rules[i]? = some r) :
    ∃ rs, t.Lineage i (r :: rs) := by
  obtain ⟨root, hroot, hreach, -⟩ := ht.reachable i (Array.getElem?_eq_some_iff.1 hr).1
  have hline : ∃ rs, t.Lineage i rs := by
    clear hr
    induction hreach with
    | refl =>
        rw [ht.roots, List.mem_filter, List.mem_range] at hroot
        have hr := Array.getElem?_eq_getElem (show root < t.rules.size from hroot.1)
        have hnone := of_decide_eq_true hroot.2
        rw [hr, Option.bind_some] at hnone
        exact ⟨_, .root hr hnone⟩
    | tail _ hchild ih =>
        obtain ⟨rs, hrs⟩ := ih
        have hnames := ht.isForest.names_of_isChild hchild
        obtain ⟨r, hr, -⟩ := ht.parents.2 hnames
        exact ⟨_, .child hr hnames hrs⟩
  obtain ⟨rs, hrs⟩ := hline
  obtain ⟨rest, rfl⟩ := hrs.exists_cons hr
  exact ⟨rest, hrs⟩

/-! ## The tables that are consulted -/

/-- The metadata of a rule falls back on that of its parent. -/
theorem outer_eq (ht : s.IsLinked t) (hr : t.rules[i]? = some r) :
    r.metadata.outer = ((t.parentMetadata r).map Register.chain).getD [] := by
  obtain ⟨r', -, heq⟩ := ht.rules hr
  rw [heq]
  rfl

/-- The metadata of a rule consults the tables of its lineage, nearest first. -/
theorem chain_eq (ht : s.IsLinked t) {rs : List Rule} (h : t.Lineage i rs)
    (hr : t.rules[i]? = some r) : r.metadata.chain = rs.map fun q => q.metadata.own := by
  induction h generalizing r with
  | root hr' hnone =>
      rw [hr, Option.some.injEq] at hr'
      subst hr'
      cases hp : r.parent with
      | none => simp [Register.chain, ht.outer_eq hr, parentMetadata, hp]
      | some p => exact absurd hnone ((ht.parents.1 ⟨r, hr, hp⟩).parentName_ne_none hr)
  | child hr' hnames hrs ih =>
      rw [hr, Option.some.injEq] at hr'
      subst hr'
      obtain ⟨r', hr', hp⟩ := ht.parents.2 hnames
      rw [hr, Option.some.injEq] at hr'
      subst hr'
      obtain ⟨name, -, hq⟩ := hnames
      obtain ⟨q, hq, -⟩ := Option.map_eq_some_iff.1 hq
      simp [Register.chain, ht.outer_eq hr, parentMetadata, hp, hq, ← ih hq]

/-- The expressions of a closed rule are those that were read, chained to its metadata. -/
theorem exists_of_mem_exprs (ht : s.IsLinked t) (hr : t.rules[i]? = some r) {e : Expr}
    (he : e ∈ r.exprs) :
    ∃ r' e', s.rules[i]? = some r' ∧ e' ∈ r'.exprs ∧ e = e'.bindMetadata r.metadata := by
  obtain ⟨r', hr', heq⟩ := ht.rules hr
  have hexprs : r.exprs = r'.exprs.map (Expr.bindMetadata r.metadata) := by
    rw [heq]
    simp [Rule.exprs, Rule.bound, Table.values, Table.mapValues, Function.comp_def]
  rw [hexprs] at he
  obtain ⟨e', he', rfl⟩ := List.mem_map.1 he
  exact ⟨r', e', hr', he', rfl⟩

end IsLinked

/-! ## What extracts and calls find -/

/-- What a node `n` with the register `m` finds that stands in a rule with the lineage `rs`. -/
structure IsResolved (rs : List Rule) (n : Expr) (m : Register) : Prop where
  /-- A key has the entry of the node itself, or of the nearest rule that has one. -/
  entry : ∀ key, m.get? key = (m.own.get? key).or (nearestEntry rs key)
  /-- A number is read in the byte order and sign that are found so, in every session. -/
  number : ∀ {o size}, n = .extract .number o size m → ∀ env limit budget,
    evaluateWithin env limit (budget + 1) n =
      Step.nested limit (readNumber (evaluateWithin env limit budget) o size
        (resolvedFlag m.own rs "bigendian" true)
        (resolvedFlag m.own rs "signed" false))
  /-- So it is for a variable with this expression, also when its name is needed while a rule
  further down, with metadata of its own, is evaluated. -/
  named : ∀ {o size}, n = .extract .number o size m → ∀ env limit name level (s : Session),
    name.toList.head? ≠ some '$' → s.scope.lookup name = some (level, .unevaluated n) →
    s.depth < limit → resolve env limit name s =
      settle (fun _ => Step.nested limit
        (readNumber (evaluateWithin env limit (limit - (s.depth + 1))) o size
          (resolvedFlag m.own rs "bigendian" true)
          (resolvedFlag m.own rs "signed" false)))
        level name n s

theorem isResolved_of_outer {rs : List Rule} {n : Expr} {m : Register}
    (h : m.outer = rs.map fun q => q.metadata.own) : IsResolved rs n m := by
  have hentry : ∀ key, m.get? key = (m.own.get? key).or (nearestEntry rs key) := by
    intro key
    unfold Register.get? Register.chain nearestEntry
    rw [List.findSome?_cons, h, List.findSome?_map]
    cases m.own.get? key <;> rfl
  have hnumber : ∀ {o size}, n = .extract .number o size m → ∀ env limit budget,
      evaluateWithin env limit (budget + 1) n =
        Step.nested limit (readNumber (evaluateWithin env limit budget) o size
          (resolvedFlag m.own rs "bigendian" true)
          (resolvedFlag m.own rs "signed" false)) := by
    intro o size hn env limit budget
    rw [evaluateWithin_succ, hn, evaluateNode_extract, hentry, hentry]
    rfl
  refine ⟨hentry, hnumber, fun hn env limit name level s hname hl hdepth => ?_⟩
  have hroom : s.room limit = limit - (s.depth + 1) + 1 := by
    unfold Session.room
    omega
  calc resolve env limit name s
      = settle (evaluateWithin env limit (s.room limit)) level name n s :=
        resolveWith_unevaluated hname hl
    _ = settle (fun _ => evaluateWithin env limit (s.room limit) n) level name n s := rfl
    _ = _ := by rw [hroom, hnumber hn]

/-- Every extract and call of an accepted rule, at whatever depth, finds its own entries and
otherwise those of the nearest rule in the lineage of the rule that it stands in. -/
theorem metadata_resolved {signatures : String → Option Signature}
    {sources : List (String × String)} {t : RuleSet}
    (h : (collect signatures sources).linked = .ok t) {i : RuleId} {r : Rule}
    (hr : t.rules[i]? = some r) :
    ∃ rs, (∀ rs', t.Lineage i rs' ↔ rs' = r :: rs) ∧
      ∀ e ∈ r.exprs, ∀ n ∈ e.nodes, ∀ m, n.metadata? = some m → IsResolved (r :: rs) n m := by
  have ht := isLinked_of_linked (isCollection_isFolded signatures sources) h
  obtain ⟨rs, hrs⟩ := ht.exists_lineage hr
  refine ⟨rs, fun rs' => ⟨fun h' => h'.unique ht.indexed hrs, fun heq => heq ▸ hrs⟩, ?_⟩
  intro e he n hn m hm
  obtain ⟨r', e', -, -, rfl⟩ := ht.exists_of_mem_exprs hr he
  refine isResolved_of_outer ?_
  rw [Expr.outer_of_mem_nodes_bindMetadata hn hm, ht.chain_eq hrs hr]

/-- Two rules, of which the second inherits a byte order and sets the sign. -/
def inheritingText : String :=
  "rule little (bigendian=false) \x7b var x = Short(0); \x7d " ++
  "rule child (signed=true) : little \x7b var y = Short(x) + 1; \x7d"

/-- The extract in the second rule has no entries of its own; it finds the sign in its rule
and the byte order in the parent. -/
theorem metadata_resolved_inheriting :
    ∃ t r e n m rs, (collect (fun _ => none) [("rules", inheritingText)]).linked = .ok t ∧
      t.rules[1]? = some r ∧ e ∈ r.exprs ∧ n ∈ e.nodes ∧ n.metadata? = some m ∧
      t.Lineage 1 (r :: rs) ∧ IsResolved (r :: rs) n m ∧ m.own = ∅ ∧
      m.get? "bigendian" = some (.bool false) ∧ m.get? "signed" = some (.bool true) := by
  have hcomputed : ((collect (fun _ => none) [("rules", inheritingText)]).linked.toOption.bind
      fun t => t.rules[1]?.bind fun r => r.exprs[0]?.bind fun e => e.nodes[1]?.bind
        Expr.metadata?) = some ⟨∅, [.ofList [("signed", .bool true)],
          .ofList [("bigendian", .bool false)]]⟩ := by
    decide +kernel
  obtain ⟨t, ht, hcomputed⟩ := Option.bind_eq_some_iff.1 hcomputed
  obtain ⟨r, hr, hcomputed⟩ := Option.bind_eq_some_iff.1 hcomputed
  obtain ⟨e, he, hcomputed⟩ := Option.bind_eq_some_iff.1 hcomputed
  obtain ⟨n, hn, hm⟩ := Option.bind_eq_some_iff.1 hcomputed
  have hlinked := ok_of_toOption ht
  obtain ⟨rs, hrs, hall⟩ := metadata_resolved hlinked hr
  have hmem := List.mem_of_getElem? he
  exact ⟨t, r, e, n, _, rs, hlinked, hr, hmem, List.mem_of_getElem? hn, hm, (hrs _).2 rfl,
    hall e hmem n (List.mem_of_getElem? hn) _ hm, rfl, rfl, rfl⟩

end RuleSet

end RuleScan
