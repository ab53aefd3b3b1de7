import RuleScan.Proofs.Reading.Counting

/-!
# Operands are grouped by precedence

Between operands stand operations.  There are many ways to group the operands, but only one in
which every operation has operations on its left that bind at least as tightly as itself, and
operations on its right that bind more tightly.  That is the one that precedence climbing finds.

A grouping (`Grouping`) tells the operands apart from the operations between them, so an operand
that is an operation in parentheses is a whole.  Climbing is looked at twice.  On a list of
operations and operands it is a function on groupings (`Grouping.grow`); on tokens it does the
same, as long as there are not too many nodes.

## Main results

* `Grouping.ByPrecedence.eq_of_reading_eq` — there is one grouping at most.
* `Grouping.isGrown_grow` — climbing finds it.
* `climb_of_follows`, `follows_of_climb` — climbing along the tokens.
* `expression_byPrecedence` — what is read as an expression.
-/

namespace RuleScan

/-- Operands, grouped by the operations between them. -/
inductive Grouping where
  | operand (e : Expr)
  | operation (op : BinaryOp) (left right : Grouping)

namespace Grouping

variable {g h left : Grouping} {budget least : Nat} {xs : List (BinaryOp × Expr)}

/-- The expression with these operations. -/
def expr : Grouping → Expr
  | operand e => e
  | operation op l r => .binary op l.expr r.expr

/-- The leftmost operand. -/
def first : Grouping → Expr
  | operand e => e
  | operation _ l _ => l.first

/-- The operations from left to right, each with the operand behind it. -/
def rest : Grouping → List (BinaryOp × Expr)
  | operand _ => []
  | operation op l r => l.rest ++ (op, r.first) :: r.rest

/-- If this is an operation, it binds as tightly as that. -/
def AtLeast (least : Nat) : Grouping → Prop
  | operand _ => True
  | operation op _ _ => least ≤ op.precedence

/-- On the left of an operation, operations bind at least as tightly as itself; on its right, they
bind more tightly. -/
inductive ByPrecedence : Grouping → Prop where
  | operand (e : Expr) : ByPrecedence (operand e)
  | operation {op : BinaryOp} {l r : Grouping} (hl : l.ByPrecedence) (hr : r.ByPrecedence)
      (left : l.AtLeast op.precedence) (right : r.AtLeast (op.precedence + 1)) :
      ByPrecedence (operation op l r)

/-! ## There is one grouping at most -/

/-- Of all operations, the outermost binds least tightly. -/
theorem ByPrecedence.le_of_mem (hg : g.ByPrecedence) (hleast : g.AtLeast least)
    {x : BinaryOp × Expr} (hx : x ∈ g.rest) : least ≤ x.1.precedence := by
  induction hg generalizing least with
  | operand e => cases hx
  | @operation op l r _ _ hleft hright ihl ihr =>
      have hop : least ≤ op.precedence := hleast
      rcases List.mem_append.1 hx with hx | hx
      · exact Nat.le_trans hop (ihl hleft hx)
      · rcases List.mem_cons.1 hx with rfl | hx
        · exact hop
        · exact Nat.le_trans (Nat.le_succ_of_le hop) (ihr hright hx)

/-- The outermost operation cannot stand further to the left in one grouping than in another. -/
theorem ByPrecedence.not_before {op op' : BinaryOp} {l r l' r' : Grouping}
    (hg : (Grouping.operation op l r).ByPrecedence)
    (hg' : (Grouping.operation op' l' r').ByPrecedence)
    {x : BinaryOp × Expr} {between : List (BinaryOp × Expr)}
    (hl : l'.rest = l.rest ++ x :: between)
    (hr : (op, r.first) :: r.rest = x :: between ++ (op', r'.first) :: r'.rest) : False := by
  obtain ⟨rfl, hrest⟩ := List.cons.inj hr
  cases hg with
  | operation _ hr' _ hright =>
      cases hg' with
      | operation hl' _ hleft _ =>
          have hless : op.precedence + 1 ≤ op'.precedence :=
            hr'.le_of_mem (x := (op', r'.first)) hright (by simp [hrest])
          have hmore : op'.precedence ≤ op.precedence :=
            hl'.le_of_mem (x := (op, r.first)) hleft (by simp [hl])
          omega

/-- The induction is on the first grouping: its outermost operation is that of the second one. -/
theorem ByPrecedence.eq_of_reading_eq (hg : g.ByPrecedence) (hh : h.ByPrecedence)
    (hfirst : g.first = h.first) (hrest : g.rest = h.rest) : g = h := by
  induction hg generalizing h with
  | operand e =>
      cases hh with
      | operand e' => exact congrArg Grouping.operand hfirst
      | operation => exact absurd hrest (by simp [rest])
  | @operation op l r hl hr hleft hright ihl ihr =>
      have hg := ByPrecedence.operation hl hr hleft hright
      cases hh with
      | operand e' => exact absurd hrest (by simp [rest])
      | @operation op' l' r' hl' hr' hleft' hright' =>
          have hh := ByPrecedence.operation hl' hr' hleft' hright'
          have hsame (hbefore : l.rest = l'.rest)
              (hbehind : (op, r.first) :: r.rest = (op', r'.first) :: r'.rest) :
              Grouping.operation op l r = .operation op' l' r' := by
            obtain ⟨hop, hrest'⟩ := List.cons.inj hbehind
            obtain ⟨rfl, hfirst'⟩ := Prod.mk.inj hop
            rw [ihl hl' hfirst hbefore, ihr hr' hfirst' hrest']
          rw [rest, rest, List.append_eq_append_iff] at hrest
          obtain ⟨between, hbefore, hbehind⟩ | ⟨between, hbefore, hbehind⟩ := hrest
          · cases between with
            | nil => exact hsame (by simpa using hbefore.symm) hbehind
            | cons x between => exact (hg.not_before hh hbefore hbehind).elim
          · cases between with
            | nil => exact hsame (by simpa using hbefore) hbehind.symm
            | cons x between => exact (hh.not_before hg hbefore hbehind).elim

/-! ## Climbing finds it -/

/-- Extends a grouping by the operations that follow it and bind at least as tightly as a least
precedence, as `Parser.climb` does. -/
def grow : Nat → Nat → Grouping → List (BinaryOp × Expr) → Grouping × List (BinaryOp × Expr)
  | 0, _, left, xs => (left, xs)
  | _ + 1, _, left, [] => (left, [])
  | budget + 1, least, left, (op, e) :: xs =>
    if op.precedence < least then (left, (op, e) :: xs)
    else
      let right := grow budget (op.precedence + 1) (operand e) xs
      grow budget least (operation op left right.1) right.2

/-- Nothing is lost, and nothing changes its place. -/
theorem reading_grow (budget least : Nat) (left : Grouping) (xs : List (BinaryOp × Expr)) :
    (grow budget least left xs).1.first = left.first ∧
      (grow budget least left xs).1.rest ++ (grow budget least left xs).2 = left.rest ++ xs := by
  induction budget generalizing least left xs with
  | zero => exact ⟨rfl, rfl⟩
  | succ budget ih =>
      match xs with
      | [] => exact ⟨rfl, rfl⟩
      | (op, e) :: xs =>
          unfold grow
          split
          · exact ⟨rfl, rfl⟩
          · obtain ⟨hfirst, hrest⟩ := ih (op.precedence + 1) (operand e) xs
            obtain ⟨hfirst', hrest'⟩ := ih least (operation op left
              (grow budget (op.precedence + 1) (operand e) xs).1)
              (grow budget (op.precedence + 1) (operand e) xs).2
            refine ⟨hfirst', ?_⟩
            rw [hrest', rest, hfirst, List.append_assoc, List.cons_append, hrest]
            rfl

/-- What an operand leaves behind is no longer than what followed it. -/
theorem length_grow_operand_le (budget least : Nat) (e : Expr) (xs : List (BinaryOp × Expr)) :
    (grow budget least (operand e) xs).2.length ≤ xs.length := by
  have hsuffix : (grow budget least (operand e) xs).2 <:+ xs :=
    ⟨_, (reading_grow budget least (operand e) xs).2⟩
  exact hsuffix.length_le

/-- What climbing comes to. -/
structure IsGrown (least : Nat) (result : Grouping × List (BinaryOp × Expr)) : Prop where
  ordered : result.1.ByPrecedence
  atLeast : result.1.AtLeast least
  stops : ∀ op e more, result.2 = (op, e) :: more → op.precedence < least

/-- The invariant is that what follows binds no more tightly than the outermost operation so far. -/
theorem isGrown_grow (hbudget : xs.length ≤ budget) (hleft : left.ByPrecedence)
    (hleast : left.AtLeast least)
    (hnext : ∀ op e more, xs = (op, e) :: more → left.AtLeast op.precedence) :
    IsGrown least (grow budget least left xs) := by
  induction budget generalizing least left xs with
  | zero =>
      obtain rfl := List.length_eq_zero_iff.1 (Nat.le_zero.1 hbudget)
      exact ⟨hleft, hleast, nofun⟩
  | succ budget ih =>
      match xs with
      | [] => exact ⟨hleft, hleast, nofun⟩
      | (op, e) :: xs =>
          have hlength : xs.length ≤ budget := Nat.le_of_succ_le_succ hbudget
          unfold grow
          split
          · next hless =>
            refine ⟨hleft, hleast, fun op' e' more heq => ?_⟩
            cases heq
            exact hless
          · next hless =>
            have hright : IsGrown (op.precedence + 1)
                (grow budget (op.precedence + 1) (operand e) xs) :=
              ih hlength (.operand e) trivial fun _ _ _ _ => trivial
            refine ih ?_ (.operation hleft hright.ordered (hnext op e xs rfl) hright.atLeast)
              (Nat.le_of_not_lt hless) fun op' e' more heq => ?_
            · exact Nat.le_trans (length_grow_operand_le _ _ _ _) hlength
            · exact Nat.le_of_lt_succ (hright.stops op' e' more heq)

/-- Every operation binds as tightly as the least precedence, so behind an operand none is left. -/
theorem exists_grow_operand (hbudget : xs.length ≤ budget) (e : Expr) :
    ∃ g, grow budget 1 (operand e) xs = (g, []) ∧ g.first = e ∧ g.rest = xs ∧ g.ByPrecedence := by
  have hgrown : IsGrown 1 (grow budget 1 (operand e) xs) :=
    isGrown_grow hbudget (.operand e) trivial fun _ _ _ _ => trivial
  obtain ⟨hfirst, hrest⟩ := reading_grow budget 1 (operand e) xs
  generalize grow budget 1 (operand e) xs = result at *
  obtain ⟨g, behind⟩ := result
  cases behind with
  | nil => exact ⟨g, rfl, hfirst, (List.append_nil _).symm.trans hrest, hgrown.ordered⟩
  | cons x more =>
      have hless := hgrown.stops x.1 x.2 more rfl
      exact absurd x.1.precedence_pos (Nat.not_lt.2 (Nat.le_of_lt_succ hless))

end Grouping

/-! ## Climbing along tokens -/

namespace Parser

variable {operand : Parser Expr} {ts ts' ts'' : List Token} {xs : List (BinaryOp × Expr)}
  {n cost budget least : Nat} {c c' : Cursor}

/-- On the tokens up to others, operations stand with an operand behind each.  They cost so many
nodes; an operand costs what it costs when it is read on its own. -/
inductive Follows (operand : Parser Expr) :
    List Token → List (BinaryOp × Expr) → Nat → List Token → Prop where
  | nil {ts : List Token} : Follows operand ts [] 0 ts
  | cons {t : Token} {ts ts' ts'' : List Token} {op : BinaryOp} {e : Expr}
      {xs : List (BinaryOp × Expr)} {cost cost' : Nat} (hop : BinaryOp.ofKind? t.kind = some op)
      (he : operand ⟨ts, 0⟩ = .ok (e, ⟨ts', cost⟩)) (h : Follows operand ts' xs cost' ts'') :
      Follows operand (t :: ts) ((op, e) :: xs) (cost + 1 + cost') ts''

/-- The tokens do not go on with an operation that binds so tightly. -/
def Stops (least : Nat) (ts : List Token) : Prop :=
  ∀ op, BinaryOp.ofKind? (ts.headD default).kind = some op → op.precedence < least

theorem Follows.length_le (h : Follows operand ts xs cost ts') : xs.length ≤ cost := by
  induction h with
  | nil => exact Nat.le_refl 0
  | cons _ _ _ ih =>
      rw [List.length_cons]
      omega

theorem Follows.append {ys : List (BinaryOp × Expr)} {cost' : Nat}
    (h : Follows operand ts xs cost ts') (h' : Follows operand ts' ys cost' ts'') :
    Follows operand ts (xs ++ ys) (cost + cost') ts'' := by
  induction h with
  | nil => rwa [Nat.zero_add]
  | cons hop he _ ih =>
      rw [Nat.add_assoc]
      exact .cons hop he (ih h')

/-- An operation is not the end of the input. -/
theorem advance_operation {t : Token} {op : BinaryOp} (hop : BinaryOp.ofKind? t.kind = some op) :
    advance ⟨t :: ts, n⟩ = .ok (t, ⟨ts, n⟩) := by
  have hne : t.kind ≠ .eof := fun heq => by simp [heq, BinaryOp.ofKind?] at hop
  have htail : Cursor.advance ⟨t :: ts, n⟩ = ⟨ts, n⟩ := if_neg hne
  exact congrArg (fun c => Except.ok (t, c)) htail

/-- Climbing is over where no such operation follows. -/
theorem climb_of_stops (h : Stops least ts) (budget : Nat) (left : Expr) (n : Nat) :
    climb operand budget least left ⟨ts, n⟩ = .ok (left, ⟨ts, n⟩) := by
  cases budget with
  | zero => rfl
  | succ budget =>
      unfold climb
      rw [bind_of_ok (p := peek) (c := ⟨ts, n⟩) rfl]
      unfold Cursor.peek
      cases hop : BinaryOp.ofKind? (ts.headD default).kind with
      | none => rfl
      | some op =>
          dsimp only
          rw [if_pos (h op hop)]
          rfl

/-- An operation that binds tightly enough is taken, with all behind it that binds more tightly. -/
theorem climb_step {t : Token} {op : BinaryOp} {e right left : Expr} {c₁ c₂ c₃ : Cursor}
    (hop : BinaryOp.ofKind? t.kind = some op) (hle : least ≤ op.precedence)
    (he : operand ⟨ts, n⟩ = .ok (e, c₁))
    (hright : climb operand budget (op.precedence + 1) e c₁ = .ok (right, c₂))
    (hnode : node c₂ = .ok ((), c₃)) :
    climb operand (budget + 1) least left ⟨t :: ts, n⟩ =
      climb operand budget least (.binary op left right) c₃ := by
  conv => lhs; unfold climb
  rw [bind_of_ok (p := peek) (c := ⟨t :: ts, n⟩) rfl]
  have hpeek : BinaryOp.ofKind? (Cursor.peek ⟨t :: ts, n⟩).kind = some op := hop
  rw [hpeek]
  dsimp only
  rw [if_neg (Nat.not_lt.2 hle), bind_of_ok (advance_operation hop), bind_of_ok he,
    bind_of_ok hright, bind_of_ok hnode]

theorem node_of_lt (h : n < nodeLimit) : node ⟨ts, n⟩ = .ok ((), ⟨ts, n + 1⟩) := by
  unfold node
  rw [if_neg (Nat.not_lt.2 h)]

theorem of_node {u : Unit} (h : node c = .ok (u, c')) :
    c' = ⟨c.tokens, c.nodes + 1⟩ ∧ c.nodes + 1 ≤ nodeLimit := by
  unfold node at h
  split at h
  · cases h
  · next hroom =>
    cases h
    exact ⟨rfl, Nat.le_of_not_lt hroom⟩

theorem Stops.of_one (h : Stops 1 ts) : Stops least ts :=
  fun op hop => absurd op.precedence_pos (Nat.not_lt.2 (Nat.le_of_lt_succ (h op hop)))

/-- What an operand costs on its own, it costs behind other nodes. -/
theorem Tallies.operand_at (hoperand : Tallies operand) {e : Expr}
    (he : operand ⟨ts, 0⟩ = .ok (e, ⟨ts', cost⟩)) (hn : n + cost ≤ nodeLimit) :
    operand ⟨ts, n⟩ = .ok (e, ⟨ts', n + cost⟩) := by
  obtain ⟨cost', hcost, -, hread⟩ := hoperand he
  obtain rfl : cost = cost' := hcost.trans (Nat.zero_add _)
  exact hread n hn

/-- What an operand costs behind other nodes, it costs on its own. -/
theorem Tallies.operand_alone (hoperand : Tallies operand) (hlimit : n ≤ nodeLimit) {n' : Nat}
    {e : Expr} (he : operand ⟨ts, n⟩ = .ok (e, ⟨ts', n'⟩)) :
    ∃ cost, n' = n + cost ∧ n + cost ≤ nodeLimit ∧ operand ⟨ts, 0⟩ = .ok (e, ⟨ts', cost⟩) := by
  obtain ⟨cost, rfl, hlimit', hread⟩ := hoperand he
  have hcost : n + cost ≤ nodeLimit := hlimit' hlimit
  have halone := hread 0 (by omega)
  rw [Nat.zero_add] at halone
  exact ⟨cost, rfl, hcost, halone⟩

/-- On tokens, climbing does what it does on operations and operands.  The induction is on the
budget, as the recursion is: once for what stands on the right of an operation, and once for what
stands behind it. -/
theorem climb_of_follows (hoperand : Tallies operand) (h : Follows operand ts xs cost ts')
    (hstops : Stops 1 ts') (hlimit : n + cost ≤ nodeLimit) (hbudget : xs.length ≤ budget)
    (least : Nat) (left : Grouping) :
    ∃ ts₁ spent due, spent + due = cost ∧
      Follows operand ts₁ (left.grow budget least xs).2 due ts' ∧
      climb operand budget least left.expr ⟨ts, n⟩ =
        .ok ((left.grow budget least xs).1.expr, ⟨ts₁, n + spent⟩) := by
  induction budget generalizing ts xs cost n least left with
  | zero =>
      obtain rfl := List.length_eq_zero_iff.1 (Nat.le_zero.1 hbudget)
      exact ⟨ts, 0, cost, Nat.zero_add _, h, rfl⟩
  | succ budget ih =>
      cases h with
      | nil => exact ⟨_, 0, 0, rfl, .nil, climb_of_stops hstops.of_one _ _ _⟩
      | @cons t ts ts' _ op e xs cost cost' hop he h =>
          have hlength : xs.length ≤ budget := Nat.le_of_succ_le_succ hbudget
          by_cases hless : op.precedence < least
          · have hgrow : left.grow (budget + 1) least ((op, e) :: xs) = (left, (op, e) :: xs) := by
              rw [Grouping.grow, if_pos hless]
            have hstops' : Stops least (t :: ts) := fun op' hop' => by
              cases hop.symm.trans hop'
              exact hless
            rw [hgrow]
            exact ⟨_, 0, _, Nat.zero_add _, .cons hop he h, climb_of_stops hstops' _ _ _⟩
          · have hgrow : left.grow (budget + 1) least ((op, e) :: xs) =
                (Grouping.operation op left ((Grouping.operand e).grow budget (op.precedence + 1)
                  xs).1).grow budget least
                  ((Grouping.operand e).grow budget (op.precedence + 1) xs).2 := by
              rw [Grouping.grow, if_neg hless]
            obtain ⟨ts₁, spent, due, hsum, hdue, hright⟩ := ih h (n := n + cost) (by omega) hlength
              (op.precedence + 1) (.operand e)
            obtain ⟨ts₂, spent', due', hsum', hdue', hnext⟩ := ih hdue (n := n + cost + spent + 1)
              (by omega) (Nat.le_trans (Grouping.length_grow_operand_le _ _ _ _) hlength) least
              (.operation op left ((Grouping.operand e).grow budget (op.precedence + 1) xs).1)
            rw [hgrow]
            refine ⟨ts₂, cost + 1 + spent + spent', due', by omega, hdue', ?_⟩
            rw [climb_step hop (Nat.le_of_not_lt hless) (hoperand.operand_at he (by omega)) hright
              (node_of_lt (by omega))]
            rw [show n + (cost + 1 + spent + spent') = n + cost + spent + 1 + spent' by omega]
            exact hnext

/-- Climbing stops, or it takes an operation, an operand and what is on the right of the operation,
and goes on behind that. -/
theorem climb_cases {left e : Expr}
    (h : climb operand (budget + 1) least left c = .ok (e, c')) :
    (c' = c ∧ Stops least c.tokens) ∨
      ∃ t ts op first right c₁ c₂, c.tokens = t :: ts ∧ BinaryOp.ofKind? t.kind = some op ∧
        least ≤ op.precedence ∧ operand ⟨ts, c.nodes⟩ = .ok (first, c₁) ∧
        climb operand budget (op.precedence + 1) first c₁ = .ok (right, c₂) ∧
        c₂.nodes + 1 ≤ nodeLimit ∧
        climb operand budget least (.binary op left right) ⟨c₂.tokens, c₂.nodes + 1⟩ =
          .ok (e, c') := by
  rw [climb, bind_of_ok (p := peek) (c := c) rfl] at h
  cases hop : BinaryOp.ofKind? c.peek.kind with
  | none =>
      rw [hop] at h
      cases h
      exact .inl ⟨rfl, fun op hop' => by cases hop.symm.trans hop'⟩
  | some op =>
      rw [hop] at h
      dsimp only at h
      split at h
      · next hless =>
        cases h
        refine .inl ⟨rfl, fun op' hop' => ?_⟩
        cases hop.symm.trans hop'
        exact hless
      · next htight =>
        obtain ⟨ts, n⟩ := c
        cases ts with
        | nil => cases hop
        | cons t ts =>
            have hop : BinaryOp.ofKind? t.kind = some op := hop
            rw [bind_of_ok (advance_operation hop)] at h
            obtain ⟨first, c₁, hfirst, h⟩ := exists_of_bind h
            obtain ⟨right, c₂, hright, h⟩ := exists_of_bind h
            obtain ⟨_, c₃, hnode, h⟩ := exists_of_bind h
            obtain ⟨rfl, hroom⟩ := of_node hnode
            exact .inr ⟨t, ts, op, first, right, c₁, c₂, rfl, hop, Nat.le_of_not_lt htight, hfirst,
              hright, hroom, h⟩

/-- Climbing takes operations with an operand behind each, and nothing else.  The budget lasts: each
operation that is read is counted with its operand, unless its right operand is still being read,
and those bind ever more tightly. -/
theorem follows_of_climb (hoperand : Tallies operand) (hcosts : Costs operand)
    (hbudget : nodeLimit + 8 < budget + c.nodes + least) (hleast : least ≤ 8)
    (hlimit : c.nodes ≤ nodeLimit) {left e : Expr}
    (h : climb operand budget least left c = .ok (e, c')) :
    ∃ xs cost, Follows operand c.tokens xs cost c'.tokens ∧ c'.nodes = c.nodes + cost ∧
      c'.nodes ≤ nodeLimit ∧ Stops least c'.tokens := by
  induction budget generalizing c least left e c' with
  | zero => omega
  | succ budget ih =>
      rcases climb_cases h with ⟨rfl, hstops⟩ | ⟨t, ts, op, first, right, ⟨ts₁, n₁⟩, ⟨ts₂, n₂⟩,
        htokens, hop, htight, hfirst, hright, hroom, hnext⟩
      · exact ⟨[], 0, .nil, rfl, hlimit, hstops⟩
      · have hless : c.nodes < n₁ := hcosts hfirst
        obtain ⟨cost, rfl, hlimit₁, he⟩ := hoperand.operand_alone hlimit hfirst
        dsimp only at hroom hnext
        -- first what stands on the right of the operation, then what stands behind it
        obtain ⟨xs, cost', hxs, rfl, -, -⟩ := ih (c := ⟨ts₁, c.nodes + cost⟩)
          (by dsimp only; omega) (Nat.succ_le_succ op.precedence_le) hlimit₁ hright
        dsimp only at hroom hxs
        obtain ⟨ys, cost'', hys, hcost, hlimit', hstops⟩ := ih
          (c := ⟨ts₂, c.nodes + cost + cost' + 1⟩) (by dsimp only; omega) hleast hroom hnext
        have hfollows := Follows.cons hop he (hxs.append hys)
        rw [← htokens] at hfollows
        refine ⟨_, _, hfollows, ?_, hlimit', hstops⟩
        rw [hcost]
        dsimp only
        omega

/-! ## Expressions -/

/-- On the tokens up to others stands an operand, with operations and an operand each behind it; no
operation stands behind the last one.  All of it costs so many nodes. -/
inductive Spans (operand : Parser Expr) :
    List Token → Expr → List (BinaryOp × Expr) → Nat → List Token → Prop where
  | mk {ts ts' ts'' : List Token} {first : Expr} {xs : List (BinaryOp × Expr)} {cost cost' : Nat}
      (hfirst : operand ⟨ts, 0⟩ = .ok (first, ⟨ts', cost⟩))
      (hrest : Follows operand ts' xs cost' ts'') (hstops : Stops 1 ts'') :
      Spans operand ts first xs (cost + cost') ts''

/--
**Precedence climbing.**  Let operands and binary operations stand in turn on the tokens, each
operand being whatever is read as one where it stands, and let there not be too many nodes.  Then an
expression is read up to the last operand: the one in which the operands and operations stand in
that order, on the left of an operation there are only operations that bind at least as tightly,
and on its right only such that bind more tightly.  No other grouping of these operands is like
that.  And nothing but such operands and operations is ever read as an expression.
-/
theorem expression_byPrecedence (signatures : String → Option Signature) (room : Nat) (c : Cursor) :
    (∀ first xs cost ts, Spans (unary signatures room) c.tokens first xs cost ts →
      c.nodes + cost ≤ nodeLimit →
        ∃ g : Grouping, expression (unary signatures room) c =
            .ok (g.expr, ⟨ts, c.nodes + cost⟩) ∧
          g.first = first ∧ g.rest = xs ∧ g.ByPrecedence ∧
          ∀ h : Grouping, h.first = first → h.rest = xs → h.ByPrecedence → h = g) ∧
    (c.nodes ≤ nodeLimit → ∀ e c', expression (unary signatures room) c = .ok (e, c') →
      ∃ first xs cost, Spans (unary signatures room) c.tokens first xs cost c'.tokens ∧
        c'.nodes = c.nodes + cost ∧ c'.nodes ≤ nodeLimit) := by
  have hoperand := tallies_unary signatures room
  refine ⟨?_, fun hlimit e c' h => ?_⟩
  · rintro first xs _ ts ⟨hfirst, hrest, hstops⟩ hlimit
    rename_i ts₁ cost cost'
    have hlength : xs.length ≤ operationBudget := by
      have := hrest.length_le
      unfold operationBudget
      omega
    obtain ⟨g, hgrow, hg, hxs, hordered⟩ := Grouping.exists_grow_operand hlength first
    obtain ⟨ts₂, spent, due, hsum, hdue, hclimb⟩ := climb_of_follows hoperand hrest hstops
      (n := c.nodes + cost) (by omega) hlength 1 (.operand first)
    rw [hgrow] at hdue hclimb
    cases hdue
    refine ⟨g, ?_, hg, hxs, hordered, fun h hfirst' hxs' hh => ?_⟩
    · rw [expression, bind_of_ok (hoperand.operand_at hfirst (by omega)),
        show c.nodes + (cost + cost') = c.nodes + cost + spent by omega]
      exact hclimb
    · exact hh.eq_of_reading_eq hordered (hfirst'.trans hg.symm) (hxs'.trans hxs.symm)
  · obtain ⟨first, ⟨ts, n⟩, hfirst, h⟩ := exists_of_bind h
    have hless : c.nodes < n := costs_unary signatures room hfirst
    obtain ⟨cost, rfl, hlimit', hfirst'⟩ := hoperand.operand_alone hlimit hfirst
    obtain ⟨xs, cost', hxs, hcost, hend, hstops⟩ := follows_of_climb hoperand
      (costs_unary signatures room) (by dsimp only; unfold operationBudget; omega) (by omega)
      hlimit' h
    exact ⟨first, xs, _, .mk hfirst' hxs hstops, hcost.trans (Nat.add_assoc _ _ _), hend⟩

/-- The tokens of `a - b | c & d * e` and a semicolon. -/
def mixedTokens : List Token :=
  [.ident "a", .symbol .minus, .ident "b", .symbol .pipe, .ident "c", .symbol .amp, .ident "d",
    .symbol .star, .ident "e", .symbol .semicolon].map fun kind => ⟨kind, ⟨1, 1⟩, []⟩

/-- `(a - b) | (c & (d * e))`, with the operands of these tokens. -/
def mixedGrouping : Grouping :=
  .operation (.arithmetic .bitOr)
    (.operation (.arithmetic .sub) (.operand (.var "a")) (.operand (.var "b")))
    (.operation (.arithmetic .bitAnd) (.operand (.var "c"))
      (.operation (.arithmetic .mul) (.operand (.var "d")) (.operand (.var "e"))))

/-- The expression that is read has these brackets. -/
theorem expression_byPrecedence_mixed :
    Spans (unary (fun _ => none) nestingLimit) mixedTokens mixedGrouping.first mixedGrouping.rest 9
        (mixedTokens.drop 9) ∧
      expression (unary (fun _ => none) nestingLimit) ⟨mixedTokens, 0⟩ =
        .ok (mixedGrouping.expr, ⟨mixedTokens.drop 9, 9⟩) := by
  have hrest : Follows (unary (fun _ => none) nestingLimit) (mixedTokens.drop 1)
      mixedGrouping.rest (1 + 1 + (1 + 1 + (1 + 1 + (1 + 1 + 0)))) (mixedTokens.drop 9) :=
    .cons rfl rfl (.cons rfl rfl (.cons rfl rfl (.cons rfl rfl .nil)))
  have hspans : Spans (unary (fun _ => none) nestingLimit) mixedTokens mixedGrouping.first
      mixedGrouping.rest 9 (mixedTokens.drop 9) := .mk rfl hrest nofun
  have hproduct : (Grouping.operation (.arithmetic .mul) (.operand (.var "d"))
      (.operand (.var "e"))).ByPrecedence := .operation (.operand _) (.operand _) trivial trivial
  have hordered : mixedGrouping.ByPrecedence :=
    .operation (.operation (.operand _) (.operand _) trivial trivial)
      (.operation (.operand _) hproduct trivial (show 3 ≤ 7 by decide))
      (show 1 ≤ 6 by decide) (show 2 ≤ 2 by decide)
  obtain ⟨g, hg, -, -, -, hunique⟩ := (expression_byPrecedence (fun _ => none) nestingLimit
    ⟨mixedTokens, 0⟩).1 _ _ 9 _ hspans (by decide)
  obtain rfl := hunique mixedGrouping rfl rfl hordered
  exact ⟨hspans, hg⟩

end Parser

end RuleScan
