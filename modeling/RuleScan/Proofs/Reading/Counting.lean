import RuleScan.Proofs.Reading.Yields

/-!
# Counting nodes

The nodes of an expression are counted while it is read, up to a limit.  What is read does not
depend on how many nodes were counted before, as long as the limit is not passed: whatever a
parser takes and yields from one count it takes and yields from any other, and adds the same
number to it (`Parser.Tallies`).

So an operand can be read on its own first, to see what it costs, and where it stands in an
expression it costs as much.

## Main results

* `tallies_bind`, `tallies_bounded` — sequences, and what is counted on its own.
* `tallies_unary`, `costs_unary` — operands cost the same wherever they stand, and more than
  nothing.
-/

namespace RuleScan

/-- The same tokens, with another count. -/
def Cursor.counting (c : Cursor) (n : Nat) : Cursor := { c with nodes := n }

@[simp] theorem Cursor.peek_counting (c : Cursor) (n : Nat) : (c.counting n).peek = c.peek := rfl

@[simp] theorem Cursor.nodes_counting (c : Cursor) (n : Nat) : (c.counting n).nodes = n := rfl

theorem Cursor.advance_counting (c : Cursor) (n : Nat) :
    (c.counting n).advance = c.advance.counting n := by
  unfold advance
  rw [peek_counting]
  split <;> rfl

namespace Parser

variable {α β : Type} {p : Parser α} {operand : Parser Expr}

/-- The parser counts as many nodes, whatever was counted before, and reads the same.  It passes no
limit that was not passed before. -/
def Tallies (p : Parser α) : Prop :=
  ∀ ⦃c a c'⦄, p c = .ok (a, c') → ∃ cost, c'.nodes = c.nodes + cost ∧
    (c.nodes ≤ nodeLimit → c'.nodes ≤ nodeLimit) ∧
    ∀ n, n + cost ≤ nodeLimit → p (c.counting n) = .ok (a, c'.counting (n + cost))

/-- The parser counts a node at least. -/
def Costs (p : Parser α) : Prop := ∀ ⦃c a c'⦄, p c = .ok (a, c') → c.nodes < c'.nodes

/-! ## Sequences -/

theorem bind_of_ok {c c' : Cursor} {a : α} (h : p c = .ok (a, c')) (f : α → Parser β) :
    (p >>= f) c = f a c' := by
  show (p c >>= fun x => f x.1 x.2) = _
  rw [h]
  rfl

theorem exists_of_bind {f : α → Parser β} {c c' : Cursor} {b : β}
    (h : (p >>= f) c = .ok (b, c')) : ∃ a c₁, p c = .ok (a, c₁) ∧ f a c₁ = .ok (b, c') := by
  obtain ⟨⟨a, c₁⟩, ha, hb⟩ := Expr.bind_eq_ok (x := p c) (f := fun x => f x.1 x.2) h
  exact ⟨a, c₁, ha, hb⟩

theorem tallies_pure (a : α) : Tallies (pure a : Parser α) := by
  intro c b c' hb
  cases hb
  exact ⟨0, rfl, id, fun n _ => rfl⟩

theorem tallies_failAt (t : Token) (problem : SyntaxProblem) :
    Tallies (failAt t problem : Parser α) :=
  fun _ _ _ h => nomatch h

/-- The costs of the steps add up. -/
theorem tallies_bind {f : α → Parser β} (hp : Tallies p) (hf : ∀ a, Tallies (f a)) :
    Tallies (p >>= f) := by
  intro c b c' hb
  obtain ⟨a, c₁, ha, hb⟩ := exists_of_bind hb
  obtain ⟨cost, hcost, hlimit, hread⟩ := hp ha
  obtain ⟨cost', hcost', hlimit', hread'⟩ := hf a hb
  refine ⟨cost + cost', by rw [hcost', hcost, Nat.add_assoc], hlimit' ∘ hlimit, fun n hn => ?_⟩
  rw [bind_of_ok (hread n (by omega)), ← Nat.add_assoc]
  exact hread' (n + cost) (by omega)

theorem tallies_ite {b : Prop} [Decidable b] {q : Parser α} (hp : Tallies p) (hq : Tallies q) :
    Tallies (if b then p else q) := by
  split <;> assumption

theorem Costs.bind {f : α → Parser β} (hp : Costs p) (hf : ∀ a, Tallies (f a)) :
    Costs (p >>= f) := by
  intro c b c' hb
  obtain ⟨a, c₁, ha, hb⟩ := exists_of_bind hb
  obtain ⟨cost, hcost, -⟩ := hf a hb
  exact hcost ▸ Nat.lt_add_right cost (hp ha)

theorem Tallies.bind_costs {f : α → Parser β} (hp : Tallies p) (hf : ∀ a, Costs (f a)) :
    Costs (p >>= f) := by
  intro c b c' hb
  obtain ⟨a, c₁, ha, hb⟩ := exists_of_bind hb
  obtain ⟨cost, hcost, -⟩ := hp ha
  exact Nat.lt_of_le_of_lt (hcost ▸ Nat.le_add_right _ cost) (hf a hb)

/-! ## Single tokens -/

theorem tallies_peek : Tallies peek := by
  intro c a c' ha
  cases ha
  exact ⟨0, rfl, id, fun n _ => rfl⟩

theorem tallies_peekSecond : Tallies peekSecond := by
  intro c a c' ha
  cases ha
  exact ⟨0, rfl, id, fun n _ => rfl⟩

theorem tallies_remaining : Tallies remaining := by
  intro c a c' ha
  cases ha
  exact ⟨0, rfl, id, fun n _ => rfl⟩

theorem tallies_at? (s : Symbol) : Tallies (at? s) := by
  intro c a c' ha
  cases ha
  exact ⟨0, rfl, id, fun n _ => rfl⟩

theorem tallies_advance : Tallies advance := by
  intro c a c' ha
  cases ha
  refine ⟨0, c.nodes_advance, fun h => c.nodes_advance ▸ h, fun n _ => ?_⟩
  rw [Nat.add_zero, ← c.advance_counting]
  rfl

theorem tallies_eat (s : Symbol) : Tallies (eat s) := by
  intro c a c' ha
  unfold eat eatKind at ha ⊢
  split at ha
  · next hk =>
    cases ha
    refine ⟨0, c.nodes_advance, fun h => c.nodes_advance ▸ h, fun n _ => ?_⟩
    rw [Cursor.peek_counting, if_pos hk, c.advance_counting]
    rfl
  · next hk =>
    cases ha
    refine ⟨0, rfl, id, fun n _ => ?_⟩
    rw [Cursor.peek_counting, if_neg hk]
    rfl

theorem tallies_expect (s : Symbol) : Tallies (expect s) := by
  intro c a c' ha
  unfold expect expectKind at ha ⊢
  split at ha
  · next hk =>
    cases ha
    refine ⟨0, c.nodes_advance, fun h => c.nodes_advance ▸ h, fun n _ => ?_⟩
    rw [Cursor.peek_counting, if_pos hk, c.advance_counting]
    rfl
  · cases ha

/-- A node costs one. -/
theorem tallies_node : Tallies node := by
  intro c a c' ha
  unfold node at ha ⊢
  split at ha
  · cases ha
  · next hroom =>
    cases ha
    refine ⟨1, rfl, fun _ => Nat.le_of_not_lt hroom, fun n hn => ?_⟩
    rw [Cursor.nodes_counting, if_neg (Nat.not_lt.2 hn)]
    rfl

theorem costs_node : Costs node := by
  intro c a c' ha
  unfold node at ha
  split at ha
  · cases ha
  · cases ha
    exact Nat.lt_succ_self _

/-- What is counted on its own costs nothing. -/
theorem tallies_bounded (p : Parser α) : Tallies (bounded p) := by
  intro c a c' ha
  unfold bounded at ha ⊢
  cases hp : p { c with nodes := 0 } with
  | error e => simp [hp] at ha
  | ok x =>
      simp only [hp, Except.ok.injEq, Prod.mk.injEq] at ha
      obtain ⟨rfl, rfl⟩ := ha
      refine ⟨0, rfl, id, fun n _ => ?_⟩
      have hp' : p { c.counting n with nodes := 0 } = .ok x := hp
      rw [hp']
      rfl

/-! ## Lists -/

theorem tallies_commaSeparated {item : Parser α} (h : Tallies item) (budget : Nat) :
    Tallies (commaSeparated item budget) := by
  induction budget with
  | zero => exact tallies_pure []
  | succ budget ih =>
      refine tallies_bind h fun x => tallies_bind (tallies_eat .comma) fun more => ?_
      cases more with
      | false => exact tallies_pure [x]
      | true => exact tallies_bind ih fun rest => tallies_pure (x :: rest)

theorem tallies_listUntil {item : Parser α} (h : Tallies item) (close : Symbol) :
    Tallies (listUntil close item) := by
  refine tallies_bind (tallies_at? close) fun closes => ?_
  cases closes with
  | true => exact tallies_pure []
  | false => exact tallies_bind tallies_remaining fun budget => tallies_commaSeparated h budget

/-! ## Expressions -/

theorem tallies_climb (h : Tallies operand) (budget least : Nat) (left : Expr) :
    Tallies (climb operand budget least left) := by
  induction budget generalizing least left with
  | zero => exact tallies_pure left
  | succ budget ih =>
      refine tallies_bind tallies_peek fun t => ?_
      cases BinaryOp.ofKind? t.kind with
      | none => exact tallies_pure left
      | some op =>
          refine tallies_ite (tallies_pure left) (tallies_bind tallies_advance fun _ => ?_)
          exact tallies_bind h fun first => tallies_bind (ih _ first) fun right =>
            tallies_bind tallies_node fun _ => ih least _

theorem tallies_expression (h : Tallies operand) : Tallies (expression operand) :=
  tallies_bind h fun first => tallies_climb h operationBudget 1 first

/-- Constants are counted on their own. -/
theorem tallies_constant (operand : Parser Expr) (what : String) :
    Tallies (constant operand what) := by
  refine tallies_bind tallies_peek fun start => ?_
  refine tallies_bind (tallies_bounded _) fun e => ?_
  split
  · exact tallies_failAt _ _
  · exact tallies_pure _
  · exact tallies_failAt _ _

theorem tallies_brackets (h : Tallies operand) (budget : Nat) (e : Expr) :
    Tallies (brackets operand budget e) := by
  induction budget generalizing e with
  | zero => exact tallies_pure e
  | succ budget ih =>
      refine tallies_bind (tallies_eat .bracketOpen) fun opens => ?_
      cases opens with
      | false => exact tallies_pure e
      | true =>
          refine tallies_bind (tallies_expression h) fun start => ?_
          refine tallies_bind (tallies_eat .colon) fun ranges => ?_
          cases ranges with
          | false =>
              exact tallies_bind (tallies_expect .bracketClose) fun _ =>
                tallies_bind tallies_node fun _ => ih _
          | true =>
              exact tallies_bind (tallies_expression h) fun stop =>
                tallies_bind (tallies_expect .bracketClose) fun _ =>
                  tallies_bind tallies_node fun _ => ih _

theorem tallies_byteElement (operand : Parser Expr) : Tallies (byteElement operand) := by
  refine tallies_bind tallies_peek fun start => ?_
  refine tallies_bind (tallies_constant operand _) fun v => ?_
  cases v with
  | number n => exact tallies_ite (tallies_pure _) (tallies_failAt _ _)
  | _ => exact tallies_failAt _ _

theorem tallies_byteArray (operand : Parser Expr) : Tallies (byteArray operand) :=
  tallies_bind (tallies_listUntil (tallies_byteElement operand) .braceClose) fun _ =>
    tallies_bind (tallies_expect .braceClose) fun _ => tallies_pure _

theorem tallies_callItem (h : Tallies operand) : Tallies (callItem operand) := by
  refine tallies_bind tallies_peek fun t => tallies_bind tallies_peekSecond fun second => ?_
  split
  · exact tallies_bind tallies_advance fun _ => tallies_bind tallies_advance fun _ =>
      tallies_bind (tallies_constant operand _) fun v => tallies_pure _
  · exact tallies_bind (tallies_expression h) fun e => tallies_pure _

variable {signatures : String → Option Signature}

theorem tallies_callTail (h : Tallies operand) (name : String) (start : Token) :
    Tallies (callTail signatures operand name start) := by
  refine tallies_bind (tallies_expect .parenOpen) fun _ => ?_
  refine tallies_bind (tallies_listUntil (tallies_callItem h) .parenClose) fun items => ?_
  refine tallies_bind (tallies_expect .parenClose) fun _ => ?_
  dsimp only
  split
  · exact tallies_pure _
  · exact tallies_failAt _ _

/-- Before anything else, an operand is counted. -/
theorem exists_primary_eq (h : Tallies operand) :
    ∃ rest, Tallies rest ∧ primary signatures operand = node >>= fun _ => rest := by
  refine ⟨_, tallies_bind tallies_advance fun t => ?_, rfl⟩
  cases t.kind with
  | number n => exact tallies_pure _
  | string bytes => exact tallies_pure _
  | char b => exact tallies_pure _
  | special name => exact tallies_pure _
  | ident name =>
      refine tallies_bind (tallies_at? .parenOpen) fun opens => ?_
      exact tallies_ite (tallies_callTail h _ t) (tallies_pure _)
  | keyword k =>
      cases k with
      | trueWord => exact tallies_pure _
      | falseWord => exact tallies_pure _
      | _ => exact tallies_failAt _ _
  | symbol s =>
      cases s with
      | parenOpen =>
          exact tallies_bind (tallies_expression h) fun e =>
            tallies_bind (tallies_expect .parenClose) fun _ => tallies_pure e
      | braceOpen => exact tallies_byteArray operand
      | _ => exact tallies_failAt _ _
  | eof => exact tallies_failAt _ _

theorem tallies_primary (h : Tallies operand) : Tallies (primary signatures operand) := by
  obtain ⟨rest, hrest, heq⟩ : ∃ rest, Tallies rest ∧ primary signatures operand = _ :=
    exists_primary_eq h
  exact heq ▸ tallies_bind tallies_node fun _ => hrest

theorem costs_primary (h : Tallies operand) : Costs (primary signatures operand) := by
  obtain ⟨rest, hrest, heq⟩ : ∃ rest, Tallies rest ∧ primary signatures operand = _ :=
    exists_primary_eq h
  exact heq ▸ costs_node.bind fun _ => hrest

theorem tallies_operandAround (h : Tallies operand) :
    Tallies (operandAround signatures operand) := by
  refine tallies_bind tallies_peek fun t => ?_
  split
  · exact tallies_bind tallies_advance fun _ => tallies_bind h fun e =>
      tallies_bind tallies_node fun _ => tallies_pure _
  · exact tallies_bind (tallies_primary h) fun e => tallies_brackets h operationBudget e

/-- Wherever an operand stands, it costs as much.  The induction is on the room: an operand is read
with the parser for operands one level further in. -/
theorem tallies_unary (signatures : String → Option Signature) (room : Nat) :
    Tallies (unary signatures room) := by
  induction room with
  | zero => exact fun _ _ _ h => nomatch h
  | succ room ih => exact tallies_operandAround ih

/-- A sign is a node, and so is what stands without one. -/
theorem costs_unary (signatures : String → Option Signature) (room : Nat) :
    Costs (unary signatures room) := by
  cases room with
  | zero => exact fun _ _ _ h => nomatch h
  | succ room =>
      have h := tallies_unary signatures room
      refine tallies_peek.bind_costs fun t => ?_
      split
      · exact tallies_advance.bind_costs fun _ => h.bind_costs fun e =>
          costs_node.bind fun _ => tallies_pure _
      · exact (costs_primary h).bind fun e => tallies_brackets h operationBudget e

end Parser

end RuleScan
