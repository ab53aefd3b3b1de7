import RuleScan.Proofs.Expr.Written
import RuleScan.Proofs.Reading.Counting

/-!
# Written nodes are paid for

The nodes of an expression are counted one by one, but not all at the same place: an operand is
counted before it is read, and so is an operand in parentheses besides what it encloses; a sign, an
operation and brackets are counted after the operands that belong to them.  Constants inside an
expression are counted on their own, and the size of an extract of a number, which is not written,
is not counted at all.  Still every written node is paid for, and an expression is no higher than
these.

`Parser.Affords p credit cost` keeps the accounts: what the parser yields costs no more than the
nodes that it counts and a credit together, which is what was counted before it started.  One step
hands on to the next, as its credit, what it has read so far.

## Main results

* `affords_bind`, `Affords.beside` — accounts of sequences, and of something that stands beside
  something else.
* `affords_climb`, `affords_brackets`, `affords_callTail` — operations, brackets and calls.
* `yields_written_boundedExpression` — no expression that is read has more written nodes than the
  limit of nodes.
-/

namespace RuleScan.Parser

open RuleScan.Expr (written writtenAll)

variable {α β : Type} {p : Parser α} {operand : Parser Expr} {credit : Nat} {cost : α → Nat}

/-- What the parser yields costs no more than the nodes that it counts and a credit. -/
def Affords (p : Parser α) (credit : Nat) (cost : α → Nat) : Prop :=
  ∀ ⦃c a c'⦄, p c = .ok (a, c') → c.nodes + cost a ≤ c'.nodes + credit

/-! ## Sequences -/

theorem affords_pure {a : α} (h : cost a ≤ credit) : Affords (pure a : Parser α) credit cost := by
  intro c b c' hb
  cases hb
  exact Nat.add_le_add_left h _

theorem affords_failAt (t : Token) (problem : SyntaxProblem) :
    Affords (failAt t problem : Parser α) credit cost :=
  fun _ _ _ h => nomatch h

/-- The next step starts with what the one before it has come to. -/
theorem affords_bind {f : α → Parser β} {cost' : β → Nat} (hp : Affords p credit cost)
    (hf : ∀ a, Affords (f a) (cost a) cost') : Affords (p >>= f) credit cost' := by
  intro c b c' hb
  obtain ⟨a, c₁, ha, hb⟩ := exists_of_bind hb
  have hfirst := hp ha
  have hnext := hf a hb
  omega

theorem affords_ite {b : Prop} [Decidable b] {q : Parser α} (hp : Affords p credit cost)
    (hq : Affords q credit cost) : Affords (if b then p else q) credit cost := by
  split <;> assumption

/-- A credit that is not used up is handed on. -/
theorem Affords.beside (h : Affords p credit cost) (more : Nat) :
    Affords p (more + credit) fun a => more + cost a := by
  intro c a c' ha
  have hcost := h ha
  dsimp only
  omega

/-- Nothing is spent on what takes no part in the expression. -/
theorem Tallies.affords (h : Tallies p) (credit : Nat) : Affords p credit fun _ => credit := by
  intro c a c' ha
  obtain ⟨cost, hcost, -⟩ := h ha
  dsimp only
  omega

theorem affords_node (credit : Nat) : Affords node credit fun _ => credit + 1 := by
  intro c a c' ha
  have hcounted := costs_node ha
  dsimp only
  omega

/-! ## Lists -/

section Items

variable {item : Parser α} {total : List α → Nat} (hnil : total [] = 0)
  (hcons : ∀ x xs, total (x :: xs) ≤ total [x] + total xs) (h : Affords item 0 fun x => total [x])

include hnil hcons h

/-- A list costs what its items cost, if it costs no more than they do together. -/
theorem affords_commaSeparated (budget : Nat) : Affords (commaSeparated item budget) 0 total := by
  induction budget with
  | zero => exact affords_pure (Nat.le_of_eq hnil)
  | succ budget ih =>
      refine affords_bind h fun x => ?_
      refine affords_bind ((tallies_eat .comma).affords (total [x])) fun more => ?_
      cases more with
      | false => exact affords_pure (Nat.le_refl _)
      | true => exact affords_bind (ih.beside (total [x])) fun rest => affords_pure (hcons x rest)

theorem affords_listUntil (close : Symbol) : Affords (listUntil close item) 0 total := by
  refine affords_bind ((tallies_at? close).affords 0) fun closes => ?_
  cases closes with
  | true => exact affords_pure (Nat.le_of_eq hnil)
  | false =>
      exact affords_bind (tallies_remaining.affords 0) fun budget =>
        affords_commaSeparated hnil hcons h budget

end Items

/-! ## Expressions -/

section Operand

variable (h : Affords operand 0 written)

include h

/-- The left operand is the credit.  An operation is counted when its right operand was read, and
then it is paid for by both operands and the new node. -/
theorem affords_climb (budget least : Nat) (left : Expr) :
    Affords (climb operand budget least left) left.written written := by
  induction budget generalizing least left with
  | zero => exact affords_pure (Nat.le_refl _)
  | succ budget ih =>
      refine affords_bind (tallies_peek.affords _) fun t => ?_
      cases BinaryOp.ofKind? t.kind with
      | none => exact affords_pure (Nat.le_refl _)
      | some op =>
          refine affords_ite (affords_pure (Nat.le_refl _)) ?_
          refine affords_bind (tallies_advance.affords _) fun _ => ?_
          refine affords_bind (h.beside left.written) fun first => ?_
          refine affords_bind ((ih _ first).beside left.written) fun right => ?_
          exact affords_bind (affords_node _) fun _ => ih least (.binary op left right)

theorem affords_expression : Affords (expression operand) 0 written :=
  affords_bind h fun first => affords_climb h operationBudget 1 first

theorem affords_brackets (budget : Nat) (e : Expr) :
    Affords (brackets operand budget e) e.written written := by
  induction budget generalizing e with
  | zero => exact affords_pure (Nat.le_refl _)
  | succ budget ih =>
      refine affords_bind ((tallies_eat .bracketOpen).affords _) fun opens => ?_
      cases opens with
      | false => exact affords_pure (Nat.le_refl _)
      | true =>
          refine affords_bind ((affords_expression h).beside e.written) fun start => ?_
          refine affords_bind ((tallies_eat .colon).affords _) fun ranges => ?_
          cases ranges with
          | false =>
              refine affords_bind ((tallies_expect .bracketClose).affords _) fun _ => ?_
              exact affords_bind (affords_node _) fun _ => ih (.index e start)
          | true =>
              refine affords_bind ((affords_expression h).beside (e.written + start.written))
                fun stop => ?_
              refine affords_bind ((tallies_expect .bracketClose).affords _) fun _ => ?_
              exact affords_bind (affords_node _) fun _ => ih (.slice e start stop)

end Operand

/-- The number of written nodes of the arguments among the items of a call. -/
def writtenArgs (items : List (Expr ⊕ String × Value)) : Nat :=
  writtenAll (items.filterMap fun item => item.getLeft?)

theorem writtenArgs_cons_le (item : Expr ⊕ String × Value) (rest : List (Expr ⊕ String × Value)) :
    writtenArgs (item :: rest) ≤ writtenArgs [item] + writtenArgs rest := by
  cases item with
  | inl e =>
      simp only [writtenArgs, List.filterMap_cons, Sum.getLeft?_inl, List.filterMap_nil, writtenAll]
      omega
  | inr entry => exact Nat.le_add_left _ _

/-- An extract or a call is one node besides its arguments, since an extract of a number is written
as one with its size. -/
theorem written_callNode_le {signatures : String → Option Signature} {name : String}
    {args : List Expr} {metadata : Register} {e : Expr}
    (h : callNode signatures name args metadata = .ok e) : e.written ≤ 1 + writtenAll args := by
  unfold callNode at h
  split at h
  · split at h
    · cases h
      simp only [Expr.extractNumber, Expr.number, written, writtenAll]
      omega
    · cases h
  · next format _ _ =>
    split at h
    · cases h
      cases format <;> simp only [written, writtenAll] <;> omega
    · cases h
  · split at h
    · cases h
    · split at h
      · cases h
        exact Nat.le_of_eq (Nat.add_comm _ 1)
      · cases h

section Operand

variable {signatures : String → Option Signature} (h : Affords operand 0 written)

include h

/-- The value of an entry is counted on its own. -/
theorem affords_callItem : Affords (callItem operand) 0 fun item => writtenArgs [item] := by
  refine affords_bind (tallies_peek.affords 0) fun t => ?_
  refine affords_bind (tallies_peekSecond.affords 0) fun second => ?_
  split
  · refine affords_bind (tallies_advance.affords 0) fun _ => ?_
    refine affords_bind (tallies_advance.affords 0) fun _ => ?_
    refine affords_bind ((tallies_constant operand _).affords 0) fun v => ?_
    exact affords_pure (Nat.le_refl 0)
  · exact affords_bind (affords_expression h) fun e => affords_pure (Nat.le_refl _)

/-- A call is the node that was counted before its name was read. -/
theorem affords_callTail (name : String) (start : Token) :
    Affords (callTail signatures operand name start) 1 written := by
  refine affords_bind ((tallies_expect .parenOpen).affords 1) fun _ => ?_
  have hitems := affords_listUntil rfl writtenArgs_cons_le (affords_callItem h) .parenClose
  refine affords_bind (hitems.beside 1) fun items => ?_
  refine affords_bind ((tallies_expect .parenClose).affords _) fun _ => ?_
  dsimp only
  split
  · next e he => exact affords_pure (written_callNode_le he)
  · exact affords_failAt _ _

omit h in
/-- A byte array is a literal, whatever its elements are. -/
theorem affords_byteArray : Affords (byteArray operand) 1 written := by
  refine affords_bind
    ((tallies_listUntil (tallies_byteElement operand) .braceClose).affords 1) fun bytes => ?_
  refine affords_bind ((tallies_expect .braceClose).affords 1) fun _ => ?_
  exact affords_pure (Nat.le_refl 1)

theorem affords_primary : Affords (primary signatures operand) 0 written := by
  refine affords_bind (affords_node 0) fun _ => ?_
  refine affords_bind (tallies_advance.affords 1) fun t => ?_
  cases t.kind with
  | number n => exact affords_pure (Nat.le_refl 1)
  | string bytes => exact affords_pure (Nat.le_refl 1)
  | char b => exact affords_pure (Nat.le_refl 1)
  | special name => exact affords_pure (Nat.le_refl 1)
  | ident name =>
      refine affords_bind ((tallies_at? .parenOpen).affords 1) fun opens => ?_
      exact affords_ite (affords_callTail h _ t) (affords_pure (Nat.le_refl 1))
  | keyword k =>
      cases k with
      | trueWord => exact affords_pure (Nat.le_refl 1)
      | falseWord => exact affords_pure (Nat.le_refl 1)
      | _ => exact affords_failAt _ _
  | symbol s =>
      cases s with
      | parenOpen =>
          refine affords_bind ((affords_expression h).beside 1) fun e => ?_
          refine affords_bind ((tallies_expect .parenClose).affords _) fun _ => ?_
          exact affords_pure (Nat.le_add_left _ 1)
      | braceOpen => exact affords_byteArray
      | _ => exact affords_failAt _ _
  | eof => exact affords_failAt _ _

theorem affords_operandAround : Affords (operandAround signatures operand) 0 written := by
  refine affords_bind (tallies_peek.affords 0) fun t => ?_
  split
  · refine affords_bind (tallies_advance.affords 0) fun _ => ?_
    refine affords_bind h fun e => ?_
    exact affords_bind (affords_node _) fun _ => affords_pure (Nat.le_refl _)
  · exact affords_bind (affords_primary h) fun e => affords_brackets h operationBudget e

end Operand

/-- The induction is on the room: an operand is read with the parser for operands one level further
in. -/
theorem affords_unary (signatures : String → Option Signature) (room : Nat) :
    Affords (unary signatures room) 0 written := by
  induction room with
  | zero => exact fun _ _ _ h => nomatch h
  | succ room ih => exact affords_operandAround ih

/-- The count of an expression starts at nothing and passes no limit. -/
theorem yields_written_boundedExpression (signatures : String → Option Signature) :
    Yields (boundedExpression signatures) fun e => e.written ≤ nodeLimit := by
  intro c e c' he
  unfold boundedExpression bounded at he
  cases hread : expression (unary signatures nestingLimit) { c with nodes := 0 } with
  | error cause => simp [hread] at he
  | ok found =>
      obtain ⟨e', c₁⟩ := found
      simp only [hread, Except.ok.injEq, Prod.mk.injEq] at he
      obtain ⟨rfl, -⟩ := he
      have hwritten := affords_expression (affords_unary signatures nestingLimit) hread
      obtain ⟨cost, -, hlimit, -⟩ :=
        tallies_expression (tallies_unary signatures nestingLimit) hread
      have hnodes : c₁.nodes ≤ nodeLimit := hlimit (Nat.zero_le _)
      dsimp only at hwritten
      omega

theorem yields_height_boundedExpression (signatures : String → Option Signature) :
    Yields (boundedExpression signatures) fun e => e.height ≤ nodeLimit :=
  fun c e c' he =>
    Nat.le_trans e.height_le_written (yields_written_boundedExpression signatures c e c' he)

end RuleScan.Parser
