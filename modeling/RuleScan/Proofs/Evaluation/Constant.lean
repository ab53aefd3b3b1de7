import RuleScan.Proofs.Evaluation.Folding
import RuleScan.Proofs.Expr.Nodes

/-!
# Constant expressions

A constant expression is built from literals by operations alone, so it has the same value in
every session, and folding has all it needs to find it.  Folding and evaluation apply the same
operations to the same operands, except that evaluation leaves the right operand of a connective
alone once the left one decides it, while folding wants the truth value of both.  That is the
only difference: where every part of a constant expression has a value, folding finds the value
of the whole, or it meets a byte string on the right of a connective and fails for want of its
truth value.

## Main results

* `binary_connective_of_shortCircuit` — where short-circuiting makes no difference.
* `evaluate_binary_literals` — what evaluation makes of two literal operands.
* `fold_constant` — folding a constant expression all of whose parts have values.
* `simplify_constant` — when it finds the value that evaluation finds.
-/

namespace RuleScan

namespace Expr

/-- The expression is built from literals by operations alone. -/
inductive IsConstant : Expr → Prop where
  | literal (v : Value) : IsConstant (literal v)
  | unary {op : UnaryOp} {e : Expr} : IsConstant e → IsConstant (unary op e)
  | binary {op : BinaryOp} {l r : Expr} :
      IsConstant l → IsConstant r → IsConstant (binary op l r)
  | index {e i : Expr} : IsConstant e → IsConstant i → IsConstant (index e i)
  | slice {e i j : Expr} :
      IsConstant e → IsConstant i → IsConstant j → IsConstant (slice e i j)

/-- The right operand of a connective. -/
def connectiveRight? : Expr → Option Expr
  | binary (.connective _) _ r => some r
  | _ => none

end Expr

/-! ## Operations on literals -/

namespace Value

/-- A connective that looks at its right operand only if the left one does not decide it. -/
def shortCircuit (c : Connective) (v w : Value) : Except ValueError Value := do
  let p ← v.truthy
  if p = c.decisive then pure (.bool p)
  else
    let q ← w.truthy
    pure (.bool q)

/-- A binary operation as it is evaluated. -/
def lazyBinary (op : BinaryOp) (v w : Value) : Except ValueError Value :=
  match op with
  | .connective c => shortCircuit c v w
  | op => binary op v w

/-- Only byte strings have no truth value. -/
theorem truthy_cases (v : Value) :
    (∃ p, v.truthy = .ok p) ∨ ∃ b, v = .bytes b := by
  cases v with
  | bytes b => exact .inr ⟨b, rfl⟩
  | _ => exact .inl ⟨_, rfl⟩

/-- Where the right operand has a truth value, short-circuiting makes no difference. -/
theorem binary_connective_of_shortCircuit {c : Connective} {v w x : Value} {q : Bool}
    (h : shortCircuit c v w = .ok x) (hw : w.truthy = .ok q) :
    binary (.connective c) v w = .ok x := by
  obtain ⟨p, hp, h⟩ := Expr.bind_eq_ok h
  have hx : x = .bool (c.apply p q) := by
    split at h
    · next hdecisive =>
      rw [hdecisive, c.apply_decisive]
      rw [hdecisive] at h
      exact (Except.ok.inj h).symm
    · next hopen =>
      rw [Connective.apply_of_ne_decisive hopen]
      rw [hw] at h
      exact (Except.ok.inj h).symm
  rw [hx]
  show (v.truthy >>= fun p => w.truthy >>= fun q => pure (Value.bool (c.apply p q))) = _
  rw [hp, hw]
  rfl

/-- A byte string on the right makes a connective fail, whatever decides it. -/
theorem binary_connective_bytes {c : Connective} {v x : Value} {b : Bytes}
    (h : shortCircuit c v (.bytes b) = .ok x) :
    binary (.connective c) v (.bytes b) = .error (.typeMismatch .noTruthValue) := by
  obtain ⟨p, hp, -⟩ := Expr.bind_eq_ok h
  show (v.truthy >>= fun p => _) = _
  rw [hp]
  rfl

end Value

/-! ## Evaluating operations on literals -/

namespace Step.ReplaceableBy

variable {α : Type} {limit : Nat}

/-- A replacement has the value of what it replaces, if that has one. -/
theorem outcome_eq_ok {t u : Step α} {s : Session} {a : α} (h : ReplaceableBy limit t u)
    (ht : t.outcome s = .ok a) : u.outcome s = .ok a := by
  have hu := h s (by rw [ht]; exact fun hdeep => by cases hdeep)
  unfold outcome at ht ⊢
  rwa [hu]

/-- An operation on values takes no level. -/
theorem nested_ofValue (limit : Nat) (r : Except ValueError α) :
    ReplaceableBy limit (Step.nested limit (ofValue r)) (ofValue r) := by
  cases r with
  | ok a => exact nested_pure limit a
  | error cause =>
      intro s hs
      unfold Step.nested at hs ⊢
      unfold outcome at hs
      by_cases hd : limit ≤ s.depth
      · simp [hd] at hs
      · simp only [hd, if_false]
        rfl

end Step.ReplaceableBy

namespace Environment

open RuleScan.Expr Step

variable {env : Environment} {limit : Nat} {s : Session}

/-- An expression whose node amounts to an operation on values has the value of that. -/
theorem ok_of_evaluate {e : Expr} {r : Except ValueError Value} {x : Value}
    (hnode : ∀ budget, ReplaceableBy limit
      (env.evaluateNode (env.evaluateWithin limit budget) e) (ofValue r))
    (h : (env.evaluate limit e).outcome s = .ok x) : r = .ok x := by
  have hwithin : ∀ budget, ReplaceableBy limit (env.evaluateWithin limit budget e) (ofValue r) := by
    intro budget
    cases budget with
    | zero => exact fun _ hs => absurd rfl hs
    | succ budget => exact (hnode budget).nested.trans (.nested_ofValue limit r)
  have hvalue : (ofValue r).outcome s = .ok x := (hwithin (s.room limit)).outcome_eq_ok h
  cases r with
  | ok a => exact congrArg Except.ok (Except.ok.inj hvalue)
  | error cause => cases hvalue

/-! ## Operands that fold to literals -/

section Operands

variable {a b c : Expr} {u v w x : Value} {p q r : Bool}

/-- What an operand folds to has the value of the operand. -/
theorem eq_of_fold_literal (ha : a.fold = .ok ⟨literal v, p⟩)
    (h : (env.evaluate limit a).outcome s = .ok x) : v = x := by
  have hliteral : (env.evaluate limit (literal v)).outcome s = .ok x :=
    (evaluateWithin_fold ha (s.room limit)).outcome_eq_ok h
  exact Except.ok.inj (ok_of_evaluate (r := .ok v) (fun _ => .refl limit _) hliteral)

theorem evaluate_unary_literal {op : UnaryOp} (ha : a.fold = .ok ⟨literal v, p⟩)
    (h : (env.evaluate limit (unary op a)).outcome s = .ok x) : Value.unary op v = .ok x :=
  ok_of_evaluate (fun budget =>
    (evaluateNode_unary op (evaluateWithin_fold ha budget)).trans
      ((evaluateWithin_literal budget v).bind_pure _)) h

theorem evaluate_index_literals (ha : a.fold = .ok ⟨literal v, p⟩)
    (hb : b.fold = .ok ⟨literal w, q⟩) (h : (env.evaluate limit (index a b)).outcome s = .ok x) :
    Value.index v w = .ok x :=
  ok_of_evaluate (fun budget =>
    (evaluateNode_index (evaluateWithin_fold ha budget) (evaluateWithin_fold hb budget)).trans
      (((evaluateWithin_literal budget v).bind_pure _).trans
        ((evaluateWithin_literal budget w).bind_pure _))) h

theorem evaluate_slice_literals (ha : a.fold = .ok ⟨literal u, p⟩)
    (hb : b.fold = .ok ⟨literal v, q⟩) (hc : c.fold = .ok ⟨literal w, r⟩)
    (h : (env.evaluate limit (slice a b c)).outcome s = .ok x) : Value.slice u v w = .ok x :=
  ok_of_evaluate (fun budget =>
    (evaluateNode_slice (evaluateWithin_fold ha budget) (evaluateWithin_fold hb budget)
      (evaluateWithin_fold hc budget)).trans
      (((evaluateWithin_literal budget u).bind_pure _).trans
        (((evaluateWithin_literal budget v).bind_pure _).trans
          ((evaluateWithin_literal budget w).bind_pure _)))) h

/-- A node of a connective over literals looks at the right one only where it has to. -/
theorem evaluateNode_connective_literals (k : Connective) (budget : Nat) :
    ReplaceableBy limit
      (env.evaluateNode (env.evaluateWithin limit budget)
        (binary (.connective k) (literal v) (literal w)))
      (ofValue (Value.shortCircuit k v w)) := by
  refine ((evaluateWithin_literal budget v).bind_pure _).trans ?_
  unfold Value.shortCircuit
  cases v.truthy with
  | error cause => exact .refl limit _
  | ok t =>
      simp only [ofValue, pure_bind]
      by_cases hdecisive : t = k.decisive
      · rw [if_pos hdecisive]
        simp only [bind, Except.bind, if_pos hdecisive]
        exact .refl limit _
      · rw [if_neg hdecisive]
        refine ((evaluateWithin_literal budget w).bind_pure _).trans ?_
        simp only [bind, Except.bind, if_neg hdecisive]
        cases w.truthy <;> exact .refl limit _

theorem evaluate_binary_literals {op : BinaryOp} (ha : a.fold = .ok ⟨literal v, p⟩)
    (hb : b.fold = .ok ⟨literal w, q⟩)
    (h : (env.evaluate limit (binary op a b)).outcome s = .ok x) :
    Value.lazyBinary op v w = .ok x := by
  refine ok_of_evaluate (fun budget =>
    (evaluateNode_binary op (evaluateWithin_fold ha budget) (evaluateWithin_fold hb budget)).trans
      ?_) h
  cases op with
  | connective k => exact evaluateNode_connective_literals k budget
  | _ =>
      exact ((evaluateWithin_literal budget v).bind_pure _).trans
        ((evaluateWithin_literal budget w).bind_pure _)

end Operands

/-! ## Folding constant expressions -/

/-- Somewhere in the expression a connective has a byte string on its right. -/
def HasBytesOnRight (env : Environment) (limit : Nat) (s : Session) (e : Expr) : Prop :=
  ∃ c l r, binary (.connective c) l r ∈ e.nodes ∧
    ∃ b, (env.evaluate limit r).outcome s = .ok (.bytes b)

theorem hasBytesOnRight_iff {e : Expr} : env.HasBytesOnRight limit s e ↔
    (∃ c l r, e = binary (.connective c) l r ∧
      ∃ b, (env.evaluate limit r).outcome s = .ok (.bytes b)) ∨
    ∃ x ∈ e.operands, env.HasBytesOnRight limit s x := by
  unfold HasBytesOnRight
  rw [nodes_eq]
  simp only [List.mem_cons, List.mem_flatMap]
  constructor
  · rintro ⟨c, l, r, hnode | ⟨x, hx, hnode⟩, hbytes⟩
    · exact .inl ⟨c, l, r, hnode.symm, hbytes⟩
    · exact .inr ⟨x, hx, c, l, r, hnode, hbytes⟩
  · rintro (⟨c, l, r, hnode, hbytes⟩ | ⟨x, hx, c, l, r, hnode, hbytes⟩)
    · exact ⟨c, l, r, .inl hnode.symm, hbytes⟩
    · exact ⟨c, l, r, .inr ⟨x, hx, hnode⟩, hbytes⟩

theorem hasBytesOnRight_of_operand {e x : Expr} (hx : x ∈ e.operands)
    (h : env.HasBytesOnRight limit s x) : env.HasBytesOnRight limit s e :=
  hasBytesOnRight_iff.2 (.inr ⟨x, hx, h⟩)

theorem not_hasBytesOnRight {e : Expr} (hnode : ∀ c l r, e ≠ binary (.connective c) l r)
    (h : ∀ x ∈ e.operands, ¬ env.HasBytesOnRight limit s x) :
    ¬ env.HasBytesOnRight limit s e := by
  rw [hasBytesOnRight_iff]
  rintro (⟨c, l, r, he, -⟩ | ⟨x, hx, hbytes⟩)
  · exact hnode c l r he
  · exact h x hx hbytes

/-- Folding finds a literal, or it fails at a byte string on the right of a connective. -/
def FoldsUnlessBytes (env : Environment) (limit : Nat) (s : Session) (e : Expr) : Prop :=
  (∃ v changed, e.fold = .ok ⟨literal v, changed⟩ ∧ ¬ env.HasBytesOnRight limit s e) ∨
    (e.fold = .error (.typeMismatch .noTruthValue) ∧ env.HasBytesOnRight limit s e)

/-- The node of a binary operation whose operands fold to literals. -/
theorem foldsUnlessBytes_binary {op : BinaryOp} {l r : Expr} {v w x y : Value} {p q : Bool}
    (hl : l.fold = .ok ⟨literal v, p⟩) (hr : r.fold = .ok ⟨literal w, q⟩)
    (hnone : ∀ z ∈ (binary op l r).operands, ¬ env.HasBytesOnRight limit s z)
    (hy : (env.evaluate limit r).outcome s = .ok y)
    (hx : (env.evaluate limit (binary op l r)).outcome s = .ok x) :
    env.FoldsUnlessBytes limit s (binary op l r) := by
  have hfold : (binary op l r).fold = (Value.binary op v w).map fun z => ⟨literal z, true⟩ := by
    show (l.fold >>= fun f => r.fold >>= fun g => foldBinary op f g) = _
    rw [hl, hr]
    show foldBinary op ⟨literal v, p⟩ ⟨literal w, q⟩ = _
    unfold foldBinary
    simp only [literal?, binaryValue?]
    cases Value.binary op v w <;> rfl
  have hvalue := evaluate_binary_literals hl hr hx
  have hwy : w = y := eq_of_fold_literal hr hy
  have hok : Value.binary op v w = .ok x → ¬ env.HasBytesOnRight limit s (binary op l r) →
      env.FoldsUnlessBytes limit s (binary op l r) := by
    intro hbinary hbytes
    exact .inl ⟨x, true, by rw [hfold, hbinary]; rfl, hbytes⟩
  cases op with
  | connective k =>
      obtain ⟨t, hw⟩ | ⟨b, rfl⟩ := w.truthy_cases
      · refine hok (Value.binary_connective_of_shortCircuit hvalue hw) ?_
        rw [hasBytesOnRight_iff]
        rintro (⟨c, l', r', he, b, hb⟩ | ⟨z, hz, hbytes⟩)
        · cases he
          rw [hy, ← hwy] at hb
          cases hb
          cases hw
        · exact hnone z hz hbytes
      · refine .inr ⟨by rw [hfold, Value.binary_connective_bytes hvalue]; rfl, ?_⟩
        exact hasBytesOnRight_iff.2 (.inl ⟨k, l, r, rfl, b, by rw [hy, ← hwy]⟩)
  | _ => exact hok hvalue (not_hasBytesOnRight (fun _ _ _ he => by cases he) hnone)

theorem FoldsUnlessBytes.of_operand {e x : Expr} (hx : x ∈ e.operands)
    (hbytes : env.HasBytesOnRight limit s x)
    (hfold : e.fold = .error (.typeMismatch .noTruthValue)) : env.FoldsUnlessBytes limit s e :=
  .inr ⟨hfold, hasBytesOnRight_of_operand hx hbytes⟩

/-- The induction is on the constant expression.  An operand that meets a byte string makes the
whole fail in the same way; otherwise all operands are literals and the node is an operation on
values, which succeeds because evaluation applies it too. -/
theorem fold_constant {e : Expr} (hconst : e.IsConstant)
    (heval : ∀ x ∈ e.nodes, ∃ v, (env.evaluate limit x).outcome s = .ok v) :
    env.FoldsUnlessBytes limit s e := by
  have hinner : ∀ {e x : Expr}, (∀ y ∈ e.nodes, ∃ v, (env.evaluate limit y).outcome s = .ok v) →
      x ∈ e.operands → ∀ y ∈ x.nodes, ∃ v, (env.evaluate limit y).outcome s = .ok v :=
    fun h hx y hy => h y (nodes_subset_of_mem_operands hx hy)
  induction hconst with
  | literal v =>
      refine .inl ⟨v, false, rfl, not_hasBytesOnRight (fun _ _ _ he => by cases he) ?_⟩
      exact List.forall_mem_nil _
  | @unary op a _ iha =>
      obtain ⟨x, hx⟩ := heval _ (mem_nodes_self _)
      have ha : a ∈ (unary op a).operands := by simp [operands]
      obtain ⟨v, p, hfa, hna⟩ | ⟨hfa, hba⟩ := iha (hinner heval ha)
      · refine .inl ⟨x, true, ?_, not_hasBytesOnRight (fun _ _ _ he => by cases he)
          (by simpa [operands] using hna)⟩
        show (a.fold >>= foldUnary op) = _
        rw [hfa]
        show (Value.unary op v).map _ = _
        rw [evaluate_unary_literal hfa hx]
        rfl
      · exact .of_operand ha hba (by rw [fold, hfa]; rfl)
  | @binary op l r _ _ ihl ihr =>
      obtain ⟨x, hx⟩ := heval _ (mem_nodes_self _)
      have hl : l ∈ (binary op l r).operands := by simp [operands]
      have hr : r ∈ (binary op l r).operands := by simp [operands]
      obtain ⟨y, hy⟩ := hinner heval hr r (mem_nodes_self r)
      obtain ⟨v, p, hfl, hnl⟩ | ⟨hfl, hbl⟩ := ihl (hinner heval hl)
      · obtain ⟨w, q, hfr, hnr⟩ | ⟨hfr, hbr⟩ := ihr (hinner heval hr)
        · exact foldsUnlessBytes_binary hfl hfr (by simpa [operands] using ⟨hnl, hnr⟩) hy hx
        · exact .of_operand hr hbr (by rw [fold, hfl, hfr]; rfl)
      · exact .of_operand hl hbl (by rw [fold, hfl]; rfl)
  | @index a b _ _ iha ihb =>
      obtain ⟨x, hx⟩ := heval _ (mem_nodes_self _)
      have ha : a ∈ (index a b).operands := by simp [operands]
      have hb : b ∈ (index a b).operands := by simp [operands]
      obtain ⟨v, p, hfa, hna⟩ | ⟨hfa, hba⟩ := iha (hinner heval ha)
      · obtain ⟨w, q, hfb, hnb⟩ | ⟨hfb, hbb⟩ := ihb (hinner heval hb)
        · refine .inl ⟨x, true, ?_, not_hasBytesOnRight (fun _ _ _ he => by cases he)
            (by simpa [operands] using ⟨hna, hnb⟩)⟩
          rw [fold, hfa, hfb]
          show (Value.index v w).map _ = _
          rw [evaluate_index_literals hfa hfb hx]
          rfl
        · exact .of_operand hb hbb (by rw [fold, hfa, hfb]; rfl)
      · exact .of_operand ha hba (by rw [fold, hfa]; rfl)
  | @slice a b c _ _ _ iha ihb ihc =>
      obtain ⟨x, hx⟩ := heval _ (mem_nodes_self _)
      have ha : a ∈ (slice a b c).operands := by simp [operands]
      have hb : b ∈ (slice a b c).operands := by simp [operands]
      have hc : c ∈ (slice a b c).operands := by simp [operands]
      obtain ⟨u, p, hfa, hna⟩ | ⟨hfa, hba⟩ := iha (hinner heval ha)
      · obtain ⟨v, q, hfb, hnb⟩ | ⟨hfb, hbb⟩ := ihb (hinner heval hb)
        · obtain ⟨w, r, hfc, hnc⟩ | ⟨hfc, hbc⟩ := ihc (hinner heval hc)
          · refine .inl ⟨x, true, ?_, not_hasBytesOnRight (fun _ _ _ he => by cases he)
              (by simpa [operands] using ⟨hna, hnb, hnc⟩)⟩
            rw [fold, hfa, hfb, hfc]
            show (Value.slice u v w).map _ = _
            rw [evaluate_slice_literals hfa hfb hfc hx]
            rfl
          · exact .of_operand hc hbc (by rw [fold, hfa, hfb, hfc]; rfl)
        · exact .of_operand hb hbb (by rw [fold, hfa, hfb]; rfl)
      · exact .of_operand ha hba (by rw [fold, hfa]; rfl)

/-! ## Where folding and evaluation agree -/

/--
**Folding constants finds their values.**  If every part of a constant expression has a value, then
simplifying it succeeds and yields the literal of its value, unless a connective in it has a byte
string on its right.  Evaluation accepts that where the left operand decides the connective, but
simplifying fails there: it asks the byte string for a truth value.
-/
theorem simplify_constant (env : Environment) (limit : Nat) (s : Session) {e : Expr}
    (hconst : e.IsConstant)
    (heval : ∀ x ∈ e.nodes, ∃ v, (env.evaluate limit x).outcome s = .ok v) :
    (¬ env.HasBytesOnRight limit s e →
      ∃ v, (env.evaluate limit e).outcome s = .ok v ∧ e.simplify = .ok (literal v)) ∧
    (env.HasBytesOnRight limit s e → e.simplify = .error (.typeMismatch .noTruthValue)) := by
  obtain ⟨x, hx⟩ := heval e (mem_nodes_self e)
  obtain ⟨v, changed, hfold, hnone⟩ | ⟨hfold, hbytes⟩ := fold_constant hconst heval
  · refine ⟨fun _ => ⟨x, hx, ?_⟩, fun hbytes => absurd hbytes hnone⟩
    rw [simplify, hfold, ← eq_of_fold_literal hfold hx]
    rfl
  · exact ⟨fun hnone => absurd hbytes hnone, fun _ => by rw [simplify, hfold]; rfl⟩

theorem exists_ok_of_isSome {r : Except Error Value} (h : r.toOption.isSome = true) :
    ∃ v, r = .ok v := by
  cases r with
  | ok v => exact ⟨v, rfl⟩
  | error cause => cases h

/-- `!("ab"[1] == 97) && (true || 0)`, where the second connective is decided by its left
operand. -/
def secondByteCheck : Expr :=
  binary (.connective .and)
    (unary .not (binary (.comparison .eq)
      (index (literal (.bytes [97, 98])) (literal (.number (.literal 1))))
      (literal (.number (.literal 97)))))
    (binary (.connective .or) (literal (.bool true)) (literal (.number (.literal 0))))

/-- A session outside of any rule. -/
def emptySession : Session := Session.start default (Source.ofFile "a" []) ∅ none

theorem simplify_constant_secondByteCheck :
    let env : Environment := ⟨∅, .builtins⟩
    secondByteCheck.IsConstant ∧
      (∀ x ∈ secondByteCheck.nodes,
        ∃ v, (env.evaluate depthLimit x).outcome emptySession = .ok v) ∧
      ¬ env.HasBytesOnRight depthLimit emptySession secondByteCheck ∧
      ∃ v, (env.evaluate depthLimit secondByteCheck).outcome emptySession = .ok v ∧
        secondByteCheck.simplify = .ok (literal v) := by
  intro env
  have hconst : secondByteCheck.IsConstant :=
    .binary (.unary (.binary (.index (.literal _) (.literal _)) (.literal _)))
      (.binary (.literal _) (.literal _))
  have hvalues : ∀ x ∈ secondByteCheck.nodes,
      ((env.evaluate depthLimit x).outcome emptySession).toOption.isSome = true := by
    decide +kernel
  have heval : ∀ x ∈ secondByteCheck.nodes,
      ∃ v, (env.evaluate depthLimit x).outcome emptySession = .ok v :=
    fun x hx => exists_ok_of_isSome (hvalues x hx)
  have hkinds : ∀ x ∈ secondByteCheck.nodes, x.connectiveRight?.all (fun r =>
      ((env.evaluate depthLimit r).outcome emptySession).toOption.map Value.kind !=
        some .bytes) = true := by
    decide +kernel
  have hnone : ¬ env.HasBytesOnRight depthLimit emptySession secondByteCheck := by
    rintro ⟨c, l, r, hnode, b, hb⟩
    have hkind := hkinds _ hnode
    simp only [connectiveRight?, Option.all_some] at hkind
    rw [hb] at hkind
    cases hkind
  exact ⟨hconst, heval, hnone, (simplify_constant env depthLimit emptySession hconst heval).1 hnone⟩

/-- `false && "x"`: evaluation does not look at the text, and simplifying fails at it. -/
theorem simplify_decidedText :
    let env : Environment := ⟨∅, .builtins⟩
    let e := binary (.connective .and) (literal (.bool false)) (literal (.bytes [120]))
    e.IsConstant ∧
      (∀ x ∈ e.nodes, ∃ v, (env.evaluate depthLimit x).outcome emptySession = .ok v) ∧
      (env.evaluate depthLimit e).outcome emptySession = .ok (.bool false) ∧
      e.simplify = .error (.typeMismatch .noTruthValue) := by
  intro env e
  have hvalues : ∀ x ∈ e.nodes,
      ((env.evaluate depthLimit x).outcome emptySession).toOption.isSome = true := by
    decide +kernel
  have hconst : e.IsConstant := .binary (.literal _) (.literal _)
  exact ⟨hconst, fun x hx => exists_ok_of_isSome (hvalues x hx), rfl, rfl⟩

end Environment

end RuleScan
