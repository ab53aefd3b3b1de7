import RuleScan.Proofs.Expr.Simplified
import RuleScan.Proofs.Reading.Parses
import RuleScan.Proofs.Reading.Printing

/-!
# Reading printed expressions

The tokens of a printed expression are read as that expression, or a limit is exceeded
(`Expr.Legible`).  The statement has three parts, since an expression is read in three ways: as
a whole up to a closing mark, as an operand up to an operation symbol, and piece by piece where
brackets follow.

Brackets are read by a loop from left to right, while the expression is built around its
subject.  So the third part is about what the loop does after the subject: if the loop goes on
well from there, then it does from the subject's first token.  The budget of the loop never runs
out before the nodes do, since every bracket counts as a node.

## Main results

* `Expr.IsPrintable.exists_head` — how the tokens of an operand begin.
* `Expr.Chains.bracket` — a round of the loop that reads brackets.
* `Expr.IsPrintable.legible` — printable expressions are read back.
-/

namespace RuleScan

namespace Expr

open RuleScan.Parser

variable {r : Registry} {e a b i j o : Expr} {m : Register}

/-! ## How tokens begin -/

/-- The tokens begin like an entry of metadata. -/
def BeginsEntry (ks : List TokenKind) : Prop :=
  ∃ key rest, ks = .ident key :: .symbol .assign :: rest

theorem not_beginsEntry_enclose
    (h : ∀ {k ks}, k ≠ .symbol .assign → ¬ BeginsEntry (e.kinds ++ k :: ks)) {k : TokenKind}
    {ks : List TokenKind} (hk : k ≠ .symbol .assign) :
    ¬ BeginsEntry (encloseKinds e e.kinds ++ k :: ks) := by
  cases e with
  | binary op a b =>
      rintro ⟨_, _, h⟩
      cases h
  | _ => exact h hk

/-- No expression is taken for an entry of metadata: what follows a name in it is no `=`. -/
theorem IsPrintable.not_beginsEntry (h : e.IsPrintable r) {k : TokenKind} {ks : List TokenKind}
    (hk : k ≠ .symbol .assign) : ¬ BeginsEntry (e.kinds ++ k :: ks) := by
  induction h generalizing k ks with
  | @literal v hv =>
      rintro ⟨key, rest, h⟩
      cases v <;> cases h
  | var hname =>
      rintro ⟨key, rest, h⟩
      simp only [kinds, List.cons_append, List.nil_append, List.cons.injEq] at h
      exact hk h.2.1
  | unary op _ _ =>
      rintro ⟨_, _, h⟩
      cases h
  | binary op _ _ iha _ =>
      have hop : TokenKind.symbol op.symbol ≠ .symbol .assign := by
        rcases op with op | op | op <;> cases op <;> decide
      rw [kinds, List.append_assoc]
      exact not_beginsEntry_enclose iha hop
  | index _ _ _ ihe _ | slice _ _ _ _ ihe _ _ =>
      rw [kinds, List.append_assoc]
      exact not_beginsEntry_enclose ihe (by simp)
  | extractNumber w _ _ _ =>
      rw [kinds_extractNumber]
      rintro ⟨_, _, h⟩
      cases h
  | extract hformat _ _ _ _ _ =>
      rw [kinds_extract hformat]
      rintro ⟨_, _, h⟩
      cases h
  | call _ _ _ _ _ _ =>
      rw [kinds_call]
      rintro ⟨_, _, h⟩
      cases h

/-- An operand begins with a sign only if it is a unary operation. -/
theorem IsPrintable.exists_head (h : e.IsPrintable r) :
    ∃ k ks, encloseKinds e e.kinds = k :: ks ∧ k ≠ .symbol .parenClose ∧
      (e.isUnary = false → UnaryOp.ofKind? k = none) := by
  induction h with
  | @literal v hv =>
      refine ⟨_, _, rfl, ?_⟩
      cases v <;> exact ⟨by simp [Value.token], fun _ => rfl⟩
  | @var name hname =>
      refine ⟨_, _, rfl, ?_⟩
      unfold nameToken
      split <;> exact ⟨by simp, fun _ => rfl⟩
  | unary op _ _ => exact ⟨_, _, rfl, by cases op <;> decide, by simp [isUnary]⟩
  | binary op _ _ _ _ => exact ⟨_, _, rfl, by decide, fun _ => rfl⟩
  | index _ hunary _ ihe _ =>
      obtain ⟨k, ks, hhead, hk, hsign⟩ := ihe
      exact ⟨k, _, by rw [encloseKinds_index, hhead, List.cons_append], hk,
        fun _ => hsign hunary⟩
  | slice _ hunary _ _ ihe _ _ =>
      obtain ⟨k, ks, hhead, hk, hsign⟩ := ihe
      exact ⟨k, _, by rw [encloseKinds_slice, hhead, List.cons_append], hk,
        fun _ => hsign hunary⟩
  | extractNumber w _ _ _ =>
      exact ⟨_, _, kinds_extractNumber _ _ _, by simp, fun _ => rfl⟩
  | extract hformat _ _ _ _ _ =>
      exact ⟨_, _, kinds_extract hformat _ _ _, by simp, fun _ => rfl⟩
  | call _ _ _ _ _ _ => exact ⟨_, _, kinds_call _ _ _, by simp, fun _ => rfl⟩

theorem IsPrintable.exists_head_kinds (h : e.IsPrintable r) :
    ∃ k ks, e.kinds = k :: ks ∧ k ≠ .symbol .parenClose := by
  obtain ⟨k, ks, hhead, hk, -⟩ := h.exists_head
  cases e with
  | binary op a b =>
      cases h with
      | binary _ ha _ =>
          obtain ⟨k, ks, hhead, hk, -⟩ := ha.exists_head
          exact ⟨k, _, by rw [kinds, hhead, List.cons_append], hk⟩
  | _ => exact ⟨k, ks, hhead, hk⟩

/-! ## The ways to read an expression -/

/-- The marks that end an expression. -/
def closers : List Symbol := [.parenClose, .bracketClose, .comma, .colon, .semicolon]

theorem of_mem_closers {s : Symbol} (h : s ∈ closers) :
    (TokenKind.symbol s ≠ .symbol .parenOpen ∧ TokenKind.symbol s ≠ .symbol .bracketOpen) ∧
      TokenKind.symbol s ≠ .symbol .assign ∧ BinaryOp.ofKind? (.symbol s) = none := by
  have hall : ∀ s ∈ closers,
      (TokenKind.symbol s ≠ .symbol .parenOpen ∧ TokenKind.symbol s ≠ .symbol .bracketOpen) ∧
        TokenKind.symbol s ≠ .symbol .assign ∧ BinaryOp.ofKind? (.symbol s) = none := by decide
  exact hall s h

/-- If reading goes on well behind the expression, with whatever brackets follow, it goes well
from its first token on. -/
def Chains (r : Registry) (e : Expr) : Prop :=
  ∀ (room : Nat) {k : TokenKind} {ks : List TokenKind} {low : Nat} {A : Expr → Prop} {s' : Place},
    k ≠ .symbol .parenOpen →
    (∀ {budget low' : Nat}, nodeLimit < budget + low' → low ≤ low' →
      Parses IsLimit (brackets (Parser.unary r.signature? room) budget e.bare)
        ⟨k :: ks, low'⟩ A s') →
    Parses IsLimit (do
        let e ← primary r.signature? (Parser.unary r.signature? room)
        brackets (Parser.unary r.signature? room) operationBudget e)
      ⟨encloseKinds e e.kinds ++ k :: ks, low⟩ A s'

/-- The tokens of an expression are read as that expression, unless a limit is exceeded: as a
whole, as an operand, and in front of brackets. -/
structure Legible (r : Registry) (e : Expr) : Prop where
  whole : ∀ (room : Nat) {s : Symbol} {ks : List TokenKind} {low : Nat}, s ∈ closers →
    Parses IsLimit (expression (Parser.unary r.signature? room))
      ⟨e.kinds ++ .symbol s :: ks, low⟩ (· = e.bare) ⟨.symbol s :: ks, low⟩
  operand : ∀ (room : Nat) {k : TokenKind} {ks : List TokenKind} {low : Nat},
    k ≠ .symbol .parenOpen → k ≠ .symbol .bracketOpen →
      Parses IsLimit (Parser.unary r.signature? room) ⟨encloseKinds e e.kinds ++ k :: ks, low⟩
        (· = e.bare) ⟨k :: ks, low⟩
  chain : e.isUnary = false → e.Chains r

section Loops

variable {F : SyntaxError → Prop} {operand : Parser Expr} {k : TokenKind} {ks : List TokenKind}
  {low : Nat}

theorem parses_brackets_stop (hk : k ≠ .symbol .bracketOpen) (budget : Nat) :
    Parses F (brackets operand budget e) ⟨k :: ks, low⟩ (· = e) ⟨k :: ks, low⟩ := by
  cases budget with
  | zero => exact Parses.pure rfl
  | succ budget => exact (parses_eat_other hk).andThen (Parses.pure rfl)

theorem parses_climb_stop (hk : BinaryOp.ofKind? k = none) (budget least : Nat) :
    Parses F (climb operand budget least e) ⟨k :: ks, low⟩ (· = e) ⟨k :: ks, low⟩ := by
  cases budget with
  | zero => exact Parses.pure rfl
  | succ budget =>
      refine parses_peek.bind fun t ht => ?_
      rw [ht, hk]
      exact Parses.pure rfl

/-- One operation is read when no other follows its right operand. -/
theorem parses_climb (op : BinaryOp) (hk : BinaryOp.ofKind? k = none) (budget : Nat)
    {right : List TokenKind}
    (hoperand : Parses IsLimit operand ⟨right, low⟩ (· = b) ⟨k :: ks, low⟩) :
    Parses IsLimit (climb operand (budget + 1) 1 a) ⟨.symbol op.symbol :: right, low⟩
      (· = binary op a b) ⟨k :: ks, low⟩ := by
  refine parses_peek.bind fun t ht => ?_
  rw [ht, op.ofKind?_symbol]
  dsimp only
  rw [if_neg (Nat.not_lt.2 op.precedence_pos)]
  refine (parses_advance (by simp)).bind fun _ _ => ?_
  refine hoperand.andThen ?_
  refine (parses_climb_stop hk _ _).andThen ?_
  refine parses_node.andThen ?_
  exact (parses_climb_stop hk _ _).lower (Nat.le_succ low)

end Loops

theorem exists_operationBudget : ∃ budget, operationBudget = budget + 1 := ⟨_, rfl⟩

/-- What is read at once is read in front of brackets; it counts as a node. -/
theorem chains_of_primary
    (h : ∀ (room : Nat) {k : TokenKind} {ks : List TokenKind} {low : Nat},
      k ≠ .symbol .parenOpen →
      Parses IsLimit (primary r.signature? (Parser.unary r.signature? room))
        ⟨encloseKinds e e.kinds ++ k :: ks, low⟩ (· = e.bare) ⟨k :: ks, low + 1⟩) :
    e.Chains r := by
  intro room k ks low A s' hk hnext
  have hbudget : nodeLimit < operationBudget + (low + 1) := by
    unfold operationBudget
    omega
  exact (h room hk).andThen (hnext hbudget (Nat.le_succ low))

/-- An operand is what is read in front of no more brackets. -/
theorem Chains.operand (hchain : e.Chains r) (h : e.IsPrintable r) (hunary : e.isUnary = false)
    (room : Nat) {k : TokenKind} {ks : List TokenKind} {low : Nat}
    (hparen : k ≠ .symbol .parenOpen) (hbracket : k ≠ .symbol .bracketOpen) :
    Parses IsLimit (Parser.unary r.signature? room) ⟨encloseKinds e e.kinds ++ k :: ks, low⟩
      (· = e.bare) ⟨k :: ks, low⟩ := by
  cases room with
  | zero => exact fun _ _ => Or.inr rfl
  | succ room =>
      have hread : Parses IsLimit (do
            let e ← primary r.signature? (Parser.unary r.signature? room)
            brackets (Parser.unary r.signature? room) operationBudget e)
          ⟨encloseKinds e e.kinds ++ k :: ks, low⟩ (· = e.bare) ⟨k :: ks, low⟩ :=
        hchain room hparen fun _ hlow => (parses_brackets_stop hbracket _).lower hlow
      obtain ⟨first, tail, hhead, -, hsign⟩ := h.exists_head
      rw [hhead, List.cons_append] at hread ⊢
      rw [unary_succ]
      refine parses_peek.bind fun t ht => ?_
      rw [ht, hsign hunary]
      exact hread

/-- An operand without operations behind it is a whole expression. -/
theorem parses_expression_of_operand {operand : Parser Expr} {s : Symbol}
    {ks ks' : List TokenKind} {low : Nat} (hs : s ∈ closers)
    (h : Parses IsLimit operand ⟨ks, low⟩ (· = e) ⟨.symbol s :: ks', low⟩) :
    Parses IsLimit (expression operand) ⟨ks, low⟩ (· = e) ⟨.symbol s :: ks', low⟩ :=
  h.andThen (parses_climb_stop (of_mem_closers hs).2.2 _ _)

/-- All that is needed of an expression that is neither a unary nor a binary operation. -/
theorem Chains.legible (hchain : e.Chains r) (h : e.IsPrintable r) (hunary : e.isUnary = false)
    (hkinds : encloseKinds e e.kinds = e.kinds) : e.Legible r where
  whole room s ks low hs := by
    have hends := of_mem_closers hs
    refine parses_expression_of_operand hs ?_
    rw [← hkinds]
    exact hchain.operand h hunary room hends.1.1 hends.1.2
  operand room := hchain.operand h hunary room
  chain _ := hchain

/-! ## Operations -/

theorem legible_unary (op : UnaryOp) (he : e.Legible r) : (unary op e).Legible r := by
  have hoperand : ∀ (room : Nat) {k : TokenKind} {ks : List TokenKind} {low : Nat},
      k ≠ .symbol .parenOpen → k ≠ .symbol .bracketOpen →
      Parses IsLimit (Parser.unary r.signature? room) ⟨(unary op e).kinds ++ k :: ks, low⟩
        (· = (unary op e).bare) ⟨k :: ks, low⟩ := by
    intro room k ks low hparen hbracket
    cases room with
    | zero => exact fun _ _ => Or.inr rfl
    | succ room =>
        rw [unary_succ]
        refine parses_peek.bind fun t ht => ?_
        rw [ht, op.ofKind?_symbol]
        refine (parses_advance (by simp)).bind fun _ _ => ?_
        refine (he.operand room hparen hbracket).andThen ?_
        refine Parses.lower ?_ (Nat.le_succ low)
        exact parses_node.andThen (Parses.pure rfl)
  refine ⟨fun room s ks low hs => ?_, hoperand, by simp [isUnary]⟩
  have hends := of_mem_closers hs
  exact parses_expression_of_operand hs (hoperand room hends.1.1 hends.1.2)

theorem legible_binary (op : BinaryOp) (ha : a.Legible r) (hb : b.Legible r)
    (h : (binary op a b).IsPrintable r) : (binary op a b).Legible r := by
  have hwhole : ∀ (room : Nat) {s : Symbol} {ks : List TokenKind} {low : Nat}, s ∈ closers →
      Parses IsLimit (expression (Parser.unary r.signature? room))
        ⟨(binary op a b).kinds ++ .symbol s :: ks, low⟩ (· = (binary op a b).bare)
        ⟨.symbol s :: ks, low⟩ := by
    intro room s ks low hs
    have hends := of_mem_closers hs
    have hop : TokenKind.symbol op.symbol ≠ .symbol .parenOpen ∧
        TokenKind.symbol op.symbol ≠ .symbol .bracketOpen := by
      rcases op with op | op | op <;> cases op <;> decide
    obtain ⟨budget, hbudget⟩ := exists_operationBudget
    rw [kinds, List.append_assoc, List.cons_append, expression, hbudget]
    refine (ha.operand room hop.1 hop.2).andThen ?_
    exact parses_climb op hends.2.2 budget (hb.operand room hends.1.1 hends.1.2)
  have hchain : (binary op a b).Chains r := by
    refine chains_of_primary fun room k ks low _ => ?_
    have htokens : encloseKinds (binary op a b) (binary op a b).kinds ++ k :: ks =
        .symbol .parenOpen :: ((binary op a b).kinds ++ .symbol .parenClose :: k :: ks) := by
      simp only [encloseKinds, List.cons_append, List.append_assoc, List.nil_append]
    rw [htokens]
    refine parses_node.andThen ?_
    refine (parses_advance (by simp)).bind fun t ht => ?_
    rw [ht]
    refine (hwhole room (by decide)).andThen ?_
    exact (parses_expect .parenClose).andThen (Parses.pure rfl)
  exact ⟨hwhole, hchain.operand h rfl, fun _ => hchain⟩

/-! ## Brackets -/

/-- One round of the loop turns a subject into an expression with brackets and counts a node, so
the nodes grow as the budget shrinks. -/
theorem Chains.bracket (he : e.Chains r) {e' : Expr} {inner : List TokenKind}
    (hkinds : encloseKinds e' e'.kinds = encloseKinds e e.kinds ++ .symbol .bracketOpen :: inner)
    (hround : ∀ (room budget : Nat) {ks : List TokenKind} {low : Nat} {A : Expr → Prop}
      {s' : Place},
      Parses IsLimit (brackets (Parser.unary r.signature? room) budget e'.bare)
        ⟨ks, low + 1⟩ A s' →
      Parses IsLimit (brackets (Parser.unary r.signature? room) (budget + 1) e.bare)
        ⟨.symbol .bracketOpen :: (inner ++ ks), low⟩ A s') :
    e'.Chains r := by
  intro room k ks low A s' hk hnext
  rw [hkinds, List.append_assoc]
  refine he room (by simp) fun {budget low'} hbudget hlow => Parses.of_low fun hlimit => ?_
  replace hlimit : low' ≤ nodeLimit := hlimit
  obtain ⟨budget, rfl⟩ : ∃ n, budget = n + 1 := Nat.exists_eq_add_one.2 (by omega)
  exact hround room budget (hnext (by omega) (by omega))

theorem chains_index (he : e.Chains r) (hi : i.Legible r) : (index e i).Chains r := by
  refine he.bracket (encloseKinds_index e i) fun room budget _ _ _ _ hnext => ?_
  refine (parses_eat .bracketOpen).andThen ?_
  rw [List.append_assoc]
  refine (hi.whole room (by decide)).andThen ?_
  refine (parses_eat_other (by simp)).andThen ?_
  refine (parses_expect .bracketClose).andThen ?_
  exact parses_node.andThen hnext

theorem chains_slice (he : e.Chains r) (hi : i.Legible r) (hj : j.Legible r) :
    (slice e i j).Chains r := by
  refine he.bracket (encloseKinds_slice e i j) fun room budget _ _ _ _ hnext => ?_
  refine (parses_eat .bracketOpen).andThen ?_
  simp only [List.append_assoc, List.cons_append, List.nil_append]
  refine (hi.whole room (by decide)).andThen ?_
  refine (parses_eat .colon).andThen ?_
  refine (hj.whole room (by decide)).andThen ?_
  refine (parses_expect .bracketClose).andThen ?_
  exact parses_node.andThen hnext

/-! ## Literals and variables -/

theorem chains_literal {v : Value} (hv : v.IsLiteral) : (literal v).Chains r := by
  refine chains_of_primary fun room k ks low _ => ?_
  show Parses _ _ ⟨v.token :: k :: ks, low⟩ _ _
  have htoken : v.token ≠ .eof := by cases v <;> simp [Value.token]
  refine parses_node.andThen ?_
  refine (parses_advance htoken).bind fun t ht => ?_
  rw [ht]
  cases hv with
  | bool b => cases b <;> exact Parses.pure rfl
  | bytes b => exact Parses.pure rfl
  | number hn =>
      rw [Value.token_literal hn]
      exact Parses.pure rfl

theorem chains_var {name : String} (hname : IsIdentifier name ∨ IsSpecial name) :
    (var name).Chains r := by
  refine chains_of_primary fun room k ks low hk => ?_
  show Parses _ _ ⟨nameToken name :: k :: ks, low⟩ _ _
  refine parses_node.andThen ?_
  rcases hname with hname | hname
  · rw [nameToken_of_isIdentifier hname]
    refine (parses_advance (by simp)).bind fun t ht => ?_
    rw [ht]
    refine (parses_at? .parenOpen).andThen ?_
    rw [beq_eq_false_iff_ne.2 hk]
    exact Parses.pure rfl
  · rw [nameToken_of_isSpecial hname]
    refine (parses_advance (by simp)).bind fun t ht => ?_
    rw [ht]
    exact Parses.pure rfl

/-! ## Calls -/

/-- An item of a call as it is read. -/
def bareItem : Expr ⊕ String × Value → Expr ⊕ String × Value := Sum.map bare id

theorem map_bareItem (args : List Expr) (m : Register) :
    (callItems args m).map bareItem = callItems (args.map bare) m := by
  simp [callItems, bareItem, Function.comp_def]

theorem filterMap_getLeft?_callItems (args : List Expr) (m : Register) :
    (callItems args m).filterMap (fun item => item.getLeft?) = args := by
  simp [callItems, List.filterMap_append, List.filterMap_map, Function.comp_def]

theorem filterMap_getRight?_callItems (args : List Expr) (m : Register) :
    (callItems args m).filterMap (fun item => item.getRight?) = m.own.entries := by
  simp [callItems, List.filterMap_append, List.filterMap_map, Function.comp_def]

/-- A literal is read as a constant. -/
theorem parses_constant {v : Value} (hv : (literal v).Legible r) (room : Nat) (what : String)
    {s : Symbol} (hs : s ∈ closers) {ks : List TokenKind} {low : Nat} :
    Parses IsLimit (constant (Parser.unary r.signature? room) what)
      ⟨v.token :: .symbol s :: ks, low⟩ (· = v) ⟨.symbol s :: ks, low⟩ := by
  refine parses_peek_any.bind fun _ _ => ?_
  refine (parses_bounded (hv.whole room hs)).andThen ?_
  exact Parses.pure rfl

/-- An argument is not mistaken for an entry of metadata. -/
theorem parses_callItem_inl (h : e.IsPrintable r) (he : e.Legible r) (room : Nat) {s : Symbol}
    (hs : s ∈ closers) {ks : List TokenKind} {low : Nat} :
    Parses IsLimit (callItem (Parser.unary r.signature? room)) ⟨e.kinds ++ .symbol s :: ks, low⟩
      (· = .inl e.bare) ⟨.symbol s :: ks, low⟩ := by
  have hentry : ¬ BeginsEntry (e.kinds ++ .symbol s :: ks) :=
    h.not_beginsEntry (of_mem_closers hs).2.1
  have hread : Parses IsLimit (expression (Parser.unary r.signature? room))
      ⟨e.kinds ++ .symbol s :: ks, low⟩ (· = e.bare) ⟨.symbol s :: ks, low⟩ := he.whole room hs
  obtain ⟨first, tail, hfirst, -⟩ := h.exists_head_kinds
  obtain ⟨second, tail', hsecond⟩ : ∃ second tail', tail ++ .symbol s :: ks = second :: tail' := by
    cases tail <;> exact ⟨_, _, rfl⟩
  rw [hfirst, List.cons_append, hsecond] at hentry hread ⊢
  refine parses_peek.bind fun t ht => ?_
  refine parses_peekSecond.andThen ?_
  split
  · next key hkey =>
    rw [ht] at hkey
    exact absurd ⟨key, tail', by rw [hkey]⟩ hentry
  · exact hread.andThen (Parses.pure rfl)

theorem parses_callItem_inr {entry : String × Value} (hv : (literal entry.2).Legible r)
    (room : Nat) {s : Symbol} (hs : s ∈ closers) {ks : List TokenKind} {low : Nat} :
    Parses IsLimit (callItem (Parser.unary r.signature? room))
      ⟨entryKinds entry ++ .symbol s :: ks, low⟩ (· = .inr entry) ⟨.symbol s :: ks, low⟩ := by
  refine parses_peek.bind fun t ht => ?_
  refine parses_peekSecond.andThen ?_
  rw [ht]
  refine (parses_advance (by simp)).bind fun _ _ => ?_
  refine (parses_advance (by simp)).bind fun _ _ => ?_
  exact (parses_constant hv room _ hs).andThen (Parses.pure rfl)

theorem legible_literal {v : Value} (hv : v.IsLiteral) : (literal v).Legible r :=
  (chains_literal hv).legible (.literal hv) rfl rfl

/-- Each item of a call is read back. -/
theorem parses_callItem {args : List Expr} (hargs : ∀ e ∈ args, e.IsPrintable r ∧ e.Legible r)
    (hm : m.IsPrintable) (room : Nat) {low : Nat} :
    ∀ item ∈ callItems args m, ∀ next ∈ [Symbol.comma, .parenClose], ∀ ks,
      Parses IsLimit (callItem (Parser.unary r.signature? room))
        ⟨itemKinds item ++ .symbol next :: ks, low⟩ (· = bareItem item)
        ⟨.symbol next :: ks, low⟩ := by
  intro item hitem next hnext ks
  have hs : next ∈ closers := by
    revert next
    decide
  rcases List.mem_append.1 hitem with hitem | hitem
  · obtain ⟨e, he, rfl⟩ := List.mem_map.1 hitem
    exact parses_callItem_inl (hargs e he).1 (hargs e he).2 room hs
  · obtain ⟨entry, hentry, rfl⟩ := List.mem_map.1 hitem
    exact parses_callItem_inr (legible_literal (hm entry hentry).2) room hs

theorem exists_head_item {args : List Expr} (hargs : ∀ e ∈ args, e.IsPrintable r) :
    ∀ item ∈ callItems args m, ∃ k ks, itemKinds item = k :: ks ∧ k ≠ .symbol .parenClose := by
  intro item hitem
  rcases List.mem_append.1 hitem with hitem | hitem
  · obtain ⟨e, he, rfl⟩ := List.mem_map.1 hitem
    exact (hargs e he).exists_head_kinds
  · obtain ⟨entry, -, rfl⟩ := List.mem_map.1 hitem
    exact ⟨_, _, rfl, by simp⟩

/-- A call is put together again from its items. -/
theorem chains_call {name : String} {args : List Expr}
    (hargs : ∀ e ∈ args, e.IsPrintable r ∧ e.Legible r) (hm : m.IsPrintable)
    (hkinds : encloseKinds e e.kinds = callKinds name ((callItems args m).map itemKinds))
    (hnode : callNode r.signature? name (args.map bare) (m.setParent none) = .ok e.bare) :
    e.Chains r := by
  refine chains_of_primary fun room k ks low _ => ?_
  have htokens : encloseKinds e e.kinds ++ k :: ks = .ident name :: .symbol .parenOpen ::
      ([.symbol .comma].intercalate ((callItems args m).map itemKinds) ++
        .symbol .parenClose :: k :: ks) := by
    rw [hkinds, callKinds]
    simp only [List.cons_append, List.append_assoc, List.nil_append]
  rw [htokens]
  refine parses_node.andThen ?_
  refine (parses_advance (by simp)).bind fun t ht => ?_
  rw [ht]
  refine (parses_at? .parenOpen).andThen ?_
  refine (parses_expect .parenOpen).andThen ?_
  refine (parses_listUntil (by decide) (exists_head_item fun e he => (hargs e he).1)
    (parses_callItem hargs hm room)).andThen ?_
  refine (parses_expect .parenClose).andThen ?_
  dsimp only
  rw [map_bareItem, filterMap_getLeft?_callItems, filterMap_getRight?_callItems,
    Register.foldl_set_entries, hnode]
  exact Parses.pure rfl

section Nodes

variable (signatures : String → Option Signature)

theorem callNode_extractName (w : Width) (o : Expr) (m : Register) :
    callNode signatures (extractName w) [o] m = .ok (extractNumber o w m) := by
  have hwidth : extractWidth? (extractName w) = some w := by cases w <;> decide
  rw [callNode, hwidth]

theorem callNode_formatName {format : ExtractFormat} (h : format ≠ .number) (o s : Expr)
    (m : Register) :
    callNode signatures (formatName format) [o, s] m = .ok (extract format o s m) := by
  have hwidth : extractWidth? (formatName format) = none := by cases format <;> decide
  have hformat : extractFormat? (formatName format) = some format := by
    cases format with
    | number => exact absurd rfl h
    | string | stringz => decide
  rw [callNode, hwidth, hformat]

variable {signatures}

/-- The name of an operator is not that of an extract. -/
theorem callNode_call {name : String} {signature : Signature} {args : List Expr}
    (hreserved : name ∉ Registry.reservedNames) (hsignature : signatures name = some signature)
    (haccepts : signature.accepts args.length = true) (m : Register) :
    callNode signatures name args m = .ok (call name args m) := by
  simp only [Registry.reservedNames, List.mem_cons, List.not_mem_nil, or_false, not_or]
    at hreserved
  have hwidth : extractWidth? name = none := by simp [extractWidth?, hreserved]
  have hformat : extractFormat? name = none := by simp [extractFormat?, hreserved]
  rw [callNode, hwidth, hformat]
  simp only [hsignature, haccepts, if_true]

end Nodes

/-! ## All printable expressions -/

/-- The tokens of a printable expression are read as that expression, or a limit is exceeded. -/
theorem IsPrintable.legible (hr : r.IsBuilt) (h : e.IsPrintable r) : e.Legible r := by
  induction h with
  | literal hv => exact legible_literal hv
  | var hname => exact (chains_var hname).legible (.var hname) rfl rfl
  | unary op _ ih => exact legible_unary op ih
  | binary op ha hb iha ihb => exact legible_binary op iha ihb (.binary op ha hb)
  | index he hunary hi ihe ihi =>
      exact (chains_index (ihe.chain hunary) ihi).legible (.index he hunary hi) rfl rfl
  | slice he hunary hi hj ihe ihi ihj =>
      exact (chains_slice (ihe.chain hunary) ihi ihj).legible (.slice he hunary hi hj) rfl rfl
  | @extractNumber w o m ho hm iho =>
      have hargs : ∀ e ∈ [o], e.IsPrintable r ∧ e.Legible r := by simpa using ⟨ho, iho⟩
      have hchain := chains_call (e := .extractNumber o w m) hargs hm (kinds_extractNumber o w m)
        (callNode_extractName _ w _ _)
      exact hchain.legible (.extractNumber w ho hm) rfl rfl
  | @extract format o s m hformat ho hs hm iho ihs =>
      have hargs : ∀ e ∈ [o, s], e.IsPrintable r ∧ e.Legible r := by
        simpa using ⟨⟨ho, iho⟩, hs, ihs⟩
      have hchain := chains_call (e := .extract format o s m) hargs hm
        (kinds_extract hformat o s m) (callNode_formatName _ hformat _ _ _)
      exact hchain.legible (.extract hformat ho hs hm) rfl rfl
  | @call name signature args m hsignature hword haccepts hargs hm ih =>
      have hnode : callNode r.signature? name (args.map bare) (m.setParent none) =
          .ok (Expr.call name args m).bare := by
        rw [bare, bareAll_eq_map]
        exact callNode_call (hr.isName hsignature).2 hsignature (by rwa [List.length_map]) _
      have hchain := chains_call (e := .call name args m) (fun e he => ⟨hargs e he, ih e he⟩) hm
        (kinds_call name args m) hnode
      exact hchain.legible (.call hsignature hword haccepts hargs hm) rfl rfl

end Expr

end RuleScan
