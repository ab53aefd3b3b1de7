import RuleScan.Proofs.Reading.Yields
import RuleScan.Proofs.Rule.Unsourced

/-!
# Reading what other rules follow

A rule is read in the same way whether its source ends behind it or goes on with another rule.
To see this, a parser is run on two token lists side by side: the first one ends where the second
one goes on (`Twins`).  If the parser succeeds on the first list, it succeeds on the second, takes
the same tokens and yields the same (`Agrees`).  The statement composes along a sequence of steps,
as `Yields` does, but it is about two runs.

No step looks past the tokens that both lists share, for where the first list ends, it goes on
with nothing that could belong to the rule before: a rule begins with a keyword that is found
nowhere else.  The numbers of steps that a list bounds are larger on the second list, but neither
bound is ever reached.

## Main results

* `Agrees.bind`, `agrees_listUntil` — sequences and lists.
* `Parser.unaffected_boundedExpression` — expressions are read in the same way.
* `RuleParser.agrees_rule` — so are rules, up to the names of their sources.
-/

namespace RuleScan

/-! ## Two runs side by side -/

/-- The kinds of tokens with which a source goes on, or ends, behind a rule. -/
def FollowsRule (after : List TokenKind) : Prop :=
  ∃ k rest, after = k :: rest ∧ (k = .eof ∨ k = .keyword .ruleWord)

/-- Both cursors are in front of the same tokens; then the first source ends, and the second one
goes on.  Where nodes count, which is within an expression, both have built the same number. -/
structure Twins (counts : Prop) (after kinds : List TokenKind) (c d : Cursor) : Prop where
  left : c.tokens.map Token.kind = kinds ++ [.eof]
  right : d.tokens.map Token.kind = kinds ++ after
  nodes : counts → d.nodes = c.nodes
  inner : .eof ∉ kinds

/-- If the first parser succeeds where the source ends, then so does the second one where it goes
on; both take the same tokens, and what they yield is related, given the tokens that are left. -/
def Agrees {ε α β : Type} (counts : Prop) (after kinds : List TokenKind)
    (p : StateT Cursor (Except ε) α) (q : StateT Cursor (Except ε) β)
    (R : α → β → List TokenKind → Prop) : Prop :=
  ∀ ⦃c d⦄, Twins counts after kinds c d → ∀ ⦃a c'⦄, p c = .ok (a, c') →
    ∃ b d' left, q d = .ok (b, d') ∧ Twins counts after left c' d' ∧ left <:+ kinds ∧ R a b left

/-- Whether the source ends or goes on makes no difference to a parser. -/
def Unaffected {ε α : Type} (counts : Prop) (after : List TokenKind)
    (p : StateT Cursor (Except ε) α) : Prop :=
  ∀ kinds, Agrees counts after kinds p p fun a b _ => b = a

/-- What is seen of the next token on the two sides. -/
inductive Sees (kinds : List TokenKind) : TokenKind → TokenKind → Prop where
  | inner {k : TokenKind} {rest : List TokenKind} : kinds = k :: rest → Sees kinds k k
  | outer {l : TokenKind} : kinds = [] → l = .eof ∨ l = .keyword .ruleWord → Sees kinds .eof l

variable {ε α β γ δ : Type} {counts : Prop} {after kinds : List TokenKind} {c d : Cursor}

theorem agrees_pure {a : α} {b : β} {R : α → β → List TokenKind → Prop} (h : R a b kinds) :
    Agrees counts after kinds (pure a : StateT Cursor (Except ε) α) (pure b) R := by
  intro c d hcd a' c' ha
  cases ha
  exact ⟨b, d, kinds, rfl, hcd, List.suffix_rfl, h⟩

theorem unaffected_pure (a : α) : Unaffected counts after (pure a : StateT Cursor (Except ε) α) :=
  fun _ => agrees_pure rfl

theorem agrees_of_error {p : StateT Cursor (Except ε) α} {q : StateT Cursor (Except ε) β}
    {R : α → β → List TokenKind → Prop}
    (h : ∀ c d, Twins counts after kinds c d → ∃ e, p c = .error e) :
    Agrees counts after kinds p q R := by
  intro c d hcd a c' ha
  obtain ⟨e, he⟩ := h c d hcd
  cases he.symm.trans ha

namespace Agrees

variable {p : StateT Cursor (Except ε) α} {q : StateT Cursor (Except ε) β}
  {R S : α → β → List TokenKind → Prop}

theorem mono (h : Agrees counts after kinds p q R) (hS : ∀ a b left, R a b left → S a b left) :
    Agrees counts after kinds p q S := by
  intro c d hcd a c' ha
  obtain ⟨b, d', left, hb, htwins, hleft, hR⟩ := h hcd ha
  exact ⟨b, d', left, hb, htwins, hleft, hS a b left hR⟩

/-- The tokens that are left are among those that were there. -/
theorem shrinks (h : Agrees counts after kinds p q R) :
    Agrees counts after kinds p q fun a b left => left.length ≤ kinds.length ∧ R a b left := by
  intro c d hcd a c' ha
  obtain ⟨b, d', left, hb, htwins, hleft, hR⟩ := h hcd ha
  exact ⟨b, d', left, hb, htwins, hleft, hleft.length_le, hR⟩

theorem bind {f : α → StateT Cursor (Except ε) γ} {g : β → StateT Cursor (Except ε) δ}
    {T : γ → δ → List TokenKind → Prop} (h : Agrees counts after kinds p q R)
    (hfg : ∀ a b left, left <:+ kinds → R a b left → Agrees counts after left (f a) (g b) T) :
    Agrees counts after kinds (p >>= f) (q >>= g) T := by
  intro c d hcd x c' hx
  obtain ⟨⟨a, c₁⟩, ha, hf⟩ := Expr.bind_eq_ok (x := p c) (f := fun x => f x.1 x.2) hx
  obtain ⟨b, d₁, left, hb, htwins, hleft, hR⟩ := h hcd ha
  obtain ⟨y, d', left', hg, htwins', hleft', hT⟩ := hfg a b left hleft hR htwins hf
  refine ⟨y, d', left', ?_, htwins', hleft'.trans hleft, hT⟩
  show (q d >>= fun x => g x.1 x.2) = _
  rw [hb]
  exact hg

end Agrees

/-- A step that is taken in the same way on both sides, and what follows it. -/
theorem Unaffected.bind {p : StateT Cursor (Except ε) α} {f : α → StateT Cursor (Except ε) γ}
    {g : α → StateT Cursor (Except ε) δ} {T : γ → δ → List TokenKind → Prop}
    (h : Unaffected counts after p)
    (hfg : ∀ a left, left <:+ kinds → Agrees counts after left (f a) (g a) T) :
    Agrees counts after kinds (p >>= f) (p >>= g) T :=
  (h kinds).bind fun a b left hleft hab => by
    subst hab
    exact hfg b left hleft

theorem Unaffected.andThen {p : StateT Cursor (Except ε) α} {f : α → StateT Cursor (Except ε) γ}
    (h : Unaffected counts after p) (hf : ∀ a, Unaffected counts after (f a)) :
    Unaffected counts after (p >>= f) :=
  fun _ => h.bind fun a left _ => hf a left

/-! ## Single tokens -/

namespace Twins

theorem sees (hafter : FollowsRule after) (h : Twins counts after kinds c d) :
    Sees kinds c.peek.kind d.peek.kind := by
  cases kinds with
  | nil =>
      obtain ⟨l, rest, rfl, hl⟩ := hafter
      rw [Cursor.kind_peek h.left, Cursor.kind_peek h.right]
      exact .outer rfl hl
  | cons k rest =>
      rw [Cursor.kind_peek h.left, Cursor.kind_peek h.right]
      exact .inner rfl

/-- A token that both lists share is taken from both. -/
theorem advance {k : TokenKind} {rest : List TokenKind} (h : Twins counts after (k :: rest) c d) :
    Twins counts after rest c.advance d.advance := by
  have hk : k ≠ .eof := fun heq => h.inner (heq ▸ List.mem_cons_self ..)
  refine ⟨Cursor.kinds_advance h.left hk, Cursor.kinds_advance h.right hk, ?_,
    fun hmem => h.inner (List.mem_cons_of_mem _ hmem)⟩
  rw [Cursor.nodes_advance, Cursor.nodes_advance]
  exact h.nodes

theorem withNodes {counts' : Prop} (h : Twins counts' after kinds c d) {n m : Nat}
    (hnodes : counts → m = n) :
    Twins counts after kinds { c with nodes := n } { d with nodes := m } :=
  ⟨h.left, h.right, hnodes, h.inner⟩

end Twins

/-- A kind that is seen on one side is seen on the other, unless it is one of those with which the
two lists go on. -/
theorem Sees.iff {k l m : TokenKind} (h : Sees kinds k l) (heof : m ≠ .eof)
    (hrule : m ≠ .keyword .ruleWord) : k = m ↔ l = m := by
  cases h with
  | inner => rfl
  | outer _ hl =>
      rcases hl with rfl | rfl
      · rfl
      · exact iff_of_false heof.symm hrule.symm

theorem Sees.exists_cons {k l : TokenKind} (h : Sees kinds k l) (hk : k ≠ .eof) :
    l = k ∧ ∃ rest, kinds = k :: rest := by
  cases h with
  | inner heq => exact ⟨rfl, _, heq⟩
  | outer => exact absurd rfl hk

namespace Parser

variable (hafter : FollowsRule after)

theorem agrees_failAt {t : Token} {problem : SyntaxProblem} {q : Parser β}
    {R : α → β → List TokenKind → Prop} : Agrees counts after kinds (failAt t problem) q R :=
  agrees_of_error fun _ _ _ => ⟨_, rfl⟩

include hafter

theorem agrees_peek :
    Agrees counts after kinds peek peek fun t u left =>
      left = kinds ∧ Sees kinds t.kind u.kind := by
  intro c d hcd a c' ha
  cases ha
  exact ⟨d.peek, d, kinds, rfl, hcd, List.suffix_rfl, rfl, hcd.sees hafter⟩

theorem agrees_peekSecond :
    Agrees counts after kinds peekSecond peekSecond fun a b left =>
      left = kinds ∧ ∀ k rest, kinds = k :: rest → Sees rest a b := by
  intro c d hcd a c' ha
  cases ha
  refine ⟨d.peekSecond, d, kinds, rfl, hcd, List.suffix_rfl, rfl, ?_⟩
  rintro k rest rfl
  cases rest with
  | nil =>
      obtain ⟨l, rest, rfl, hl⟩ := hafter
      rw [Cursor.kind_peekSecond hcd.left, Cursor.kind_peekSecond hcd.right]
      exact .outer rfl hl
  | cons l rest =>
      rw [Cursor.kind_peekSecond hcd.left, Cursor.kind_peekSecond hcd.right]
      exact .inner rfl

omit hafter in
theorem agrees_advance {k : TokenKind} {rest : List TokenKind} :
    Agrees counts after (k :: rest) advance advance fun t u left =>
      left = rest ∧ t.kind = k ∧ u.kind = k := by
  intro c d hcd a c' ha
  cases ha
  exact ⟨d.peek, d.advance, rest, rfl, hcd.advance, List.suffix_cons _ _, rfl,
    Cursor.kind_peek hcd.left, Cursor.kind_peek hcd.right⟩

theorem agrees_at? (s : Symbol) :
    Agrees counts after kinds (at? s) (at? s) fun a b left => b = a ∧ left = kinds := by
  intro c d hcd a c' ha
  cases ha
  refine ⟨_, d, kinds, rfl, hcd, List.suffix_rfl, ?_, rfl⟩
  have hiff := (hcd.sees hafter).iff (m := .symbol s) (by simp) (by simp)
  rw [Bool.eq_iff_iff, beq_iff_eq, beq_iff_eq, hiff]

theorem agrees_eatKind {m : TokenKind} (heof : m ≠ .eof) (hrule : m ≠ .keyword .ruleWord) :
    Agrees counts after kinds (eatKind m) (eatKind m) fun a b left =>
      b = a ∧ (a = true → left.length < kinds.length) := by
  intro c d hcd a c' ha
  have hsees := hcd.sees hafter
  unfold eatKind at ha ⊢
  split at ha
  · next hk =>
    obtain ⟨hl, rest, rfl⟩ := hsees.exists_cons (hk ▸ heof)
    cases ha
    rw [if_pos (hl.trans hk)]
    exact ⟨true, _, rest, rfl, hcd.advance, List.suffix_cons _ _, rfl, fun _ => Nat.lt_succ_self _⟩
  · next hk =>
    cases ha
    rw [if_neg fun hl => hk ((hsees.iff heof hrule).2 hl)]
    exact ⟨false, d, kinds, rfl, hcd, List.suffix_rfl, rfl, by simp⟩

theorem agrees_expectKind {m : TokenKind} (heof : m ≠ .eof) :
    Agrees counts after kinds (expectKind m) (expectKind m) fun _ _ left =>
      left.length < kinds.length := by
  intro c d hcd a c' ha
  have hsees := hcd.sees hafter
  unfold expectKind at ha ⊢
  split at ha
  · next hk =>
    obtain ⟨hl, rest, rfl⟩ := hsees.exists_cons (hk ▸ heof)
    cases ha
    rw [if_pos (hl.trans hk)]
    exact ⟨(), _, rest, rfl, hcd.advance, List.suffix_cons _ _, Nat.lt_succ_self _⟩
  · cases ha

theorem unaffected_name (what : String) : Unaffected counts after (name what) := by
  intro kinds c d hcd a c' ha
  have hsees := hcd.sees hafter
  unfold name at ha ⊢
  split at ha
  · next n hk =>
    obtain ⟨hl, rest, rfl⟩ := hsees.exists_cons (by rw [hk]; simp)
    rw [hl, hk]
    cases ha
    exact ⟨_, _, rest, rfl, hcd.advance, List.suffix_cons _ _, rfl⟩
  · cases ha

/-- More steps than tokens are left to both. -/
theorem agrees_remaining :
    Agrees counts after kinds remaining remaining fun n m left =>
      left = kinds ∧ kinds.length < n ∧ kinds.length < m := by
  intro c d hcd a c' ha
  cases ha
  refine ⟨_, d, kinds, rfl, hcd, List.suffix_rfl, rfl, ?_, ?_⟩
  · have := congrArg List.length hcd.left
    simp at this
    omega
  · obtain ⟨l, rest, rfl, -⟩ := hafter
    have := congrArg List.length hcd.right
    simp at this
    omega

theorem unaffected_eatKind {m : TokenKind} (heof : m ≠ .eof) (hrule : m ≠ .keyword .ruleWord) :
    Unaffected counts after (eatKind m) := fun _ =>
  (agrees_eatKind hafter heof hrule).mono fun _ _ _ h => h.1

theorem unaffected_eat (t : Symbol) : Unaffected counts after (eat t) :=
  unaffected_eatKind hafter (by simp) (by simp)

theorem unaffected_expect (t : Symbol) : Unaffected counts after (expect t) := fun _ =>
  (agrees_expectKind hafter (by simp)).mono fun _ _ _ _ => rfl

omit hafter in
theorem unaffected_node : Unaffected True after node := by
  intro kinds c d hcd a c' ha
  unfold node at ha ⊢
  rw [hcd.nodes trivial]
  split at ha
  · cases ha
  · next hroom =>
    cases ha
    rw [if_neg hroom]
    exact ⟨(), _, kinds, rfl, hcd.withNodes fun _ => rfl, List.suffix_rfl, rfl⟩

omit hafter in
/-- Nodes are counted from zero. -/
theorem unaffected_bounded {p : Parser α} (h : Unaffected True after p) :
    Unaffected counts after (bounded p) := by
  intro kinds c d hcd a c' ha
  unfold bounded at ha ⊢
  cases hp : p { c with nodes := 0 } with
  | error e => simp [hp] at ha
  | ok r =>
      obtain ⟨b, d', left, hb, htwins, hleft, rfl⟩ := h kinds (hcd.withNodes fun _ => rfl) hp
      simp only [hp, Except.ok.injEq, Prod.mk.injEq] at ha
      obtain ⟨rfl, rfl⟩ := ha
      rw [hb]
      exact ⟨_, _, left, rfl, htwins.withNodes hcd.nodes, hleft, rfl⟩

/-! ## Lists -/

/-- The budgets may differ, since both are larger than the number of tokens. -/
theorem agrees_commaSeparated {item : Parser α} (h : Unaffected counts after item) {n m : Nat}
    (hn : kinds.length < n) (hm : kinds.length < m) :
    Agrees counts after kinds (commaSeparated item n) (commaSeparated item m)
      fun a b _ => b = a := by
  induction n generalizing m kinds with
  | zero => exact absurd hn (Nat.not_lt_zero _)
  | succ n ih =>
      obtain ⟨m, rfl⟩ := Nat.exists_eq_succ_of_ne_zero (Nat.ne_of_gt (Nat.zero_lt_of_lt hm))
      refine h.bind fun x left hleft => ?_
      refine (agrees_eatKind hafter (by simp) (by simp)).bind fun _ more left' _ hmore => ?_
      obtain ⟨rfl, hless⟩ := hmore
      cases more with
      | false => exact agrees_pure rfl
      | true =>
          have hlength := Nat.lt_of_lt_of_le (hless rfl) hleft.length_le
          refine (ih (by omega) (by omega)).bind fun xs _ _ _ hxs => ?_
          subst hxs
          exact agrees_pure rfl

theorem unaffected_listUntil {item : Parser α} (h : Unaffected counts after item) (close : Symbol) :
    Unaffected counts after (listUntil close item) := by
  intro kinds
  refine (agrees_at? hafter close).bind fun _ closes _ _ hcloses => ?_
  obtain ⟨rfl, rfl⟩ := hcloses
  cases closes with
  | true => exact agrees_pure rfl
  | false =>
      refine (agrees_remaining hafter).bind fun n m _ _ hbudgets => ?_
      obtain ⟨rfl, hn, hm⟩ := hbudgets
      exact agrees_commaSeparated hafter h hn hm

/-! ## Expressions -/

variable {operand : Parser Expr} (h : Unaffected True after operand)

omit hafter in
/-- What a token stands for between operands does not depend on the side. -/
theorem ofKind?_of_sees {k l : TokenKind} (hsees : Sees kinds k l) :
    BinaryOp.ofKind? l = BinaryOp.ofKind? k ∧ UnaryOp.ofKind? l = UnaryOp.ofKind? k := by
  cases hsees with
  | inner => exact ⟨rfl, rfl⟩
  | outer _ hl => rcases hl with rfl | rfl <;> exact ⟨rfl, rfl⟩

include h

theorem unaffected_climb (budget least : Nat) (left : Expr) :
    Unaffected True after (climb operand budget least left) := by
  induction budget generalizing least left with
  | zero => exact unaffected_pure left
  | succ budget ih =>
      intro kinds
      refine (agrees_peek hafter).bind fun t u _ _ hpeek => ?_
      obtain ⟨rfl, hsees⟩ := hpeek
      rw [(ofKind?_of_sees hsees).1]
      cases hop : BinaryOp.ofKind? t.kind with
      | none => exact agrees_pure rfl
      | some op =>
          dsimp only
          split
          · exact agrees_pure rfl
          · obtain ⟨-, rest, rfl⟩ :=
              hsees.exists_cons fun heq => by simp [heq, BinaryOp.ofKind?] at hop
            refine agrees_advance.bind fun _ _ _ _ _ => h.bind fun first _ _ => ?_
            refine (ih _ first).bind fun right _ _ => unaffected_node.bind fun _ left' _ => ?_
            exact ih least _ left'

theorem unaffected_expression : Unaffected True after (expression operand) :=
  h.andThen fun first => unaffected_climb hafter h operationBudget 1 first

theorem unaffected_constant (what : String) : Unaffected counts after (constant operand what) := by
  intro kinds
  refine (agrees_peek hafter).bind fun t u _ _ _ => ?_
  refine (unaffected_bounded (unaffected_expression hafter h)).bind fun e _ _ => ?_
  cases e.simplify with
  | error cause => exact agrees_failAt
  | ok e =>
      cases e with
      | literal v => exact agrees_pure rfl
      | _ => exact agrees_failAt

theorem unaffected_brackets (budget : Nat) (e : Expr) :
    Unaffected True after (brackets operand budget e) := by
  induction budget generalizing e with
  | zero => exact unaffected_pure e
  | succ budget ih =>
      have hexpression := unaffected_expression hafter h
      refine (unaffected_eat hafter .bracketOpen).andThen fun opens => ?_
      cases opens with
      | false => exact unaffected_pure e
      | true =>
          refine hexpression.andThen fun start => ?_
          refine (unaffected_eat hafter .colon).andThen fun ranges => ?_
          cases ranges with
          | false =>
              exact (unaffected_expect hafter .bracketClose).andThen fun _ =>
                unaffected_node.andThen fun _ => ih _
          | true =>
              exact hexpression.andThen fun stop =>
                (unaffected_expect hafter .bracketClose).andThen fun _ =>
                  unaffected_node.andThen fun _ => ih _

theorem unaffected_byteElement : Unaffected True after (byteElement operand) := by
  intro kinds
  refine (agrees_peek hafter).bind fun t u _ _ _ => ?_
  refine (unaffected_constant hafter h "byte array element").bind fun v _ _ => ?_
  cases v with
  | number n =>
      dsimp only
      split
      · exact agrees_pure rfl
      · exact agrees_failAt
  | _ => exact agrees_failAt

theorem unaffected_byteArray : Unaffected True after (byteArray operand) :=
  (unaffected_listUntil hafter (unaffected_byteElement hafter h) .braceClose).andThen fun _ =>
    (unaffected_expect hafter .braceClose).andThen fun _ => unaffected_pure _

theorem unaffected_callItem : Unaffected True after (callItem operand) := by
  intro kinds
  have hconstant : Unaffected True after (constant operand "metadata value") :=
    unaffected_constant hafter h _
  refine (agrees_peek hafter).bind fun t u _ _ hpeek => ?_
  obtain ⟨rfl, hsees⟩ := hpeek
  refine (agrees_peekSecond hafter).bind fun a b _ _ hpeek => ?_
  obtain ⟨rfl, hsecond⟩ := hpeek
  split
  · next key ht =>
    obtain ⟨hu, rest, rfl⟩ := hsees.exists_cons (by simp [ht])
    obtain ⟨hb, rest, rfl⟩ := (hsecond _ _ rfl).exists_cons (by simp)
    rw [hu, ht, hb]
    refine agrees_advance.bind fun _ _ _ _ hleft => ?_
    obtain ⟨rfl, -⟩ := hleft
    refine agrees_advance.bind fun _ _ _ _ _ => ?_
    exact hconstant.bind fun v _ _ => agrees_pure rfl
  · next ht =>
    split
    -- an entry on the second side only: what makes it one would stand behind the end of the first
    · next key hu =>
      have ht' : t.kind = .ident key := (hsees.iff (by simp) (by simp)).2 hu
      obtain ⟨-, rest, hkinds⟩ := hsees.exists_cons (by simp [ht'])
      exact absurd (((hsecond _ _ hkinds).iff (by simp) (by simp)).2 rfl) (ht key ht')
    · exact (unaffected_expression hafter h).bind fun e _ _ => agrees_pure rfl

variable {signatures : String → Option Signature}

theorem unaffected_callTail (name : String) {t u : Token} :
    Agrees True after kinds (callTail signatures operand name t)
      (callTail signatures operand name u) fun a b _ => b = a := by
  refine (unaffected_expect hafter .parenOpen).bind fun _ _ _ => ?_
  refine (unaffected_listUntil hafter (unaffected_callItem hafter h) .parenClose).bind
    fun items _ _ => ?_
  refine (unaffected_expect hafter .parenClose).bind fun _ _ _ => ?_
  dsimp only
  split
  · exact agrees_pure rfl
  · exact agrees_failAt

/-- Where the list ends there is no operand. -/
theorem unaffected_primary : Unaffected True after (primary signatures operand) := by
  intro kinds
  refine unaffected_node.bind fun _ kinds _ => ?_
  cases kinds with
  -- the first source ends here, so whatever the second one goes on with, there is nothing to show
  | nil =>
      refine agrees_of_error fun c d hcd => ⟨errorAt c.peek (.expected "an expression"), ?_⟩
      have hend : c.peek.kind = .eof := Cursor.kind_peek hcd.left
      simp only [bind, StateT.bind, advance, Except.bind, hend]
      rfl
  | cons k rest =>
      refine agrees_advance.bind fun t u _ _ htaken => ?_
      obtain ⟨rfl, ht, hu⟩ := htaken
      rw [ht, hu]
      cases k with
      | number n => exact agrees_pure rfl
      | string bytes => exact agrees_pure rfl
      | char b => exact agrees_pure rfl
      | special name => exact agrees_pure rfl
      | ident name =>
          refine (agrees_at? hafter .parenOpen).bind fun _ opens _ _ hopens => ?_
          obtain ⟨rfl, rfl⟩ := hopens
          cases opens with
          | true => exact unaffected_callTail hafter h name
          | false => exact agrees_pure rfl
      | keyword k =>
          cases k with
          | trueWord => exact agrees_pure rfl
          | falseWord => exact agrees_pure rfl
          | _ => exact agrees_failAt
      | symbol s =>
          cases s with
          | parenOpen =>
              exact (unaffected_expression hafter h).bind fun e _ _ =>
                (unaffected_expect hafter .parenClose).bind fun _ _ _ => agrees_pure rfl
          | braceOpen => exact unaffected_byteArray hafter h _
          | _ => exact agrees_failAt
      | eof => exact agrees_failAt

theorem unaffected_operandAround : Unaffected True after (operandAround signatures operand) := by
  intro kinds
  refine (agrees_peek hafter).bind fun t u _ _ hpeek => ?_
  obtain ⟨rfl, hsees⟩ := hpeek
  rw [(ofKind?_of_sees hsees).2]
  cases hop : UnaryOp.ofKind? t.kind with
  | some op =>
      obtain ⟨-, rest, rfl⟩ := hsees.exists_cons fun heq => by simp [heq, UnaryOp.ofKind?] at hop
      exact agrees_advance.bind fun _ _ _ _ _ => h.bind fun e _ _ =>
        unaffected_node.bind fun _ _ _ => agrees_pure rfl
  | none =>
      exact (unaffected_primary hafter h).bind fun e left _ =>
        unaffected_brackets hafter h operationBudget e left

omit h in
/-- The induction is on the room: an operand is read with the parser for operands one level
further in. -/
theorem unaffected_unary (room : Nat) : Unaffected True after (unary signatures room) := by
  induction room with
  | zero => exact fun _ => agrees_of_error fun _ _ _ => ⟨_, rfl⟩
  | succ room ih => exact unaffected_operandAround hafter ih

omit h in
theorem unaffected_boundedExpression : Unaffected counts after (boundedExpression signatures) :=
  unaffected_bounded (unaffected_expression hafter (unaffected_unary hafter nestingLimit))

end Parser

/-! ## Rules -/

namespace RuleParser

variable {source source' : String} {signatures : String → Option Signature}

/-- The second rule is the first one under the name of another source. -/
def Renames (source : String) (r q : Rule) (_ : List TokenKind) : Prop := q = r.withSource source

theorem agrees_lift {setting setting' : Setting} {p : Parser α} {q : Parser β}
    {R : α → β → List TokenKind → Prop} (h : Agrees counts after kinds p q R) :
    Agrees counts after kinds (lift setting p) (lift setting' q) R := by
  intro c d hcd a c' ha
  unfold lift at ha ⊢
  cases hp : p c with
  | error e => simp [hp] at ha
  | ok x =>
      obtain ⟨b, d', left, hb, hrest⟩ := h hcd hp
      simp only [hp, Except.ok.injEq] at ha
      subst ha
      rw [hb]
      exact ⟨b, d', left, rfl, hrest⟩

/-- A step of the expression parser that is taken in the same way on both sides. -/
theorem bind_lift {setting setting' : Setting} {p : Parser α}
    {f : α → RuleParser γ} {g : α → RuleParser δ} {T : γ → δ → List TokenKind → Prop}
    (h : Unaffected counts after p)
    (hfg : ∀ a left, left <:+ kinds → Agrees counts after left (f a) (g a) T) :
    Agrees counts after kinds (lift setting p >>= f) (lift setting' p >>= g) T :=
  (agrees_lift (h kinds)).bind fun a b left hleft hab => by
    subst hab
    exact hfg b left hleft

theorem agrees_liftRule (x : Except Error Rule) :
    Agrees counts after kinds (liftRule x) (liftRule (x.map (·.withSource source')))
      (Renames source') := by
  intro c d hcd r c' hr
  unfold liftRule at hr ⊢
  cases x with
  | error e => cases hr
  | ok r =>
      cases hr
      exact ⟨_, d, kinds, rfl, hcd, List.suffix_rfl, rfl⟩

theorem agrees_folded (e : Expr) (t u : Token) :
    Agrees counts after kinds (folded ⟨source, signatures⟩ e t) (folded ⟨source', signatures⟩ e u)
      fun a b _ => b = a := by
  unfold folded
  cases e.simplify with
  | error cause => exact agrees_lift Parser.agrees_failAt
  | ok e => exact agrees_pure rfl

variable (hafter : FollowsRule after)
include hafter

theorem agrees_failureMode :
    Agrees counts after kinds (failureMode ⟨source, signatures⟩) (failureMode ⟨source', signatures⟩)
      fun a b _ => b = a := by
  refine bind_lift (Parser.unaffected_eatKind hafter (by simp) (by simp)) fun ignores _ _ => ?_
  cases ignores with
  | true => exact agrees_pure rfl
  | false =>
      refine bind_lift (Parser.unaffected_eatKind hafter (by simp) (by simp)) fun stops _ _ => ?_
      cases stops with
      | true => exact agrees_pure rfl
      | false => exact agrees_pure rfl

omit hafter in
/-- Folds an expression and puts it into a rule. -/
theorem agrees_put (e : Expr) (t u : Token) {put put' : Expr → Except Error Rule}
    (hput : ∀ e, put' e = (put e).map (·.withSource source')) :
    Agrees counts after kinds
      (do
        let e ← folded ⟨source, signatures⟩ e t
        liftRule (put e))
      (do
        let e ← folded ⟨source', signatures⟩ e u
        liftRule (put' e))
      (Renames source') := by
  refine (agrees_folded e t u).bind fun _ e' _ _ he => ?_
  subst he
  rw [hput]
  exact agrees_liftRule _

theorem agrees_varDeclaration (r : Rule) :
    Agrees counts after kinds (varDeclaration ⟨source, signatures⟩ r)
      (varDeclaration ⟨source', signatures⟩ (r.withSource source')) (Renames source') :=
  bind_lift (Parser.unaffected_name hafter _) fun name _ _ =>
    bind_lift (Parser.unaffected_expect hafter _) fun _ _ _ =>
      (agrees_lift (Parser.agrees_peek hafter)).bind fun t u _ _ _ =>
        bind_lift (Parser.unaffected_boundedExpression hafter) fun e _ _ =>
          agrees_put e t u fun e => r.declare_withSource source' name e

theorem agrees_condition (r : Rule) :
    Agrees counts after kinds (condition ⟨source, signatures⟩ r)
      (condition ⟨source', signatures⟩ (r.withSource source')) (Renames source') :=
  (agrees_lift (Parser.agrees_peek hafter)).bind fun t u _ _ _ =>
    bind_lift (Parser.unaffected_boundedExpression hafter) fun e _ _ =>
      agrees_put e t u fun e => r.addCondition_withSource source' e

theorem agrees_action (r : Rule) :
    Agrees counts after kinds (action ⟨source, signatures⟩ r)
      (action ⟨source', signatures⟩ (r.withSource source')) (Renames source') := by
  refine (agrees_failureMode hafter).bind fun _ mode _ _ hmode => ?_
  subst hmode
  refine (agrees_lift (Parser.agrees_peek hafter)).bind fun t u _ _ _ => ?_
  refine bind_lift (Parser.unaffected_boundedExpression hafter) fun e _ _ => ?_
  split
  · exact agrees_put e t u fun e => r.addAction_withSource source' e mode
  · exact agrees_lift Parser.agrees_failAt

/-- A statement ends with a semicolon, so it takes a token. -/
theorem agrees_statement (r : Rule) :
    Agrees counts after kinds (statement ⟨source, signatures⟩ r)
      (statement ⟨source', signatures⟩ (r.withSource source')) fun r q left =>
        q = r.withSource source' ∧ left.length < kinds.length := by
  have hend : ∀ (left : List TokenKind) (r q : Rule), left <:+ kinds → q = r.withSource source' →
      Agrees counts after left
        (do lift ⟨source, signatures⟩ (Parser.expect .semicolon); pure r)
        (do lift ⟨source', signatures⟩ (Parser.expect .semicolon); pure q)
        fun r q left => q = r.withSource source' ∧ left.length < kinds.length := by
    intro left r q hleft hq
    refine (agrees_lift (Parser.agrees_expectKind hafter (by simp))).bind fun _ _ _ _ hless => ?_
    exact agrees_pure ⟨hq, Nat.lt_of_lt_of_le hless hleft.length_le⟩
  refine (agrees_lift (Parser.agrees_peek hafter)).bind fun t u _ _ hpeek => ?_
  obtain ⟨rfl, hsees⟩ := hpeek
  dsimp only
  by_cases heof : t.kind = .eof
  · rw [heof]
    exact agrees_of_error fun _ _ _ => ⟨_, rfl⟩
  · obtain ⟨hu, rest, rfl⟩ := hsees.exists_cons heof
    rw [hu]
    split
    · next heof' => exact absurd heof' heof
    · refine (agrees_lift Parser.agrees_advance).bind fun _ _ _ hleft _ => ?_
      exact (agrees_varDeclaration hafter r).bind fun r q _ hleft' hq =>
        hend _ r q (hleft'.trans hleft) hq
    · refine (agrees_lift Parser.agrees_advance).bind fun _ _ _ hleft _ => ?_
      exact (agrees_condition hafter r).bind fun r q _ hleft' hq =>
        hend _ r q (hleft'.trans hleft) hq
    · exact (agrees_action hafter r).bind fun r q _ hleft hq => hend _ r q hleft hq

/-- The budgets may differ, since both are larger than the number of tokens. -/
theorem agrees_statements (r : Rule) {n m : Nat} (hn : kinds.length < n) (hm : kinds.length < m) :
    Agrees counts after kinds (statements ⟨source, signatures⟩ n r)
      (statements ⟨source', signatures⟩ m (r.withSource source')) (Renames source') := by
  induction n generalizing m kinds r with
  | zero => exact absurd hn (Nat.not_lt_zero _)
  | succ n ih =>
      obtain ⟨m, rfl⟩ := Nat.exists_eq_succ_of_ne_zero (Nat.ne_of_gt (Nat.zero_lt_of_lt hm))
      refine bind_lift (Parser.unaffected_eat hafter _) fun closes left hleft => ?_
      cases closes with
      | true => exact agrees_pure rfl
      | false =>
          refine (agrees_statement hafter r).bind fun r' _ left' _ hr' => ?_
          obtain ⟨rfl, hless⟩ := hr'
          have hlength := Nat.lt_of_lt_of_le hless hleft.length_le
          exact ih r' (by omega) (by omega)

theorem unaffected_metadataEntry :
    Unaffected counts after (metadataEntry ⟨source, signatures⟩) :=
  (Parser.unaffected_name hafter _).andThen fun _ =>
    (Parser.unaffected_expect hafter _).andThen fun _ =>
      (Parser.unaffected_constant hafter (Parser.unaffected_unary hafter _) _).andThen fun _ =>
        unaffected_pure _

theorem unaffected_metadata : Unaffected counts after (metadata ⟨source, signatures⟩) := by
  refine (Parser.unaffected_eat hafter _).andThen fun opens => ?_
  cases opens with
  | false => exact unaffected_pure _
  | true =>
      exact (Parser.unaffected_listUntil hafter (unaffected_metadataEntry hafter) _).andThen
        fun _ => (Parser.unaffected_expect hafter _).andThen fun _ => unaffected_pure _

theorem unaffected_parentName : Unaffected counts after parentName := by
  refine (Parser.unaffected_eat hafter _).andThen fun names => ?_
  cases names with
  | false => exact unaffected_pure _
  | true => exact (Parser.unaffected_name hafter _).andThen fun _ => unaffected_pure _

omit hafter in
theorem agrees_foldlM_setMetadata (r : Rule) (entries : List (String × Value)) :
    Agrees counts after kinds (entries.foldlM (fun r (key, v) => liftRule (r.setMetadata key v)) r)
      (entries.foldlM (fun r (key, v) => liftRule (r.setMetadata key v)) (r.withSource source'))
      (Renames source') := by
  induction entries generalizing r kinds with
  | nil => exact agrees_pure rfl
  | cons entry rest ih =>
      obtain ⟨key, v⟩ := entry
      rw [List.foldlM_cons, List.foldlM_cons]
      dsimp only
      rw [r.setMetadata_withSource]
      refine (agrees_liftRule _).bind fun r' _ _ _ hr' => ?_
      subst hr'
      exact ih r'

/-- A rule is read in the same way whether its source ends behind it or goes on with another
rule. -/
theorem agrees_rule :
    Agrees counts after kinds (rule ⟨source, signatures⟩) (rule ⟨source', signatures⟩)
      fun r q left => q = r.withSource source' ∧ left.length < kinds.length := by
  refine (agrees_lift (Parser.agrees_expectKind hafter (by simp))).bind fun _ _ left _ hless => ?_
  refine Agrees.mono (R := fun r q left' => left'.length ≤ left.length ∧
    Renames source' r q left') (Agrees.shrinks ?_) fun _ _ _ h =>
      ⟨h.2, Nat.lt_of_le_of_lt h.1 hless⟩
  refine bind_lift (Parser.unaffected_name hafter _) fun id _ _ => ?_
  refine bind_lift (unaffected_metadata hafter) fun entries _ _ => ?_
  refine (agrees_foldlM_setMetadata (Rule.new id source) entries).bind fun r _ _ _ hr => ?_
  subst hr
  refine bind_lift (unaffected_parentName hafter) fun parent _ _ => ?_
  have hend : ∀ (left : List TokenKind) (r q : Rule), q = r.withSource source' →
      Agrees counts after left
        (do
          lift ⟨source, signatures⟩ (Parser.expect .braceOpen)
          statements ⟨source, signatures⟩
            ((← lift ⟨source, signatures⟩ Parser.remaining) + 1) r)
        (do
          lift ⟨source', signatures⟩ (Parser.expect .braceOpen)
          statements ⟨source', signatures⟩
            ((← lift ⟨source', signatures⟩ Parser.remaining) + 1) q)
        (Renames source') := by
    rintro left r q rfl
    refine bind_lift (Parser.unaffected_expect hafter _) fun _ _ _ => ?_
    refine (agrees_lift (Parser.agrees_remaining hafter)).bind fun n m _ _ hbudgets => ?_
    obtain ⟨rfl, hn, hm⟩ := hbudgets
    exact agrees_statements hafter r (Nat.lt_succ_of_lt hn) (Nat.lt_succ_of_lt hm)
  cases parent with
  | none => exact hend _ r _ rfl
  | some name =>
      dsimp only
      rw [r.setParentName_withSource]
      exact (agrees_liftRule _).bind fun r q left _ hq => hend left r q hq

end RuleParser

end RuleScan
