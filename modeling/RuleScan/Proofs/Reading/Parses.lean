import RuleScan.Expr.Parser

/-!
# What parsers make of given tokens

`Parses E p s A s'` says what the parser `p` does where the tokens to come are of given kinds:
it yields something that satisfies `A` and moves on to other tokens of given kinds, or it fails
in one of the ways `E`.  A place `s` tells the kinds of the tokens and a number of nodes that
were built at least, so a statement also keeps account of the nodes up to their limit.

The statement composes along a sequence of steps.

## Main results

* `Parses.bind`, `Parses.andThen` — sequences.
* `Parser.parses_node` — a node is counted, or there are too many.
* `Parser.parses_listUntil` — a list is read if each of its items is.
-/

namespace RuleScan

/-- The kinds of the tokens to come, and how many nodes were built at least. -/
structure Place where
  kinds : List TokenKind
  low : Nat

/-- A cursor stands at a place, and has not built too many nodes. -/
structure Place.Holds (s : Place) (c : Cursor) : Prop where
  kinds : c.tokens.map Token.kind = s.kinds
  low : s.low ≤ c.nodes
  limit : c.nodes ≤ Parser.nodeLimit

variable {ε α β : Type} {E : ε → Prop} {A : α → Prop} {B : β → Prop} {s s₁ s' : Place}

/-- From one place the parser moves to another and yields something that satisfies `A`, unless
it fails in one of the ways `E`. -/
def Parses (E : ε → Prop) (p : StateT Cursor (Except ε) α) (s : Place) (A : α → Prop)
    (s' : Place) : Prop :=
  ∀ c, s.Holds c →
    match p c with
    | .ok (a, c') => A a ∧ s'.Holds c'
    | .error e => E e

theorem Parses.pure {a : α} (h : A a) :
    Parses E (Pure.pure a : StateT Cursor (Except ε) α) s A s :=
  fun _ hc => ⟨h, hc⟩

theorem Parses.bind {p : StateT Cursor (Except ε) α} {f : α → StateT Cursor (Except ε) β}
    (hp : Parses E p s A s₁) (hf : ∀ a, A a → Parses E (f a) s₁ B s') :
    Parses E (p >>= f) s B s' := by
  intro c hc
  have hpc := hp c hc
  show match Except.bind (p c) fun x => f x.1 x.2 with
    | .ok (b, c') => B b ∧ s'.Holds c'
    | .error e => E e
  cases h : p c with
  | error e => rwa [h] at hpc
  | ok x =>
      rw [h] at hpc
      exact hf x.1 hpc.1 x.2 hpc.2

/-- A step whose answer is known. -/
theorem Parses.andThen {p : StateT Cursor (Except ε) α} {f : α → StateT Cursor (Except ε) β}
    {a : α} (hp : Parses E p s (· = a) s₁) (hf : Parses E (f a) s₁ B s') :
    Parses E (p >>= f) s B s' :=
  hp.bind fun _ ha => ha ▸ hf

/-- Less may be said of the nodes afterwards. -/
theorem Parses.lower {p : StateT Cursor (Except ε) α} {ks : List TokenKind} {low low' : Nat}
    (hp : Parses E p s A ⟨ks, low'⟩) (hle : low ≤ low') : Parses E p s A ⟨ks, low⟩ := by
  intro c hc
  have hpc := hp c hc
  cases h : p c with
  | error e => rwa [h] at hpc
  | ok x =>
      rw [h] at hpc
      exact ⟨hpc.1, hpc.2.kinds, Nat.le_trans hle hpc.2.low, hpc.2.limit⟩

/-- Nothing is read after too many nodes. -/
theorem Parses.of_low {p : StateT Cursor (Except ε) α}
    (hp : s.low ≤ Parser.nodeLimit → Parses E p s A s') : Parses E p s A s' :=
  fun c hc => hp (Nat.le_trans hc.low hc.limit) c hc

/-! ## Single tokens -/

variable {ks ks' : List TokenKind} {k : TokenKind} {low low' : Nat}

namespace Place.Holds

theorem peek_kind {c : Cursor} (h : Place.Holds ⟨k :: ks, low⟩ c) : c.peek.kind = k :=
  Cursor.kind_peek h.kinds

theorem advance {c : Cursor} (h : Place.Holds ⟨k :: ks, low⟩ c) (hk : k ≠ .eof) :
    Place.Holds ⟨ks, low⟩ c.advance :=
  ⟨Cursor.kinds_advance h.kinds hk, c.nodes_advance.symm ▸ h.low, c.nodes_advance.symm ▸ h.limit⟩

end Place.Holds

namespace Parser

/-- The errors of expressions that are too large or too deep. -/
def IsLimit (e : SyntaxError) : Prop :=
  e.problem = .tooManyNodes nodeLimit ∨ e.problem = .nestedTooDeeply

variable {F : SyntaxError → Prop}

theorem parses_peek : Parses F peek ⟨k :: ks, low⟩ (·.kind = k) ⟨k :: ks, low⟩ :=
  fun _ hc => ⟨hc.peek_kind, hc⟩

/-- Looking at a token that does not matter. -/
theorem parses_peek_any : Parses F peek s (fun _ => True) s :=
  fun _ hc => ⟨trivial, hc⟩

theorem parses_peekSecond {k' : TokenKind} :
    Parses F peekSecond ⟨k :: k' :: ks, low⟩ (· = k') ⟨k :: k' :: ks, low⟩ :=
  fun _ hc => ⟨Cursor.kind_peekSecond hc.kinds, hc⟩

theorem parses_remaining :
    Parses F remaining ⟨ks, low⟩ (· = ks.length) ⟨ks, low⟩ := by
  intro c hc
  refine ⟨?_, hc⟩
  have := congrArg List.length hc.kinds
  rwa [List.length_map] at this

theorem parses_advance (hk : k ≠ .eof) :
    Parses F advance ⟨k :: ks, low⟩ (·.kind = k) ⟨ks, low⟩ :=
  fun _ hc => ⟨hc.peek_kind, hc.advance hk⟩

theorem parses_at? (symbol : Symbol) :
    Parses F (at? symbol) ⟨k :: ks, low⟩ (· = (k == .symbol symbol)) ⟨k :: ks, low⟩ :=
  fun _ hc => ⟨by rw [hc.peek_kind], hc⟩

theorem parses_eatKind (hk : k ≠ .eof) :
    Parses F (eatKind k) ⟨k :: ks, low⟩ (· = true) ⟨ks, low⟩ := by
  intro c hc
  rw [eatKind, if_pos hc.peek_kind]
  exact ⟨rfl, hc.advance hk⟩

theorem parses_eatKind_other {k' : TokenKind} (hk : k ≠ k') :
    Parses F (eatKind k') ⟨k :: ks, low⟩ (· = false) ⟨k :: ks, low⟩ := by
  intro c hc
  rw [eatKind, if_neg (hc.peek_kind ▸ hk)]
  exact ⟨rfl, hc⟩

theorem parses_eat (symbol : Symbol) :
    Parses F (eat symbol) ⟨.symbol symbol :: ks, low⟩ (· = true) ⟨ks, low⟩ :=
  parses_eatKind nofun

theorem parses_eat_other {symbol : Symbol} (hk : k ≠ .symbol symbol) :
    Parses F (eat symbol) ⟨k :: ks, low⟩ (· = false) ⟨k :: ks, low⟩ :=
  parses_eatKind_other hk

theorem parses_expectKind (hk : k ≠ .eof) :
    Parses F (expectKind k) ⟨k :: ks, low⟩ (· = ()) ⟨ks, low⟩ := by
  intro c hc
  rw [expectKind, if_pos hc.peek_kind]
  exact ⟨rfl, hc.advance hk⟩

theorem parses_expect (symbol : Symbol) :
    Parses F (expect symbol) ⟨.symbol symbol :: ks, low⟩ (· = ()) ⟨ks, low⟩ :=
  parses_expectKind nofun

theorem parses_name (what name : String) :
    Parses F (Parser.name what) ⟨.ident name :: ks, low⟩ (· = name) ⟨ks, low⟩ := by
  intro c hc
  unfold Parser.name
  rw [hc.peek_kind]
  exact ⟨rfl, hc.advance nofun⟩

/-! ## Nodes -/

/-- A node is counted, or there are too many. -/
theorem parses_node : Parses IsLimit node ⟨ks, low⟩ (· = ()) ⟨ks, low + 1⟩ := by
  intro c hc
  unfold node
  by_cases h : nodeLimit < c.nodes + 1
  · rw [if_pos h]
    exact Or.inl rfl
  · rw [if_neg h]
    exact ⟨rfl, hc.kinds, Nat.succ_le_succ hc.low, Nat.le_of_not_lt h⟩

/-- What is counted on its own does not count. -/
theorem parses_bounded {p : Parser α} (hp : Parses F p ⟨ks, 0⟩ A ⟨ks', low'⟩) :
    Parses F (bounded p) ⟨ks, low⟩ A ⟨ks', low⟩ := by
  intro c hc
  have hpc := hp { c with nodes := 0 } ⟨hc.kinds, Nat.zero_le _, Nat.zero_le _⟩
  unfold bounded
  cases h : p { c with nodes := 0 } with
  | error e => rwa [h] at hpc
  | ok x =>
      rw [h] at hpc
      exact ⟨hpc.1, hpc.2.kinds, hc.low, hc.limit⟩

/-! ## Lists -/

section Lists

variable {γ : Type} {item : Parser α} {kinds : γ → List TokenKind} {value : γ → α}
  {close : Symbol} {xs : List γ}

/-- Items with commas between them are read one after the other. -/
theorem parses_commaSeparated (hclose : close ≠ .comma)
    (hitem : ∀ x ∈ xs, ∀ next ∈ [Symbol.comma, close], ∀ ks,
      Parses F item ⟨kinds x ++ .symbol next :: ks, low⟩ (· = value x) ⟨.symbol next :: ks, low⟩)
    (hne : xs ≠ []) {budget : Nat} (hbudget : xs.length ≤ budget) :
    Parses F (commaSeparated item budget)
      ⟨[.symbol .comma].intercalate (xs.map kinds) ++ .symbol close :: ks, low⟩
      (· = xs.map value) ⟨.symbol close :: ks, low⟩ := by
  induction xs generalizing budget with
  | nil => exact absurd rfl hne
  | cons x rest ih =>
      obtain ⟨budget, rfl⟩ := Nat.exists_eq_add_of_lt (Nat.lt_of_lt_of_le (Nat.succ_pos _) hbudget)
      have hx := hitem x (List.mem_cons_self ..)
      rw [Nat.zero_add, commaSeparated]
      cases rest with
      | nil =>
          simp only [List.map_cons, List.map_nil, List.intercalate_singleton]
          refine (hx close (by simp) ks).andThen ?_
          refine (parses_eat_other (by simpa using hclose)).andThen ?_
          exact Parses.pure rfl
      | cons next rest =>
          have hrest := ih (fun y hy => hitem y (List.mem_cons_of_mem _ hy)) nofun
            (show (next :: rest).length ≤ budget by simpa using hbudget)
          simp only [List.map_cons, List.intercalate_cons_cons, List.append_assoc,
            List.singleton_append] at hrest ⊢
          refine (hx .comma (by simp) _).andThen ?_
          refine (parses_eat .comma).andThen ?_
          exact hrest.andThen (Parses.pure rfl)

theorem length_le_length_intercalate (hkinds : ∀ x ∈ xs, kinds x ≠ []) :
    xs.length ≤ ([.symbol .comma].intercalate (xs.map kinds)).length := by
  induction xs with
  | nil => exact Nat.le_refl _
  | cons x rest ih =>
      have hx := List.length_pos_iff.2 (hkinds x (List.mem_cons_self ..))
      have hrest := ih fun y hy => hkinds y (List.mem_cons_of_mem _ hy)
      cases rest with
      | nil => simpa [Nat.succ_le_iff] using hx
      | cons next rest =>
          simp only [List.map_cons, List.intercalate_cons_cons, List.length_append,
            List.length_cons, List.length_nil] at hrest ⊢
          omega

/-- A list of items, none of which begins with the closing symbol, is read up to that symbol. -/
theorem parses_listUntil (hclose : close ≠ .comma)
    (hkinds : ∀ x ∈ xs, ∃ k ks, kinds x = k :: ks ∧ k ≠ .symbol close)
    (hitem : ∀ x ∈ xs, ∀ next ∈ [Symbol.comma, close], ∀ ks,
      Parses F item ⟨kinds x ++ .symbol next :: ks, low⟩ (· = value x)
        ⟨.symbol next :: ks, low⟩) :
    Parses F (listUntil close item)
      ⟨[.symbol .comma].intercalate (xs.map kinds) ++ .symbol close :: ks, low⟩
      (· = xs.map value) ⟨.symbol close :: ks, low⟩ := by
  cases xs with
  | nil =>
      refine (parses_at? close).andThen ?_
      rw [beq_self_eq_true]
      exact Parses.pure rfl
  | cons x rest =>
      have hlength := length_le_length_intercalate fun y hy => by
        obtain ⟨k, ks, hy, -⟩ := hkinds y hy
        exact hy ▸ List.cons_ne_nil k ks
      have hbudget : (x :: rest).length ≤ ([.symbol .comma].intercalate ((x :: rest).map kinds) ++
          .symbol close :: ks).length := by
        rw [List.length_append]
        omega
      obtain ⟨k, ks', hx, hk⟩ := hkinds x (List.mem_cons_self ..)
      obtain ⟨tail, htail⟩ : ∃ tail, [.symbol .comma].intercalate ((x :: rest).map kinds) ++
          .symbol close :: ks = k :: tail := by
        cases rest <;> simp [hx]
      have hopen : Parses F (at? close)
          ⟨[.symbol .comma].intercalate ((x :: rest).map kinds) ++ .symbol close :: ks, low⟩
          (· = false)
          ⟨[.symbol .comma].intercalate ((x :: rest).map kinds) ++ .symbol close :: ks, low⟩ := by
        rw [htail, ← beq_eq_false_iff_ne.2 hk]
        exact parses_at? close
      refine hopen.andThen ?_
      exact parses_remaining.andThen (parses_commaSeparated hclose hitem nofun hbudget)

end Lists

end Parser

end RuleScan
