import RuleScan.Error

/-!
# Reading a token list

A parser looks at the next token and takes it or refuses it. Its state is the list of
tokens still to come, which the end of input never leaves, and the number of nodes
built so far for the expression being read.

## Main results

* `length_advance_le` — taking a token never makes the list longer.
* `kind_peek`, `kinds_advance` — the next token, and those behind it.
* `eat_length` — a token that was eaten is gone.
-/

namespace RuleScan

/-- The tokens to come, and the nodes built for the current expression. -/
structure Cursor where
  tokens : List Token
  nodes : Nat

/-- A step of reading tokens. -/
abbrev Parser (α : Type) := StateT Cursor (Except SyntaxError) α

namespace Cursor

/-- The next token. -/
def peek (c : Cursor) : Token := c.tokens.headD default

/-- The kind of the token after the next one; nothing comes after the last. -/
def peekSecond (c : Cursor) : TokenKind := (c.tokens[1]?.getD c.peek).kind

/-- Takes the next token, unless it is the end of input. -/
def advance (c : Cursor) : Cursor :=
  if c.peek.kind = .eof then c else { c with tokens := c.tokens.tail }

@[simp] theorem nodes_advance (c : Cursor) : c.advance.nodes = c.nodes := by
  unfold advance
  split <;> rfl

theorem length_advance_le (c : Cursor) : c.advance.tokens.length ≤ c.tokens.length := by
  unfold advance
  split <;> simp

theorem length_advance_lt {c : Cursor} (h : c.peek.kind ≠ .eof) :
    c.advance.tokens.length < c.tokens.length := by
  unfold advance
  cases ht : c.tokens with
  | nil => simp [peek, ht, default] at h
  | cons t rest => simp [h]

variable {c : Cursor} {k : TokenKind} {ks : List TokenKind}

theorem kind_peek (h : c.tokens.map Token.kind = k :: ks) : c.peek.kind = k := by
  obtain ⟨t, rest, htokens, hkind, -⟩ := List.map_eq_cons_iff.1 h
  rw [peek, htokens]
  exact hkind

theorem kind_peekSecond {l : TokenKind} (h : c.tokens.map Token.kind = k :: l :: ks) :
    c.peekSecond = l := by
  obtain ⟨t, rest, htokens, -, hrest⟩ := List.map_eq_cons_iff.1 h
  obtain ⟨u, rest', rfl, hkind, -⟩ := List.map_eq_cons_iff.1 hrest
  rw [peekSecond, htokens]
  exact hkind

theorem kinds_advance (h : c.tokens.map Token.kind = k :: ks) (hk : k ≠ .eof) :
    c.advance.tokens.map Token.kind = ks := by
  rw [advance, if_neg (by rwa [kind_peek h]), List.map_tail, h]
  rfl

end Cursor

namespace Parser

/-- The error for a problem at a token. -/
def errorAt (t : Token) (problem : SyntaxProblem) : SyntaxError :=
  ⟨t.position, if t.kind = .eof then "<eof>" else String.ofList t.text, problem⟩

/-- Fails at a token. -/
def failAt {α : Type} (t : Token) (problem : SyntaxProblem) : Parser α :=
  fun _ => .error (errorAt t problem)

/-- The next token. -/
def peek : Parser Token := fun c => .ok (c.peek, c)

/-- The kind of the token after the next one. -/
def peekSecond : Parser TokenKind := fun c => .ok (c.peekSecond, c)

/-- The number of tokens to come. -/
def remaining : Parser Nat := fun c => .ok (c.tokens.length, c)

/-- Takes the next token. -/
def advance : Parser Token := fun c => .ok (c.peek, c.advance)

/-- Fails at the next token. -/
def fail {α : Type} (problem : SyntaxProblem) : Parser α :=
  fun c => .error (errorAt c.peek problem)

/-- Whether the next token is a symbol. -/
def at? (s : Symbol) : Parser Bool := fun c => .ok (c.peek.kind == .symbol s, c)

/-- Takes the next token if it is of a kind, and tells whether it was. -/
def eatKind (kind : TokenKind) : Parser Bool := fun c =>
  if c.peek.kind = kind then .ok (true, c.advance) else .ok (false, c)

/-- Takes the next token if it is a symbol, and tells whether it was. -/
def eat (s : Symbol) : Parser Bool := eatKind (.symbol s)

/-- Takes a token of a kind, or fails. -/
def expectKind (kind : TokenKind) : Parser Unit := fun c =>
  if c.peek.kind = kind then .ok ((), c.advance)
  else .error (errorAt c.peek (.expectedToken kind))

/-- Takes a symbol, or fails. -/
def expect (s : Symbol) : Parser Unit := expectKind (.symbol s)

/-- Takes a name, or fails telling what the name would have been of. -/
def name (what : String) : Parser String := fun c =>
  match c.peek.kind with
  | .ident n => .ok (n, c.advance)
  | _ => .error (errorAt c.peek (.expected what))

/-- Reads items with commas between them; the budget bounds their number. -/
def commaSeparated {α : Type} (item : Parser α) : Nat → Parser (List α)
  | 0 => pure []
  | budget + 1 => do
    let x ← item
    if ← eat .comma then
      let rest ← commaSeparated item budget
      pure (x :: rest)
    else pure [x]

/-- Reads items with commas between them up to a closing symbol, which is left. -/
def listUntil {α : Type} (close : Symbol) (item : Parser α) : Parser (List α) := do
  if ← at? close then pure []
  else commaSeparated item (← remaining)

theorem eat_length {s : Symbol} {c c' : Cursor} {b : Bool} (h : eat s c = .ok (b, c')) :
    if b then c'.tokens.length < c.tokens.length else c' = c := by
  unfold eat eatKind at h
  split at h
  · next hk =>
    simp only [Except.ok.injEq, Prod.mk.injEq] at h
    obtain ⟨rfl, rfl⟩ := h
    exact Cursor.length_advance_lt (by simp [hk])
  · simp only [Except.ok.injEq, Prod.mk.injEq] at h
    obtain ⟨rfl, rfl⟩ := h
    rfl

end Parser

end RuleScan
