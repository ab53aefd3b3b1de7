import RuleScan.Proofs.Reading.RoundTrip
import RuleScan.Proofs.Value.Exact

/-!
# Negative constants

A literal has no sign of its own: `-n` is a minus sign before the literal `n`, and the two are
folded when the declaration is read.  The literal is four bytes wide if four bytes can hold it,
and it is unsigned if only the unsigned form can, so `n` is unsigned between half of four bytes
and four bytes.  Negation keeps the width and the sign.  There it wraps, and `-n` becomes
`2 ^ 32 - n`; everywhere else below half a word the result is the number that was written.

## Main results

* `toInt_negated` — the value of a negated literal.
* `parses_negated` — a minus sign and a literal are read as one operand.
* `RuleSet.readSource_of_rule` — a source of a single rule is accepted if the rule can be read.
* `RuleSet.parse_negation` — what a variable declared as `-n` holds.
-/

namespace RuleScan

/-! ## Negated literals -/

namespace Number

/-- What negation makes of a literal. -/
def negated (n : Nat) : Number := (literal n).wrap (-n)

/-- The value of a negated literal, for literals below half a word. -/
def negatedValue (n : Nat) : Int :=
  if 2 ^ 31 ≤ n ∧ n < 2 ^ 32 then 2 ^ 32 - n else -n

variable {n : Nat}

theorem withWord_neg_literal (h : n < 2 ^ 63) :
    (literal n).withWord (-(literal n).word) = negated n := by
  rw [neg_eq_wrap, toInt_literal (by omega), negated]

theorem toInt_negated (hpos : 0 < n) (h : n < 2 ^ 63) : (negated n).toInt = negatedValue n := by
  unfold negated negatedValue
  by_cases hsmall : n < 2 ^ 31
  · rw [if_neg (by omega)]
    apply toInt_wrap_of_fits
    have hshape : literal n = ofWord (BitVec.ofNat 64 n) .w32 true := if_pos hsmall
    rw [hshape]
    simp only [Fits, ofWord_signed, ofWord_width, if_true, Width.bits, Width.bytes]
    omega
  by_cases hunsigned : n < 2 ^ 32
  · rw [if_pos (by omega), toInt_wrap]
    have hshape : literal n = ofWord (BitVec.ofNat 64 n) .w32 false :=
      (if_neg hsmall).trans (if_pos hunsigned)
    rw [hshape]
    simp only [ofWord_signed, ofWord_width, Bool.false_eq_true, if_false, Width.bits, Width.bytes]
    omega
  · rw [if_neg (by omega)]
    apply toInt_wrap_of_fits
    have hshape : literal n = ofWord (BitVec.ofNat 64 n) .w64 true :=
      (if_neg hsmall).trans ((if_neg hunsigned).trans (if_pos h))
    rw [hshape]
    simp only [Fits, ofWord_signed, ofWord_width, if_true, Width.bits, Width.bytes]
    omega

end Number

namespace Expr

/-- A minus sign before a literal. -/
def minus (n : Nat) : Expr := .unary .neg (.number n)

theorem simplify_minus {n : Nat} (h : n < 2 ^ 63) :
    (minus n).simplify = .ok (.literal (.number (.negated n))) := by
  rw [← Number.withWord_neg_literal h]
  rfl

/-- The operand is read to its end without reaching a limit. -/
theorem parses_minus {F : SyntaxError → Prop} {n low : Nat} {ks : List TokenKind}
    (signatures : String → Option Signature) :
    Parses F (Parser.boundedExpression signatures)
      ⟨[.symbol .minus, .number n] ++ .symbol .semicolon :: ks, low⟩
      (· = minus n) ⟨.symbol .semicolon :: ks, low⟩ := by
  rintro ⟨tokens, nodes⟩ ⟨hkinds, hlow, hlimit⟩
  simp only [List.cons_append, List.nil_append, List.map_eq_cons_iff] at hkinds
  obtain ⟨⟨_, p₁, t₁⟩, _, rfl, rfl, ⟨_, p₂, t₂⟩, _, rfl, rfl, ⟨_, p₃, t₃⟩, rest, rfl, rfl, rfl⟩ :=
    hkinds
  have hrun : Parser.boundedExpression signatures
      ⟨⟨.symbol .minus, p₁, t₁⟩ :: ⟨.number n, p₂, t₂⟩ :: ⟨.symbol .semicolon, p₃, t₃⟩ :: rest,
        nodes⟩ =
      .ok (minus n, ⟨⟨.symbol .semicolon, p₃, t₃⟩ :: rest, nodes⟩) := rfl
  rw [hrun]
  exact ⟨rfl, rfl, hlow, hlimit⟩

end Expr

namespace RuleSet

/-! ## Sources of a single rule -/

/-- A source of a single rule is read as the set of that rule, unless the rule is not read. -/
theorem readSource_of_rule {signatures : String → Option Signature} {source text : String}
    {k : TokenKind} {ks : List TokenKind} {R : Rule → Prop} {G : Error → Prop}
    (htext : Lexer.Reads text.toList (k :: ks)) (hk : k ≠ .eof)
    (hrule : Parses G (RuleParser.rule ⟨source, signatures⟩) ⟨k :: ks, 0⟩ R ⟨[.eof], 0⟩) :
    match readSource ∅ signatures source text with
    | (.ok (), s) => ∃ rule i, R rule ∧ (∅ : RuleSet).insert rule = .ok (s, i)
    | (.error e, _) => G e := by
  obtain ⟨tokens, htokens, hkinds⟩ := htext ⟨1, 1⟩
  have hread := hrule ⟨tokens, 0⟩ ⟨hkinds, Nat.le_refl 0, Nat.zero_le _⟩
  obtain ⟨first, rest, rfl, hfirst, -⟩ := List.map_eq_cons_iff.1 hkinds
  have hpeek : ¬ (Cursor.mk (first :: rest) 0).peek.kind = .eof := by
    show ¬ first.kind = .eof
    rwa [hfirst]
  unfold readSource Lexer.tokenize
  rw [htokens]
  dsimp only
  rw [List.length_cons, readRules, if_neg hpeek]
  cases h : RuleParser.rule ⟨source, signatures⟩ ⟨first :: rest, 0⟩ with
  | error e => rwa [h] at hread
  | ok x =>
      rw [h] at hread
      obtain ⟨rule, c⟩ := x
      obtain ⟨hR, hc⟩ := hread
      obtain ⟨s, i, hinsert⟩ : ∃ s i, (∅ : RuleSet).insert rule = .ok (s, i) := ⟨_, _, rfl⟩
      dsimp only
      rw [hinsert]
      dsimp only
      rw [readRules_nil _ _ hc.peek_kind]
      exact ⟨rule, i, hR, hinsert⟩

/-! ## Negative constants in rules -/

/-- The text of a rule that declares a variable as a negative constant. -/
def negation (n : Nat) : String := "rule t \x7b var x = -" ++ toString n ++ "; \x7d"

theorem declaring_minus {n : Nat} (h : n < 2 ^ 63) : declaring (.minus n) = negation n := by
  have hvalue : (Value.number (.literal n)).print = toString n := by
    rw [Value.print, Number.toInt_literal (by omega)]
    rfl
  have hprint : (Expr.minus n).print = "-" ++ toString n := by
    rw [← hvalue]
    rfl
  have hminus : "rule t \x7b var x = -" = "rule t \x7b var x = " ++ "-" := by simp
  unfold declaring negation
  rw [hprint, hminus]
  simp only [String.append_assoc]

/-- Reading a negative constant cannot fail. -/
theorem readSource_negation (signatures : String → Option Signature) (source : String) {n : Nat}
    (h : n < 2 ^ 63) :
    ∃ s i, (∅ : RuleSet).insert
        (declaringRule source (.literal (.number (.negated n)))) = .ok (s, i) ∧
      readSource ∅ signatures source (negation n) = (.ok (), s) := by
  have hprintable : (Expr.minus n).IsPrintable Registry.builtins :=
    .unary .neg (.literal (.number (by omega)))
  have htext := reads_declaring Registry.isBuilt_builtins hprintable
  have hkinds : (Expr.minus n).kinds = [.symbol .minus, .number n] := by
    show [_, (Value.number (.literal n)).token] = _
    rw [Value.token_literal (by omega)]
    rfl
  rw [declaring_minus h, declaringKinds, hkinds] at htext
  have hrule : Parses (fun _ => False) (RuleParser.rule ⟨source, signatures⟩)
      ⟨.keyword .ruleWord :: _, 0⟩ _ ⟨[.eof], 0⟩ :=
    RuleParser.parses_declaringRule (F := fun _ => False) (fun _ hcause => hcause)
      (Expr.parses_minus signatures) (Expr.simplify_minus h)
  have hread := readSource_of_rule htext (by simp) hrule
  split at hread
  · next s heq =>
    obtain ⟨_, i, rfl, hinsert⟩ := hread
    exact ⟨s, i, hinsert, heq⟩
  · exact hread.elim

/-- The variable holds the literal that negation makes of the written one. -/
theorem exists_parse_negation (signatures : String → Option Signature) (source : String) {n : Nat}
    (h : n < 2 ^ 63) :
    ∃ s rule, parse signatures source (negation n) = .ok s ∧ s.get? "t" = some rule ∧
      rule.vars.get? "x" = some (.literal (.number (.negated n))) := by
  obtain ⟨s, i, hinsert, hread⟩ := readSource_negation signatures source h
  obtain ⟨t, rule, hlinked, hget, hvar⟩ :=
    linked_declaringRule (e := .literal (.number (.negated n))) rfl hinsert
  refine ⟨t, rule, ?_, hget, hvar⟩
  rw [← hlinked]
  exact parse_eq hread

/--
**What a negative constant means.**  For every `n` from one up to half a word, a rule that
declares a variable as `-n` is accepted, whatever operators there are, and the variable is
stored as a literal number.  Its value, and so what comparisons compare with, is `-n` unless `n`
needs all of four bytes; then it is the positive number `2 ^ 32 - n`.
-/
theorem parse_negation (signatures : String → Option Signature) (source : String) (n : Nat)
    (hpos : 0 < n) (h : n < 2 ^ 63) :
    ∃ s rule m,
      parse signatures source ("rule t \x7b var x = -" ++ toString n ++ "; \x7d") = .ok s ∧
      s.get? "t" = some rule ∧
      rule.vars.get? "x" = some (.literal (.number m)) ∧
      m.toInt = (if 2 ^ 31 ≤ n ∧ n < 2 ^ 32 then 2 ^ 32 - n else -n : Int) ∧
      ∀ c a, Value.binary (.comparison c) (.number a) (.number m) =
        .ok (.bool (decide (c.relation a.toInt
          (if 2 ^ 31 ≤ n ∧ n < 2 ^ 32 then 2 ^ 32 - n else -n)))) := by
  obtain ⟨s, rule, hparse, hget, hvar⟩ := exists_parse_negation signatures source h
  have hvalue := Number.toInt_negated hpos h
  refine ⟨s, rule, .negated n, hparse, hget, hvar, hvalue, fun c a => ?_⟩
  show _ = Except.ok (Value.bool (decide (c.relation a.toInt (Number.negatedValue n))))
  rw [← hvalue, ← Comparison.holds_compare]
  rfl

theorem parse_negation_one :
    0 < 1 ∧ 1 < 2 ^ 63 ∧ ∃ s rule m,
      parse Registry.builtins.signature? "one"
        ("rule t \x7b var x = -" ++ toString 1 ++ "; \x7d") = .ok s ∧
      s.get? "t" = some rule ∧
      rule.vars.get? "x" = some (.literal (.number m)) ∧
      m.toInt = (if 2 ^ 31 ≤ 1 ∧ 1 < 2 ^ 32 then 2 ^ 32 - 1 else -1 : Int) ∧
      ∀ c a, Value.binary (.comparison c) (.number a) (.number m) =
        .ok (.bool (decide (c.relation a.toInt
          (if 2 ^ 31 ≤ 1 ∧ 1 < 2 ^ 32 then 2 ^ 32 - 1 else -1)))) := by
  refine ⟨by decide, by decide, ?_⟩
  have h := parse_negation Registry.builtins.signature? "one" 1 (by decide) (by decide)
  exact h

/-- The smallest number of four bytes is stored as its opposite. -/
theorem parse_smallest_four_bytes :
    ∃ s rule m,
      parse Registry.builtins.signature? "smallest" "rule t \x7b var x = -2147483648; \x7d" =
        .ok s ∧
      s.get? "t" = some rule ∧
      rule.vars.get? "x" = some (.literal (.number m)) ∧
      m.toInt = 2147483648 := by
  have htext : negation 2147483648 = "rule t \x7b var x = -2147483648; \x7d" := by
    decide +kernel
  obtain ⟨s, rule, hparse, hget, hvar⟩ :=
    exists_parse_negation Registry.builtins.signature? "smallest" (n := 2147483648) (by decide)
  rw [htext] at hparse
  exact ⟨s, rule, _, hparse, hget, hvar, by decide⟩

end RuleSet

end RuleScan
