import RuleScan.Value.Basic

/-!
# Signatures

A signature lists the kinds of the fixed parameters of an operator and, for an
operator with trailing arguments, the kind of those. Rules are checked against the
number of arguments while they are read, and calls against the kinds when they run.

## Main results

* `accepts_iff` — which numbers of arguments a signature takes.
-/

namespace RuleScan

/-- The parameters of an operator. -/
structure Signature where
  params : List Kind
  trailing : Option Kind
  deriving DecidableEq, Repr, Inhabited

namespace Signature

/-- A signature with a fixed list of parameters. -/
def fixed (params : List Kind) : Signature := ⟨params, none⟩

/-- A signature that takes any number of further arguments of one kind. -/
def withTrailing (params : List Kind) (kind : Kind) : Signature := ⟨params, some kind⟩

/-- Whether a call may have so many arguments. -/
def accepts (s : Signature) (count : Nat) : Bool :=
  match s.trailing with
  | some _ => s.params.length ≤ count
  | none => count == s.params.length

theorem accepts_iff (s : Signature) (count : Nat) :
    s.accepts count ↔
      s.params.length ≤ count ∧ (s.trailing = none → count = s.params.length) := by
  unfold accepts
  cases s.trailing with
  | none => simp; omega
  | some k => simp

/-- The kind wanted of the argument at a position, counted from zero. -/
def wanted (s : Signature) (position : Nat) : Kind :=
  (s.params[position]?.or s.trailing).getD .any

/-- The first argument of an unwanted kind, with its position counted from one. -/
def misfit? (s : Signature) : Nat → List Value → Option (Nat × Kind × Kind)
  | _, [] => none
  | position, arg :: rest =>
    if (s.wanted position).accepts arg.kind then s.misfit? (position + 1) rest
    else some (position + 1, s.wanted position, arg.kind)

/-- The text of a signature, as in `(string, number...)`. -/
def print (s : Signature) : String :=
  let names := s.params.map Kind.name ++ (s.trailing.map (·.name ++ "...")).toList
  "(" ++ String.intercalate ", " names ++ ")"

end Signature

end RuleScan
