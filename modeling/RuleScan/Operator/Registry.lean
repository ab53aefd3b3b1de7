import RuleScan.Session

/-!
# Operators

An operator is something a rule can call: a signature, and a step that computes a
value from evaluated arguments and the metadata of the call. Operators are registered
by name. Names are identifiers; those of the extracts are reserved.

## Main results

* `register_ok_iff`, `of_register` — which names a registry accepts, and what comes of it.
* `names_register` — a new operator is listed last.
-/

namespace RuleScan

/-- What an operator may ask of the evaluation that calls it. -/
structure Host where
  rules : RuleSet
  resolve : String → Step Value

/-- Something that rules can call. -/
structure Operator where
  signature : Signature
  run : Host → List Value → Register → Step Value

/-- Operators by name, in order of registration. -/
structure Registry where
  operators : Table String Operator

namespace Registry

/-- The registry without operators. -/
def empty : Registry := ⟨∅⟩

instance : EmptyCollection Registry := ⟨empty⟩

instance : Inhabited Registry := ⟨empty⟩

/-- The names of extracts, which no operator can have. -/
def reservedNames : List String := ["Byte", "Short", "Long", "Quad", "String", "StringZ"]

/-- Whether a text is an identifier. -/
def isName (name : String) : Bool :=
  match name.toList with
  | [] => false
  | c :: rest => (c.isAlpha || c == '_') && rest.all fun c => c.isAlphanum || c == '_'

/-- The operator with a name. -/
def get? (r : Registry) (name : String) : Option Operator := r.operators.get? name

/-- The names in order of registration. -/
def names (r : Registry) : List String := r.operators.keys

/-- The number of operators. -/
def size (r : Registry) : Nat := r.operators.size

/-- The signature of the operator with a name. -/
def signature? (r : Registry) (name : String) : Option Signature :=
  (r.get? name).map Operator.signature

/-- Registers an operator under a name that is free. -/
def register (r : Registry) (name : String) (op : Operator) : Except Error Registry :=
  if !isName name then .error (.operator name "not a valid operator name")
  else if name ∈ reservedNames then .error (.operator name "name is reserved for extracts")
  else if r.operators.contains name then .error (.operator name "already registered")
  else .ok ⟨r.operators.insert name op⟩

theorem register_ok_iff (r : Registry) (name : String) (op : Operator) :
    (r.register name op).toOption.isSome ↔
      isName name ∧ name ∉ reservedNames ∧ r.operators.contains name = false := by
  unfold register
  by_cases h1 : isName name
  · by_cases h2 : name ∈ reservedNames
    · simp [h1, h2, Except.toOption]
    · cases h3 : r.operators.contains name <;> simp [h1, h2, Except.toOption]
  · simp [h1, Except.toOption]

/-- What a registration that succeeds says of the name, and what comes of it. -/
theorem of_register {r s : Registry} {name : String} {op : Operator}
    (h : r.register name op = .ok s) :
    (isName name = true ∧ name ∉ reservedNames) ∧ r.operators.contains name = false ∧
      s = ⟨r.operators.insert name op⟩ := by
  have hok := (register_ok_iff r name op).1 (by rw [h]; rfl)
  simp only [register, hok] at h
  cases h
  exact ⟨⟨hok.1, hok.2.1⟩, hok.2.2, rfl⟩

theorem names_register {r s : Registry} {name : String} {op : Operator}
    (h : r.register name op = .ok s) (hn : name ∉ r.names) : s.names = r.names ++ [name] := by
  obtain ⟨-, -, rfl⟩ := of_register h
  simp only [names] at hn ⊢
  rw [Table.keys_insert]
  simp [hn]

end Registry

/-- Checks the arguments of a call of a named operator. -/
def Signature.check (s : Signature) (name : String) (args : List Value) : Except Error Unit :=
  if s.accepts args.length then
    match s.misfit? 0 args with
    | none => .ok ()
    | some (position, wanted, found) =>
      .error (.typeMismatch (.argument name position wanted found))
  else .error (.operator name s!"expected {s.print} arguments, got {args.length}")

end RuleScan
