import RuleScan.Expr.Parser
import RuleScan.Expr.Printer
import RuleScan.Operator.Builtin
import RuleScan.Proofs.Reading.Spelling

/-!
# Printed expressions

The text of an expression consists of the tokens that its shape suggests: `Expr.kinds` follows
`Expr.print` piece by piece, and no two neighbouring pieces of the text run together.  A piece
ends before whatever delimits it, and it begins with a character that extends no symbol before
it, so pieces can be put one after the other (`Lexer.Spells`).

`Expr.IsPrintable` says which expressions have such a text: their names are names of the rule
language, their literals can be written, and no bracket follows a sign, since brackets bind
tighter.

## Main results

* `Registry.IsBuilt.isName` — registered operators have names that are not reserved.
* `Value.IsLiteral.spells` — the text of a literal is one token.
* `Expr.IsPrintable.spells` — the text of an expression consists of its tokens.
-/

namespace RuleScan

/-! ## Operation symbols -/

/-- The symbol of a unary operation. -/
def UnaryOp.symbol : UnaryOp → Symbol
  | .neg => .minus
  | .plus => .plus
  | .bitNot => .tilde
  | .not => .bang

/-- The symbol of a binary operation. -/
def BinaryOp.symbol : BinaryOp → Symbol
  | .arithmetic .add => .plus
  | .arithmetic .sub => .minus
  | .arithmetic .mul => .star
  | .arithmetic .div => .slash
  | .arithmetic .rem => .percent
  | .arithmetic .bitAnd => .amp
  | .arithmetic .bitOr => .pipe
  | .arithmetic .bitXor => .caret
  | .arithmetic .shiftLeft => .shiftLeft
  | .arithmetic .shiftRight => .shiftRight
  | .comparison .eq => .eqEq
  | .comparison .ne => .bangEq
  | .comparison .lt => .less
  | .comparison .gt => .greater
  | .comparison .le => .lessEq
  | .comparison .ge => .greaterEq
  | .connective .and => .ampAmp
  | .connective .or => .pipePipe

theorem UnaryOp.spelling_symbol (op : UnaryOp) : op.symbol.spelling = op.spelling := by
  cases op <;> rfl

theorem UnaryOp.ofKind?_symbol (op : UnaryOp) : ofKind? (.symbol op.symbol) = some op := by
  cases op <;> rfl

theorem BinaryOp.spelling_symbol (op : BinaryOp) : op.symbol.spelling = op.spelling := by
  rcases op with op | op | op <;> cases op <;> rfl

theorem BinaryOp.ofKind?_symbol (op : BinaryOp) : ofKind? (.symbol op.symbol) = some op := by
  rcases op with op | op | op <;> cases op <;> rfl

/-! ## Names -/

/-- A name of the rule language that is no keyword. -/
def IsIdentifier (name : String) : Prop :=
  Registry.isName name = true ∧ Keyword.ofSpelling? name.toList = none

/-- The name of a special variable. -/
def IsSpecial (name : String) : Prop :=
  ∃ cs, cs ≠ [] ∧ (∀ c ∈ cs, Lexer.isNameChar c = true) ∧ name.toList = '$' :: cs

/-- A registry into which operators were registered one by one. -/
inductive Registry.IsBuilt : Registry → Prop where
  | empty : IsBuilt ∅
  | register {r s : Registry} {name : String} {op : Operator} :
      r.IsBuilt → r.register name op = .ok s → s.IsBuilt

theorem Registry.IsBuilt.isName {r : Registry} (h : r.IsBuilt) {name : String}
    {signature : Signature} (hname : r.signature? name = some signature) :
    Registry.isName name = true ∧ name ∉ reservedNames := by
  induction h with
  | empty => cases hname
  | @register r s name' op _ hr ih =>
      obtain ⟨hvalid, -, rfl⟩ := of_register hr
      by_cases heq : name = name'
      · exact heq ▸ hvalid
      · refine ih ?_
        unfold signature? get? at hname ⊢
        rwa [Table.get?_insert, if_neg heq] at hname

theorem Registry.IsBuilt.insert {r : Registry} (h : r.IsBuilt) (name : String) (op : Operator)
    (hname : Registry.isName name = true) (hreserved : name ∉ reservedNames)
    (hfree : r.operators.contains name = false) : IsBuilt ⟨r.operators.insert name op⟩ := by
  have hregister : r.register name op = .ok ⟨r.operators.insert name op⟩ := by
    simp [Registry.register, hname, hreserved, hfree]
  exact .register h hregister

theorem Registry.isBuilt_builtins : builtins.IsBuilt :=
  IsBuilt.empty
    |>.insert "Len" _ (by decide) (by decide) (by decide)
    |>.insert "Log" _ (by decide) (by decide) (by decide)
    |>.insert "Warn" _ (by decide) (by decide) (by decide)
    |>.insert "Carve" _ (by decide) (by decide) (by decide)
    |>.insert "Write" _ (by decide) (by decide) (by decide)

/-! ## Literals and metadata -/

/-- A value that is written as a literal. -/
inductive Value.IsLiteral : Value → Prop where
  | bool (b : Bool) : IsLiteral (.bool b)
  | bytes (b : Bytes) : IsLiteral (.bytes b)
  | number {n : Nat} : n < 0x10000000000000000 → IsLiteral (.number (.literal n))

/-- The token that a literal is. -/
def Value.token : Value → TokenKind
  | .bool b => .keyword (if b then .trueWord else .falseWord)
  | .bytes b => .string b
  | .number n => .number n.toInt.toNat

/-- A literal has the value that is written. -/
theorem Number.toInt_literal {n : Nat} (h : n < 0x10000000000000000) :
    (Number.literal n).toInt = n := by
  have hsigned : ∀ w : Width, n < 2 ^ (w.bits - 1) →
      (ofWord (BitVec.ofNat 64 n) w true).toInt = n := by
    intro w hw
    have hpow : 2 ^ w.bits = 2 ^ (w.bits - 1) * 2 := by
      rw [← Nat.pow_succ, Nat.succ_eq_add_one, Nat.sub_add_cancel w.bits_pos]
    have hlow : ((BitVec.ofNat 64 n).setWidth w.bits).toNat = n := by
      rw [BitVec.toNat_setWidth, BitVec.toNat_ofNat, Nat.mod_eq_of_lt h,
        Nat.mod_eq_of_lt (by omega)]
    rw [toInt_ofWord, if_pos rfl, BitVec.toInt_eq_toNat_of_lt (by omega), hlow]
  have hunsigned : ∀ w : Width, n < 2 ^ w.bits →
      (ofWord (BitVec.ofNat 64 n) w false).toInt = n := by
    intro w hw
    rw [toInt_ofWord, if_neg (by decide), BitVec.toNat_setWidth, BitVec.toNat_ofNat,
      Nat.mod_eq_of_lt h, Nat.mod_eq_of_lt hw]
  unfold literal
  split
  · next hn => exact hsigned .w32 hn
  split
  · next hn => exact hunsigned .w32 hn
  split
  · next hn => exact hsigned .w64 hn
  · exact hunsigned .w64 h

theorem Value.token_literal {n : Nat} (h : n < 0x10000000000000000) :
    (Value.number (.literal n)).token = .number n := by
  rw [token, Number.toInt_literal h, Int.toNat_natCast]

/-- Metadata whose own entries can be written. -/
def Register.IsPrintable (m : Register) : Prop :=
  ∀ entry ∈ m.own.entries, IsIdentifier entry.1 ∧ entry.2.IsLiteral

namespace Lexer

/-! ## Texts that consist of tokens -/

/-- A text that consists of tokens of certain kinds, after a symbol and before a delimiter. -/
structure Spells (text : List Char) (kinds : List TokenKind) : Prop where
  calm : Calm text
  reads : ∀ {rest ks}, Delimits rest → Reads rest ks → Reads (text ++ rest) (kinds ++ ks)

/-- A word that is read as a token of some kind. -/
def IsWord (word : List Char) (k : TokenKind) : Prop :=
  ∃ c cs, word = c :: cs ∧ isNameStart c = true ∧ (∀ d ∈ cs, isNameChar d = true) ∧
    wordKind (c :: cs) = k

/-- The name of an operator is one word, a keyword or not. -/
theorem isWord_of_isName {name : String} (hname : Registry.isName name = true) :
    IsWord name.toList (wordKind name.toList) := by
  unfold Registry.isName at hname
  split at hname
  · cases hname
  · next c cs hcs =>
    simp only [Bool.and_eq_true, List.all_eq_true] at hname
    exact ⟨c, cs, hcs, hname.1, hname.2, by rw [hcs]⟩

theorem isWord_identifier {name : String} (hname : IsIdentifier name) :
    IsWord name.toList (.ident name) := by
  have hword := isWord_of_isName hname.1
  rwa [wordKind, hname.2, String.ofList_toList] at hword

theorem isWord_keyword (k : Keyword) : IsWord k.spelling.toList (.keyword k) := by
  obtain ⟨c, cs, hk, hc, hcs⟩ : ∃ c cs, k.spelling.toList = c :: cs ∧ isNameStart c = true ∧
      cs.all isNameChar = true := by
    cases k <;> exact ⟨_, _, rfl, by decide⟩
  refine ⟨c, cs, hk, hc, List.all_eq_true.1 hcs, ?_⟩
  rw [← hk, wordKind, Keyword.ofSpelling?_spelling]

theorem IsWord.reads {word rest : List Char} {k : TokenKind} {ks : List TokenKind}
    (hword : IsWord word k) (hrest : Stops rest) (h : Reads rest ks) :
    Reads (word ++ rest) (k :: ks) := by
  obtain ⟨c, cs, rfl, hc, hcs, rfl⟩ := hword
  exact reads_word hc hcs hrest h

theorem IsWord.spells {word : List Char} {k : TokenKind} (hword : IsWord word k) :
    Spells word [k] where
  calm := by
    obtain ⟨c, cs, rfl, hc, -⟩ := hword
    exact ⟨c, cs, rfl, (of_isNameStart hc).2.2⟩
  reads hrest h := hword.reads hrest.stops h

theorem reads_identifier {name : String} {rest : List Char} {ks : List TokenKind}
    (hname : IsIdentifier name) (hrest : Stops rest) (h : Reads rest ks) :
    Reads (name.toList ++ rest) (.ident name :: ks) :=
  (isWord_identifier hname).reads hrest h

theorem spells_identifier {name : String} (hname : IsIdentifier name) :
    Spells name.toList [.ident name] :=
  (isWord_identifier hname).spells

theorem spells_special {name : String} (hname : IsSpecial name) :
    Spells name.toList [.special name] := by
  obtain ⟨cs, hne, hcs, hname⟩ := hname
  rw [hname]
  refine ⟨⟨'$', cs, rfl, by decide⟩, fun hrest h => ?_⟩
  have hspecial : name = String.ofList ('$' :: cs) := by rw [← hname, String.ofList_toList]
  rw [hspecial]
  exact reads_special hne hcs hrest.stops h

theorem spells_keyword (k : Keyword) : Spells k.spelling.toList [.keyword k] :=
  (isWord_keyword k).spells

theorem spells_literal {v : Value} (h : v.IsLiteral) : Spells v.print.toList [v.token] := by
  cases h with
  | bool b =>
      cases b with
      | true => exact spells_keyword .trueWord
      | false => exact spells_keyword .falseWord
  | bytes b =>
      refine ⟨?_, fun _ h => reads_quote b h⟩
      exact ⟨'"', _, by rw [Value.print, Value.quote, String.toList_ofList]; rfl, by decide⟩
  | @number n hn =>
      have htext : (Value.number (.literal n)).print.toList = Nat.toDigits 10 n := by
        rw [Value.print, Number.toInt_literal hn]
        exact Nat.toList_repr
      rw [htext, Value.token_literal hn]
      refine ⟨?_, fun hrest h => reads_number hn hrest h⟩
      cases hds : Nat.toDigits 10 n with
      | nil => exact absurd hds Nat.toDigits_ne_nil
      | cons c cs =>
          have hc : c ∈ Nat.toDigits 10 n := hds ▸ List.mem_cons_self ..
          have hdigit := Nat.isDigit_of_mem_toDigits (by decide) (by decide) hc
          exact ⟨c, cs, rfl, (of_isDigit hdigit).2.2.1⟩

/-- A symbol that is calm itself may stand in front of a text. -/
theorem Spells.symbol {text : List Char} {kinds : List TokenKind} (h : Spells text kinds)
    (s : Symbol) (hs : Calm s.spelling.toList) :
    Spells (s.spelling.toList ++ text) (.symbol s :: kinds) := by
  refine ⟨hs.append text, fun {rest} _ hrest hks => ?_⟩
  rw [List.append_assoc]
  exact reads_symbol s (h.calm.append rest) (h.reads hrest hks)

/-- A closing mark may stand behind a text. -/
theorem Spells.close {text : List Char} {kinds : List TokenKind} (h : Spells text kinds)
    (s : Symbol) (hs : Delimits s.spelling.toList) :
    Spells (text ++ s.spelling.toList) (kinds ++ [.symbol s]) := by
  refine ⟨h.calm.append _, fun {rest ks} hrest hks => ?_⟩
  rw [List.append_assoc, List.append_assoc]
  exact h.reads (hs.append rest) (reads_symbol s hrest.calm hks)

/-- A delimiter may stand between two texts. -/
theorem Spells.between {text text' : List Char} {kinds kinds' : List TokenKind}
    (h : Spells text kinds) (s : Symbol) (hs : Delimits s.spelling.toList)
    (h' : Spells text' kinds') :
    Spells (text ++ (s.spelling.toList ++ text')) (kinds ++ .symbol s :: kinds') := by
  refine ⟨h.calm.append _, fun {rest ks} hrest hks => ?_⟩
  simp only [List.append_assoc, List.cons_append]
  refine h.reads (hs.append _) ?_
  exact reads_symbol s (h'.calm.append rest) (h'.reads hrest hks)

end Lexer

namespace Expr

open Lexer

/-! ## The tokens of an expression -/

/-- Whether an expression is a unary operation. -/
def isUnary : Expr → Bool
  | unary .. => true
  | _ => false

/-- The token that a variable is. -/
def nameToken (name : String) : TokenKind :=
  if name.toList.head? = some '$' then .special name else .ident name

theorem nameToken_of_isIdentifier {name : String} (h : IsIdentifier name) :
    nameToken name = .ident name := by
  refine if_neg fun hhead => ?_
  have hname := h.1
  unfold Registry.isName at hname
  split at hname
  · cases hname
  · next c cs hcs =>
    rw [hcs, List.head?_cons, Option.some.injEq] at hhead
    subst hhead
    simp at hname

theorem nameToken_of_isSpecial {name : String} (h : IsSpecial name) :
    nameToken name = .special name := by
  obtain ⟨cs, -, -, hname⟩ := h
  exact if_pos (by rw [hname, List.head?_cons])

/-- The tokens of an entry of metadata. -/
def entryKinds (entry : String × Value) : List TokenKind :=
  [.ident entry.1, .symbol .assign, entry.2.token]

/-- Parentheses around the tokens of a binary operation. -/
def encloseKinds (e : Expr) (kinds : List TokenKind) : List TokenKind :=
  match e with
  | binary .. => .symbol .parenOpen :: (kinds ++ [.symbol .parenClose])
  | _ => kinds

/-- The tokens of a call with the tokens of its items. -/
def callKinds (name : String) (items : List (List TokenKind)) : List TokenKind :=
  .ident name :: .symbol .parenOpen ::
    ([.symbol .comma].intercalate items ++ [.symbol .parenClose])

/-- The name of an extract in a format. -/
def formatName : ExtractFormat → String
  | .number => "Number"
  | .string => "String"
  | .stringz => "StringZ"

mutual

/-- The tokens of the text of an expression. -/
def kinds : Expr → List TokenKind
  | literal v => [v.token]
  | var name => [nameToken name]
  | unary op e => .symbol op.symbol :: encloseKinds e e.kinds
  | binary op l r => encloseKinds l l.kinds ++ .symbol op.symbol :: encloseKinds r r.kinds
  | index e i =>
    encloseKinds e e.kinds ++ .symbol .bracketOpen :: (i.kinds ++ [.symbol .bracketClose])
  | slice e i j =>
    encloseKinds e e.kinds ++ .symbol .bracketOpen ::
      (i.kinds ++ .symbol .colon :: (j.kinds ++ [.symbol .bracketClose]))
  | extract format o s m =>
    match format, widthOfSize? s with
    | .number, some w => callKinds (extractName w) (o.kinds :: m.own.entries.map entryKinds)
    | format, _ =>
      callKinds (formatName format) (o.kinds :: s.kinds :: m.own.entries.map entryKinds)
  | call name args m => callKinds name (kindsAll args ++ m.own.entries.map entryKinds)

/-- The tokens of each expression of a list. -/
def kindsAll : List Expr → List (List TokenKind)
  | [] => []
  | e :: rest => e.kinds :: kindsAll rest

end

theorem encloseKinds_index (e i : Expr) :
    encloseKinds (index e i) (index e i).kinds =
      encloseKinds e e.kinds ++ .symbol .bracketOpen ::
        (i.kinds ++ [.symbol .bracketClose]) := rfl

theorem encloseKinds_slice (e i j : Expr) :
    encloseKinds (slice e i j) (slice e i j).kinds =
      encloseKinds e e.kinds ++ .symbol .bracketOpen ::
        (i.kinds ++ .symbol .colon :: (j.kinds ++ [.symbol .bracketClose])) := rfl

/-! ## Calls -/

/-- The arguments of a call and the entries of its metadata, in order. -/
def callItems (args : List Expr) (m : Register) : List (Expr ⊕ String × Value) :=
  args.map .inl ++ m.own.entries.map .inr

/-- The text of an item of a call. -/
def itemText : Expr ⊕ String × Value → String := Sum.elim print printEntry

/-- The tokens of an item of a call. -/
def itemKinds : Expr ⊕ String × Value → List TokenKind := Sum.elim kinds entryKinds

/-- The text of a call. -/
def callText (name : String) (items : List (Expr ⊕ String × Value)) : String :=
  name ++ "(" ++ ", ".intercalate (items.map itemText) ++ ")"

theorem intercalate_cons (separator text : String) (texts : List String) :
    separator.intercalate (text :: texts) = text ++ String.join (texts.map (separator ++ ·)) := by
  induction texts generalizing text with
  | nil => simp
  | cons next rest ih =>
      rw [String.intercalate_cons_cons, ih, List.map_cons, String.join_cons]
      simp only [String.append_assoc]

theorem printAll_eq_map (es : List Expr) : printAll es = es.map print := by
  induction es with
  | nil => rfl
  | cons e rest ih => rw [printAll, ih, List.map_cons]

theorem kindsAll_eq_map (es : List Expr) : kindsAll es = es.map kinds := by
  induction es with
  | nil => rfl
  | cons e rest ih => rw [kindsAll, ih, List.map_cons]

theorem widthOfSize?_number (w : Width) : widthOfSize? (number w.bytes) = some w := by
  cases w <;> rfl

theorem print_call (name : String) (args : List Expr) (m : Register) :
    (call name args m).print = callText name (callItems args m) := by
  simp [print, callText, callItems, itemText, printAll_eq_map, Function.comp_def]

theorem print_extractNumber (o : Expr) (w : Width) (m : Register) :
    (extractNumber o w m).print = callText (extractName w) (callItems [o] m) := by
  simp only [extractNumber, print, widthOfSize?_number]
  simp only [callText, callItems, List.map_cons, List.map_nil, List.cons_append,
    List.nil_append, intercalate_cons, printEntries, List.map_map, String.append_assoc]
  rfl

theorem print_extract {format : ExtractFormat} (h : format ≠ .number) (o s : Expr) (m : Register) :
    (extract format o s m).print = callText (formatName format) (callItems [o, s] m) := by
  cases format with
  | number => exact absurd rfl h
  | string | stringz =>
      simp only [print]
      simp only [callText, callItems, List.map_cons, List.map_nil, List.cons_append,
        List.nil_append, intercalate_cons, printEntries, List.map_map, String.append_assoc,
        String.join_cons]
      rfl

theorem kinds_call (name : String) (args : List Expr) (m : Register) :
    (call name args m).kinds = callKinds name ((callItems args m).map itemKinds) := by
  simp [kinds, callItems, itemKinds, kindsAll_eq_map, Function.comp_def]

theorem kinds_extractNumber (o : Expr) (w : Width) (m : Register) :
    (extractNumber o w m).kinds =
      callKinds (extractName w) ((callItems [o] m).map itemKinds) := by
  simp [extractNumber, kinds, widthOfSize?_number, callItems, itemKinds, Function.comp_def]

theorem kinds_extract {format : ExtractFormat} (h : format ≠ .number) (o s : Expr) (m : Register) :
    (extract format o s m).kinds =
      callKinds (formatName format) ((callItems [o, s] m).map itemKinds) := by
  cases format with
  | number => exact absurd rfl h
  | string | stringz => simp [kinds, callItems, itemKinds, Function.comp_def]

/-! ## Printable expressions -/

/-- Expressions that can be written with the operators of a registry. -/
inductive IsPrintable (r : Registry) : Expr → Prop where
  | literal {v : Value} : v.IsLiteral → IsPrintable r (literal v)
  | var {name : String} : IsIdentifier name ∨ IsSpecial name → IsPrintable r (var name)
  | unary (op : UnaryOp) {e : Expr} : e.IsPrintable r → IsPrintable r (unary op e)
  | binary (op : BinaryOp) {a b : Expr} :
      a.IsPrintable r → b.IsPrintable r → IsPrintable r (binary op a b)
  | index {e i : Expr} :
      e.IsPrintable r → e.isUnary = false → i.IsPrintable r → IsPrintable r (index e i)
  | slice {e i j : Expr} :
      e.IsPrintable r → e.isUnary = false → i.IsPrintable r → j.IsPrintable r →
        IsPrintable r (slice e i j)
  | extractNumber (w : Width) {o : Expr} {m : Register} :
      o.IsPrintable r → m.IsPrintable → IsPrintable r (extractNumber o w m)
  | extract {format : ExtractFormat} {o s : Expr} {m : Register} :
      format ≠ .number → o.IsPrintable r → s.IsPrintable r → m.IsPrintable →
        IsPrintable r (extract format o s m)
  | call {name : String} {signature : Signature} {args : List Expr} {m : Register} :
      r.signature? name = some signature → Keyword.ofSpelling? name.toList = none →
        signature.accepts args.length = true → (∀ e ∈ args, e.IsPrintable r) → m.IsPrintable →
          IsPrintable r (call name args m)

theorem isIdentifier_extractName (w : Width) : IsIdentifier (extractName w) := by
  unfold IsIdentifier
  cases w <;> decide

theorem isIdentifier_formatName (format : ExtractFormat) : IsIdentifier (formatName format) := by
  unfold IsIdentifier
  cases format <;> decide

/-! ## The text of an expression -/

theorem spells_enclose {e : Expr} (h : Spells e.print.toList e.kinds) :
    Spells (enclose e e.print).toList (encloseKinds e e.kinds) := by
  cases e with
  | binary op a b =>
      rw [enclose, String.toList_append, String.toList_append, List.append_assoc]
      exact (h.close .parenClose ⟨')', [], rfl, by decide⟩).symbol .parenOpen
        ⟨'(', [], rfl, by decide⟩
  | _ => exact h

theorem spells_unary (op : UnaryOp) {e : Expr} (h : Spells e.print.toList e.kinds) :
    Spells (unary op e).print.toList (unary op e).kinds := by
  have hcalm : Calm op.symbol.spelling.toList := by
    cases op <;> exact ⟨_, [], rfl, by decide⟩
  rw [print, kinds, String.toList_append, ← op.spelling_symbol]
  exact (spells_enclose h).symbol op.symbol hcalm

theorem spells_binary (op : BinaryOp) {a b : Expr} (ha : Spells a.print.toList a.kinds)
    (hb : Spells b.print.toList b.kinds) :
    Spells (binary op a b).print.toList (binary op a b).kinds := by
  have hblank : ∀ rest, Delimits (' ' :: rest) := fun rest => delimits_cons rest (by decide)
  have htext : (binary op a b).print.toList = (enclose a a.print).toList ++
      ' ' :: (op.symbol.spelling.toList ++ ' ' :: (enclose b b.print).toList) := by
    simp [print, op.spelling_symbol]
  rw [htext, kinds]
  refine ⟨(spells_enclose ha).calm.append _, fun hrest hks => ?_⟩
  simp only [List.append_assoc, List.cons_append]
  refine (spells_enclose ha).reads (hblank _) (reads_blank ?_)
  refine reads_symbol op.symbol (hblank _).calm (reads_blank ?_)
  exact (spells_enclose hb).reads hrest hks

theorem spells_index {e i : Expr} (he : Spells e.print.toList e.kinds)
    (hi : Spells i.print.toList i.kinds) :
    Spells (index e i).print.toList (index e i).kinds := by
  have htext : (index e i).print.toList = (enclose e e.print).toList ++
      (Symbol.bracketOpen.spelling.toList ++
        (i.print.toList ++ Symbol.bracketClose.spelling.toList)) := by
    simp [print, Symbol.spelling]
  rw [htext, kinds]
  refine (spells_enclose he).between .bracketOpen ⟨'[', _, rfl, by decide⟩ ?_
  exact hi.close .bracketClose ⟨']', _, rfl, by decide⟩

theorem spells_slice {e i j : Expr} (he : Spells e.print.toList e.kinds)
    (hi : Spells i.print.toList i.kinds) (hj : Spells j.print.toList j.kinds) :
    Spells (slice e i j).print.toList (slice e i j).kinds := by
  have htext : (slice e i j).print.toList = (enclose e e.print).toList ++
      (Symbol.bracketOpen.spelling.toList ++ (i.print.toList ++
        (Symbol.colon.spelling.toList ++ (j.print.toList ++
          Symbol.bracketClose.spelling.toList)))) := by
    simp [print, Symbol.spelling]
  rw [htext, kinds]
  refine (spells_enclose he).between .bracketOpen ⟨'[', _, rfl, by decide⟩ ?_
  refine hi.between .colon ⟨':', _, rfl, by decide⟩ ?_
  exact hj.close .bracketClose ⟨']', _, rfl, by decide⟩

/-- An entry of metadata is a name and a literal. -/
theorem spells_entry {entry : String × Value} (hkey : IsIdentifier entry.1)
    (hvalue : entry.2.IsLiteral) :
    Spells (printEntry entry).toList (entryKinds entry) := by
  have htext : (printEntry entry).toList = entry.1.toList ++
      (Symbol.assign.spelling.toList ++ entry.2.print.toList) := by
    simp [printEntry, Symbol.spelling]
  have hv := spells_literal hvalue
  rw [htext]
  refine ⟨(spells_identifier hkey).calm.append _, fun {rest ks} hrest hks => ?_⟩
  simp only [List.append_assoc]
  refine reads_identifier hkey ⟨'=', _, rfl, by decide⟩ ?_
  exact reads_symbol .assign (hv.calm.append _) (hv.reads hrest hks)

/-- Items with commas between them are read in front of what delimits the last. -/
theorem reads_items {items : List (Expr ⊕ String × Value)} {rest : List Char}
    {ks : List TokenKind} (h : ∀ item ∈ items, Spells (itemText item).toList (itemKinds item))
    (hrest : Delimits rest) (hks : Reads rest ks) :
    Reads ((", ".intercalate (items.map itemText)).toList ++ rest)
        ([.symbol .comma].intercalate (items.map itemKinds) ++ ks) ∧
      Calm ((", ".intercalate (items.map itemText)).toList ++ rest) := by
  induction items with
  | nil => exact ⟨hks, hrest.calm⟩
  | cons item items ih =>
      have hitem := h item (List.mem_cons_self ..)
      cases items with
      | nil =>
          simp only [List.map_cons, List.map_nil, String.intercalate_singleton,
            List.intercalate_singleton]
          exact ⟨hitem.reads hrest hks, hitem.calm.append rest⟩
      | cons next items =>
          obtain ⟨hreads, -⟩ := ih fun item hmem => h item (List.mem_cons_of_mem _ hmem)
          simp only [List.map_cons, String.intercalate_cons_cons, List.intercalate_cons_cons,
            String.toList_append, List.append_assoc] at hreads ⊢
          refine ⟨hitem.reads ⟨',', _, rfl, by decide⟩ ?_, hitem.calm.append _⟩
          exact reads_symbol .comma ⟨' ', _, rfl, by decide⟩ (reads_blank hreads)

theorem spells_call {name : String} {items : List (Expr ⊕ String × Value)}
    (hname : IsIdentifier name)
    (h : ∀ item ∈ items, Spells (itemText item).toList (itemKinds item)) :
    Spells (callText name items).toList (callKinds name (items.map itemKinds)) := by
  have htext : (callText name items).toList = name.toList ++
      (Symbol.parenOpen.spelling.toList ++ ((", ".intercalate (items.map itemText)).toList ++
        Symbol.parenClose.spelling.toList)) := by
    simp only [callText, String.toList_append, List.append_assoc]
    rfl
  rw [htext, callKinds]
  refine ⟨(spells_identifier hname).calm.append _, fun {rest ks} hrest hks => ?_⟩
  have hclose := reads_symbol .parenClose hrest.calm hks
  obtain ⟨hreads, hcalm⟩ := reads_items h ⟨')', _, rfl, by decide⟩ hclose
  simp only [List.append_assoc, List.cons_append]
  refine reads_identifier hname ⟨'(', _, rfl, by decide⟩ ?_
  exact reads_symbol .parenOpen hcalm hreads

/-- The arguments and the metadata of a call are its items. -/
theorem spells_callItems {args : List Expr} {m : Register}
    (hargs : ∀ e ∈ args, Spells e.print.toList e.kinds) (hm : m.IsPrintable) :
    ∀ item ∈ callItems args m, Spells (itemText item).toList (itemKinds item) := by
  intro item hitem
  rcases List.mem_append.1 hitem with hitem | hitem
  · obtain ⟨e, he, rfl⟩ := List.mem_map.1 hitem
    exact hargs e he
  · obtain ⟨entry, hentry, rfl⟩ := List.mem_map.1 hitem
    exact spells_entry (hm entry hentry).1 (hm entry hentry).2

theorem spells_var {name : String} (h : IsIdentifier name ∨ IsSpecial name) :
    Spells name.toList [nameToken name] := by
  rcases h with h | h
  · rw [nameToken_of_isIdentifier h]
    exact spells_identifier h
  · rw [nameToken_of_isSpecial h]
    exact spells_special h

/-- The text of a printable expression consists of its tokens. -/
theorem IsPrintable.spells {r : Registry} (hr : r.IsBuilt) {e : Expr} (h : e.IsPrintable r) :
    Spells e.print.toList e.kinds := by
  induction h with
  | literal hv => exact spells_literal hv
  | var hname => exact spells_var hname
  | unary op _ ih => exact spells_unary op ih
  | binary op _ _ iha ihb => exact spells_binary op iha ihb
  | index _ _ _ ihe ihi => exact spells_index ihe ihi
  | slice _ _ _ _ ihe ihi ihj => exact spells_slice ihe ihi ihj
  | extractNumber w _ hm ih =>
      rw [print_extractNumber, kinds_extractNumber]
      exact spells_call (isIdentifier_extractName w) (spells_callItems (by simpa using ih) hm)
  | extract hformat _ _ hm iho ihs =>
      rw [print_extract hformat, kinds_extract hformat]
      exact spells_call (isIdentifier_formatName _)
        (spells_callItems (by simpa using ⟨iho, ihs⟩) hm)
  | call hsignature hword _ _ hm ih =>
      rw [print_call, kinds_call]
      exact spells_call ⟨(hr.isName hsignature).1, hword⟩ (spells_callItems ih hm)

end Expr

end RuleScan
