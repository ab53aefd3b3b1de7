import RuleScan.Evaluation
import RuleScan.Proofs.Evaluation.Builtin
import RuleScan.Proofs.Expr.Nodes

/-!
# Errors that only the evaluator reports

Two errors tell how expressions need each other: that levels are nested too deep, and that a
variable needs itself.  They are reserved to the evaluator (`Error.isReserved`): it enters the
levels and looks the names up, and no operation on values, no operator and no file fails with them.
So a step that is put together from others fails with them only where one of its lookups does, or
where a level is entered that is not there.

`Avoids K bad t` is a triple for arguments of this kind.  From a session with the condition `K` the
step `t` ends in one with this condition, and it fails with no bad error.  What bad errors are is
left open, as long as the evaluator alone reports them while the condition holds (`Watches`).

## Main results

* `avoids_bind`, `avoids_nested` — how such steps are put together.
* `Watches.builtins` — a built-in operator fails with no bad error.
* `resolveWith_of_valued` — neither does a lookup that comes upon nothing but values.
* `Watches.evaluateNode` — an expression fails with the bad errors of its operands and of its name.
-/

namespace RuleScan

/-- The errors that are reserved to the evaluator. -/
def Error.isReserved : Error → Bool
  | tooDeep _ | circularDependency _ => true
  | _ => false

/-- Reading fails with no error that is reserved to the evaluator. -/
def Source.IsCalm (source : Source) : Prop :=
  ∀ ⦃offset length e⦄, source.read offset length = .error e → e.isReserved = false

/-- A file fails to be read for reasons of its own. -/
theorem Source.isCalm_claiming (name : String) (size : Nat) (bytes : Bytes) :
    (Source.claiming name size bytes).IsCalm := by
  intro offset length e he
  unfold claiming at he
  dsimp only at he
  split at he
  · split at he
    · cases he
    · cases he
      rfl
  · cases he
    rfl

namespace Step

variable {α β : Type} {K K' : Session → Prop} {bad : Error → Prop}

/-- From a session with the condition the step ends in one with the condition, and without a bad
error. -/
def Avoids (K : Session → Prop) (bad : Error → Prop) (t : Step α) : Prop :=
  Ensures K t fun outcome s => K s ∧ ∀ e, outcome = .error e → ¬ bad e

/-! ## Sequences -/

theorem avoids_pure (a : α) : Avoids K bad (pure a) :=
  ensures_pure fun _ hs => ⟨hs, nofun⟩

theorem avoids_throw {e : Error} (h : ¬ bad e) : Avoids K bad (throw e : Step α) :=
  ensures_throw fun _ hs => ⟨hs, fun _ he => Except.error.inj he ▸ h⟩

theorem avoids_bind {t : Step α} {f : α → Step β} (ht : Avoids K bad t)
    (hf : ∀ a, Avoids K bad (f a)) : Avoids K bad (t >>= f) :=
  ensures_bind ht (fun a s hs => hf a s hs.1) fun e _ hs =>
    ⟨hs.1, fun _ he => Except.error.inj he ▸ hs.2 e rfl⟩

/-- Whatever an attempt comes to, its outcome is known to whoever goes on with it. -/
theorem avoids_attempt {t : Step α} {f : Except Error α → Step β} (ht : Avoids K bad t)
    (hf : ∀ r, (∀ e, r = .error e → ¬ bad e) → Avoids K bad (f r)) :
    Avoids K bad (t.attempt >>= f) := by
  intro s hs
  obtain ⟨hkept, hgood⟩ := ht s hs
  have h := hf (t.outcome s) hgood (t.after s) hkept
  unfold outcome after at h ⊢
  rwa [bind_of_ok (attempt_eq t s)]

theorem avoids_mapM {f : α → Step β} {as : List α} (hf : ∀ a ∈ as, Avoids K bad (f a)) :
    Avoids K bad (as.mapM f) := by
  induction as with
  | nil => exact avoids_pure []
  | cons a rest ih =>
      rw [List.forall_mem_cons] at hf
      rw [List.mapM_cons]
      exact avoids_bind hf.1 fun _ => avoids_bind (ih hf.2) fun _ => avoids_pure _

/-- Within a level there may be another condition, and the level must be there if that it is not
would be bad. -/
theorem avoids_nested {limit : Nat} {t : Step α} (ht : Avoids K' bad t)
    (hroom : ∀ s, K s → limit ≤ s.depth → ¬ bad (.tooDeep limit))
    (henter : ∀ s, K s → K' { s with depth := s.depth + 1 })
    (hleave : ∀ s, K' s → K { s with depth := s.depth - 1 }) : Avoids K bad (nested limit t) := by
  intro s hs
  by_cases hdeep : limit ≤ s.depth
  · rw [outcome_of_error (nested_of_le hdeep t), after_of_error (nested_of_le hdeep t)]
    exact ⟨hs, fun _ he => Except.error.inj he ▸ hroom s hs hdeep⟩
  · obtain ⟨hkept, hgood⟩ := ht _ (henter s hs)
    have hleft := hleave _ hkept
    unfold nested outcome after at *
    simp only [hdeep, if_false]
    cases hr : t { s with depth := s.depth + 1 } <;> simp only [hr] at hleft hgood ⊢ <;>
      exact ⟨hleft, hgood⟩

theorem avoids_of_maintains {t : Step α} (hkept : Maintains K t)
    (hgood : ∀ s, K s → ∀ e, t.outcome s = .error e → ¬ bad e) : Avoids K bad t :=
  fun s hs => ⟨hkept s hs, hgood s hs⟩

/-! ## Access to the session -/

/-- While the condition holds, bad errors are reported by the evaluator alone: they are reserved to
it, reading fails with none of them, and operators cannot influence the condition. -/
structure Watches (K : Session → Prop) (bad : Error → Prop) : Prop where
  reserved : ∀ {e}, bad e → e.isReserved = true
  read : ∀ {s}, K s → ∀ {offset length e}, s.source.read offset length = .error e → ¬ bad e
  spared : Builtin.Spared K

namespace Watches

variable (hw : Watches K bad)

include hw

theorem not_bad {e : Error} (h : e.isReserved = false) : ¬ bad e := fun hbad =>
  ne_true_of_eq_false h (hw.reserved hbad)

theorem ofValue (r : Except ValueError α) : Avoids K bad (Step.ofValue r) := by
  cases r with
  | ok a => exact avoids_pure a
  | error e => exact avoids_throw (hw.not_bad rfl)

theorem reading (offset length : Nat) : Avoids K bad (Step.read offset length) := by
  refine avoids_of_maintains (maintains_read _ _) fun s hs e he => ?_
  unfold outcome Step.read at he
  cases hr : s.source.read offset length with
  | ok bytes =>
      rw [hr] at he
      cases he
  | error cause =>
      rw [hr] at he
      exact Except.error.inj he ▸ hw.read hs hr

theorem readTerminated (offset limit : Nat) :
    Avoids K bad (Step.readTerminated offset limit) := by
  refine avoids_of_maintains (maintains_readTerminated _ _) fun s hs e he => ?_
  have hterminated : s.source.readTerminated offset limit = .error e := by
    unfold outcome Step.readTerminated at he
    cases hr : s.source.readTerminated offset limit with
    | ok bytes =>
        rw [hr] at he
        cases he
    | error cause =>
        rw [hr] at he
        exact congrArg _ (Except.error.inj he)
  unfold Source.readTerminated at hterminated
  split at hterminated
  · cases hterminated
    exact hw.not_bad rfl
  · cases hr : s.source.read offset (min limit (s.source.size - offset)) with
    | ok bytes =>
        rw [hr] at hterminated
        cases hterminated
    | error cause =>
        rw [hr] at hterminated
        cases hterminated
        exact hw.read hs hr

theorem create (suggestion : String) : Avoids K bad (Step.create suggestion) := by
  refine avoids_of_maintains (hw.spared.create _) fun s _ e he => ?_
  unfold outcome Step.create at he
  cases ho : s.output with
  | none =>
      rw [ho] at he
      cases he
      exact hw.not_bad rfl
  | some out =>
      simp only [ho, putOutput, OutputDir.create] at he
      cases hr : s.files.createFile (out.newName s.files suggestion).1 with
      | ok files => simp [hr] at he
      | error cause =>
          simp only [hr, Except.error.injEq] at he
          exact he ▸ hw.not_bad rfl

theorem writeFile (p : Path) (content : Bytes) : Avoids K bad (Step.writeFile p content) := by
  refine avoids_of_maintains (hw.spared.writeFile _ _) fun s _ e he => ?_
  unfold outcome Step.writeFile at he
  cases hr : s.files.writeFile p content with
  | ok files => simp [hr] at he
  | error cause =>
      simp only [hr, Except.error.injEq] at he
      exact he ▸ hw.not_bad rfl

/-! ## Built-in operators -/

theorem orDiscard (p : Path) {t : Step Unit} (ht : Avoids K bad t) :
    Avoids K bad (Builtin.orDiscard p t) := by
  refine avoids_attempt ht fun r hr => ?_
  cases r with
  | ok _ => exact avoids_pure ()
  | error e =>
      have hdiscard : Avoids K bad (Step.discard p) :=
        avoids_of_maintains (hw.spared.discard p) fun _ _ _ => nofun
      exact avoids_bind hdiscard fun _ => avoids_throw (hr e rfl)

theorem readRange (start stop : Nat) : Avoids K bad (Builtin.readRange start stop) := by
  fun_induction Builtin.readRange start stop with
  | case1 start hlt length ih =>
      exact avoids_bind (hw.reading _ _) fun _ => avoids_bind ih fun _ => avoids_pure _
  | case2 start hge => exact avoids_pure []

theorem carveRanges (name : String) (ranges : List (Nat × Nat)) :
    Avoids K bad (Builtin.carveRanges name ranges) := by
  induction ranges with
  | nil => exact avoids_pure ()
  | cons range rest ih =>
      refine avoids_bind (hw.create name) fun p => ?_
      refine avoids_bind (hw.orDiscard p ?_) fun _ => ih
      exact avoids_bind (hw.readRange _ _) fun _ => hw.writeFile p _

theorem len (host : Host) (args : List Value) (m : Register) :
    Avoids K bad (Builtin.len.run host args m) := by
  cases args with
  | nil => exact avoids_throw (hw.not_bad rfl)
  | cons v rest => exact avoids_bind (hw.ofValue _) fun _ => avoids_pure _

theorem carve (host : Host) (args : List Value) (m : Register) :
    Avoids K bad (Builtin.carve.run host args m) := by
  cases args with
  | nil => exact avoids_throw (hw.not_bad rfl)
  | cons v rest =>
      refine avoids_bind (hw.ofValue _) fun name => ?_
      refine avoids_bind (hw.ofValue _) fun positions => ?_
      refine avoids_bind (avoids_of_maintains (maintains_view _) fun _ _ _ => nofun) fun size => ?_
      cases Builtin.badRange? size (Builtin.adjacent positions) with
      | some range => exact avoids_throw (hw.not_bad rfl)
      | none => exact avoids_bind (hw.carveRanges _ _) fun _ => avoids_pure _

theorem write (host : Host) (args : List Value) (m : Register) :
    Avoids K bad (Builtin.write.run host args m) := by
  match args with
  | [] | [_] => exact avoids_throw (hw.not_bad rfl)
  | v :: w :: _ =>
      refine avoids_bind (hw.ofValue _) fun name => ?_
      refine avoids_bind (hw.ofValue _) fun bytes => ?_
      refine avoids_bind (hw.create _) fun p => ?_
      exact avoids_bind (hw.orDiscard p (hw.writeFile p bytes)) fun _ => avoids_pure _

/-- Built-in operators have nothing evaluated, so what is bad is not reported by them. -/
theorem builtins {name : String} {op : Operator}
    (hop : Registry.builtins.get? name = some op) (host : Host) (args : List Value)
    (m : Register) : Avoids K bad (op.run host args m) := by
  rcases Builtin.builtin_cases hop with rfl | rfl | rfl | rfl | rfl
  · exact hw.len host args m
  · exact avoids_of_maintains (hw.spared.builtins hop host args m) fun _ _ _ => nofun
  · exact avoids_of_maintains (hw.spared.builtins hop host args m) fun _ _ _ => nofun
  · exact hw.carve host args m
  · exact hw.write host args m

end Watches

end Step

/-! ## Expressions -/

namespace Environment

open Step

variable {rules : RuleSet} {eval : Expr → Step Value}

theorem isReserved_of_check {signature : Signature} {name : String} {args : List Value} {e : Error}
    (h : signature.check name args = .error e) : e.isReserved = false := by
  unfold Signature.check at h
  split at h
  · split at h <;> cases h
    rfl
  · cases h
    rfl

/-- A lookup that comes upon nothing but values leaves the session as it is, and the evaluator has
nothing to report. -/
theorem resolveWith_of_valued {name : String} {s : Session}
    (h : name.toList.head? ≠ some '$' → ∀ level b, s.scope.lookup name = some (level, b) →
      ∃ v, b = .resolved v) :
    (resolveWith eval name).after s = s ∧
      ∀ e, (resolveWith eval name).outcome s = .error e → e.isReserved = false := by
  have hglobal : (global name).after s = s ∧
      ∀ e, (global name).outcome s = .error e → e.isReserved = false := by
    unfold outcome after global
    cases s.globals.get? name with
    | none => exact ⟨rfl, fun e he => Except.error.inj he ▸ rfl⟩
    | some v => exact ⟨rfl, nofun⟩
  by_cases hname : name.toList.head? = some '$'
  · rw [resolveWith_dollar hname]
    exact hglobal
  by_cases hempty : s.scope.isEmpty = true
  · have hrun : resolveWith eval name s = _ := resolveWith_outside hname hempty
    rw [outcome_of_error hrun, after_of_error hrun]
    exact ⟨rfl, fun e he => Except.error.inj he ▸ rfl⟩
  · have hrun : resolveWith eval name s = _ :=
      resolveWith_scoped hname (Bool.eq_false_iff.2 hempty)
    unfold outcome after at hglobal ⊢
    rw [hrun]
    cases hl : s.scope.lookup name with
    | none => exact hglobal
    | some found =>
        obtain ⟨level, b⟩ := found
        obtain ⟨v, rfl⟩ := h hname level b hl
        exact ⟨rfl, nofun⟩

end Environment

namespace Step.Watches

open Environment

variable {K : Session → Prop} {bad : Error → Prop} {rules : RuleSet} {eval : Expr → Step Value}
  (hw : Watches K bad)

include hw

theorem extract (format : ExtractFormat) (offset size : Nat) (m : Register) :
    Avoids K bad (extract format offset size m) := by
  cases format with
  | number =>
      unfold Environment.extract extractNumber
      cases Width.ofBytes? size with
      | none => exact avoids_throw (hw.not_bad rfl)
      | some width => exact avoids_bind (hw.reading _ _) fun _ => avoids_pure _
  | string => exact avoids_bind (hw.reading _ _) fun _ => avoids_pure _
  | stringz => exact avoids_bind (hw.readTerminated _ _) fun _ => avoids_pure _

theorem call (resolve : String → Step Value) (name : String) (args : List Value)
    (m : Register) : Avoids K bad (call ⟨rules, .builtins⟩ resolve name args m) := by
  unfold Environment.call
  cases hop : Registry.builtins.get? name with
  | none =>
      dsimp only
      exact avoids_throw (hw.not_bad rfl)
  | some op =>
      dsimp only
      refine avoids_bind ?_ fun _ => hw.builtins hop _ args m
      cases hc : op.signature.check name args with
      | ok u => exact avoids_pure u
      | error e => exact avoids_throw (hw.not_bad (isReserved_of_check hc))

/-- What is bad, an operand reports, or the lookup of the name. -/
theorem evaluateNode {e : Expr} (heval : ∀ x ∈ e.operands, Avoids K bad (eval x))
    (hname : ∀ name, e = .var name → Avoids K bad (resolveWith eval name)) :
    Avoids K bad (evaluateNode ⟨rules, .builtins⟩ eval e) := by
  cases e with
  | literal v => exact avoids_pure v
  | var name => exact hname name rfl
  | unary op e =>
      simp only [Expr.operands, List.forall_mem_singleton] at heval
      exact avoids_bind heval fun _ => hw.ofValue _
  | binary op l r =>
      simp only [Expr.operands, List.forall_mem_cons] at heval
      obtain ⟨hl, hr, -⟩ := heval
      cases op with
      | connective c =>
          refine avoids_bind hl fun _ => avoids_bind (hw.ofValue _) fun p => ?_
          split
          · exact avoids_pure _
          · exact avoids_bind hr fun _ => avoids_bind (hw.ofValue _) fun _ => avoids_pure _
      | arithmetic o | comparison o =>
          exact avoids_bind hl fun _ => avoids_bind hr fun _ => hw.ofValue _
  | index e i =>
      simp only [Expr.operands, List.forall_mem_cons] at heval
      exact avoids_bind heval.1 fun _ => avoids_bind heval.2.1 fun _ => hw.ofValue _
  | slice e i j =>
      simp only [Expr.operands, List.forall_mem_cons] at heval
      exact avoids_bind heval.1 fun _ => avoids_bind heval.2.1 fun _ =>
        avoids_bind heval.2.2.1 fun _ => hw.ofValue _
  | extract format o n m =>
      simp only [Expr.operands, List.forall_mem_cons] at heval
      exact avoids_bind heval.1 fun _ => avoids_bind (hw.ofValue _) fun _ =>
        avoids_bind heval.2.1 fun _ => avoids_bind (hw.ofValue _) fun _ =>
          hw.extract format _ _ m
  | call name args m =>
      exact avoids_bind (avoids_mapM heval) fun values => hw.call _ name values m

/-- A condition that is evaluated may be the last one. -/
theorem allHold {cs : List Expr} (heval : ∀ c ∈ cs, Avoids K bad (eval c)) :
    Avoids K bad (allHold eval cs) := by
  induction cs with
  | nil => exact avoids_pure true
  | cons c rest ih =>
      rw [List.forall_mem_cons] at heval
      refine avoids_bind heval.1 fun _ => avoids_bind (hw.ofValue _) fun p => ?_
      cases p with
      | true => exact ih heval.2
      | false => exact avoids_pure false

end Step.Watches

end RuleScan
