import RuleScan.Proofs.Evaluation.Builtin
import RuleScan.Proofs.Evaluation.Settling
import RuleScan.Proofs.Expr.Runnable
import RuleScan.Proofs.Rule.Inheritance

/-!
# Accepted rules cannot break the engine

An evaluator has to answer for everything: an operator that does not exist, a call with too few
arguments, a width that numbers do not have, a name outside all scopes, a rule that is not in
the set.  None of this can be brought about by a rule text that was accepted.  The errors that
remain are those of `Error.isFault`; the only one of them that shows a mistake in the rules
rather than in the file is a variable that needs itself.

The argument is a triple, `Safe`: a step that starts in a guarded session ends in one, and
either with a good value or with a fault.  A session is guarded when what its scope has yet to
evaluate is runnable, when its source fails with faults only, and when the failures recorded so
far are faults.

## Main results

* `safe_bind`, `safe_attempt`, `safe_nested` — how safe steps are put together.
* `safe_builtins` — a built-in operator is safe for as many arguments as it accepts.
* `safe_evaluateWithin`, `safe_evaluateRuleWithin` — evaluation is safe.
* `evaluateRule_isFault` — what the rules of an accepted text can fail with.
-/

namespace RuleScan

/-- The errors that the evaluation of accepted rules may end with. -/
def Error.isFault : Error → Bool
  | value _ | unresolvedVariable _ | tooDeep _ | circularDependency _ | noOutputDirectory
  | fileRead .. | fileWrite .. => true
  | _ => false

/-- A circular dependency is the only internal error among the faults. -/
theorem Error.exists_circularDependency {e : Error} (h : e.isFault = true)
    (hinternal : e.isInternal = true) : ∃ name, e = .circularDependency name := by
  cases e <;> simp_all [isFault, isInternal]

/-- What evaluation relies on: a number of frames with runnable expressions, a source that fails
with faults only, and failures that are faults beyond those of the origin. -/
structure Session.Guarded (origin : List Failure) (count : Nat) (s : Session) : Prop where
  frames : s.scope.frames.length = count
  bindings : ∀ f ∈ s.scope.frames, ∀ {name : String} {e : Expr},
    f.bindings.get? name = some (.unevaluated e) → e.IsRunnable Registry.builtins.signature?
  source : ∀ {offset length : Nat} {e : Error}, s.source.read offset length = .error e →
    e.isFault = true
  failures : ∃ new, s.effects.failures = origin ++ new ∧ ∀ f ∈ new, f.error.isFault = true

namespace Step

variable {α β : Type} {origin : List Failure} {count : Nat} {V : α → Prop} {W : β → Prop}

/-- An outcome that is a good value or a fault. -/
def Fine (V : α → Prop) : Except Error α → Prop
  | .ok a => V a
  | .error e => e.isFault = true

/-- A step that keeps the session guarded and ends with a good value or a fault. -/
def Safe (origin : List Failure) (count : Nat) (V : α → Prop) (t : Step α) : Prop :=
  Ensures (Session.Guarded origin count) t fun outcome s =>
    s.Guarded origin count ∧ Fine V outcome

/-! ## Sequences -/

theorem safe_pure {a : α} (h : V a) : Safe origin count V (pure a) :=
  ensures_pure fun _ hs => ⟨hs, h⟩

theorem safe_throw {e : Error} (h : e.isFault = true) :
    Safe origin count V (throw e : Step α) :=
  ensures_throw fun _ hs => ⟨hs, h⟩

theorem safe_bind {t : Step α} {f : α → Step β} (ht : Safe origin count V t)
    (hf : ∀ a, V a → Safe origin count W (f a)) : Safe origin count W (t >>= f) :=
  ensures_bind ht (fun a s hs => hf a hs.2 s hs.1) fun _ _ hs => hs

theorem Safe.weaken {V' : α → Prop} {t : Step α} (ht : Safe origin count V t)
    (h : ∀ a, V a → V' a) : Safe origin count V' t := by
  intro s hs
  refine (ht s hs).imp_right fun hfine => ?_
  cases ho : t.outcome s with
  | ok a =>
      rw [ho] at hfine
      exact h a hfine
  | error e =>
      rw [ho] at hfine
      exact hfine

theorem safe_ofExcept {r : Except Error α} (h : Fine V r) : Safe origin count V (ofExcept r) := by
  cases r with
  | ok a => exact safe_pure h
  | error e => exact safe_throw h

theorem safe_ofValue {r : Except ValueError α} (h : ∀ a, r = .ok a → V a) :
    Safe origin count V (ofValue r) := by
  cases r with
  | ok a => exact safe_pure (h a rfl)
  | error e => exact safe_throw rfl

theorem safe_attempt {t : Step α} (ht : Safe origin count V t) :
    Safe origin count (Fine V) t.attempt := by
  intro s hs
  rw [outcome_of_ok (attempt_eq t s), after_of_ok (attempt_eq t s)]
  exact ht s hs

theorem safe_view {f : Session → α} (h : ∀ s, s.Guarded origin count → V (f s)) :
    Safe origin count V (view f) := fun s hs => ⟨hs, h s hs⟩

theorem safe_change {f : Session → Session}
    (h : ∀ s, s.Guarded origin count → (f s).Guarded origin count) :
    Safe origin count (fun _ => True) (change f) := fun s hs => ⟨h s hs, trivial⟩

/-- The level does not matter. -/
theorem safe_nested {limit : Nat} {t : Step α} (ht : Safe origin count V t) :
    Safe origin count V (nested limit t) := by
  refine ensures_nested (fun s hs => ⟨hs, rfl⟩) fun s hs => ?_
  obtain ⟨hguarded, hfine⟩ := ht { s with depth := s.depth + 1 }
    ⟨hs.frames, hs.bindings, hs.source, hs.failures⟩
  exact ⟨⟨hguarded.frames, hguarded.bindings, hguarded.source, hguarded.failures⟩, hfine⟩

theorem safe_mapM {f : α → Step β} {as : List α} (hf : ∀ a ∈ as, Safe origin count W (f a)) :
    Safe origin count (fun bs => bs.length = as.length) (as.mapM f) := by
  induction as with
  | nil => exact safe_pure rfl
  | cons a rest ih =>
      rw [List.forall_mem_cons] at hf
      rw [List.mapM_cons]
      exact safe_bind hf.1 fun b _ => safe_bind (ih hf.2) fun bs hbs =>
        safe_pure (by simp [hbs])

/-! ## Access to the session -/

theorem safe_read (offset length : Nat) :
    Safe origin count (fun _ => True) (read offset length) := by
  intro s hs
  unfold outcome after read
  cases hr : s.source.read offset length with
  | ok bytes => exact ⟨hs, trivial⟩
  | error e => exact ⟨hs, hs.source hr⟩

theorem safe_readTerminated (offset limit : Nat) :
    Safe origin count (fun _ => True) (readTerminated offset limit) := by
  intro s hs
  have hfine : Fine (fun _ => True) (s.source.readTerminated offset limit) := by
    unfold Source.readTerminated
    split
    · exact rfl
    · cases hr : s.source.read offset (min limit (s.source.size - offset)) with
      | ok bytes => exact trivial
      | error e => exact hs.source hr
  unfold outcome after readTerminated
  cases hr : s.source.readTerminated offset limit with
  | ok bytes => exact ⟨hs, trivial⟩
  | error e =>
      rw [hr] at hfine
      exact ⟨hs, hfine⟩

theorem safe_global (name : String) : Safe origin count (fun _ => True) (global name) := by
  intro s hs
  unfold outcome after global
  cases s.globals.get? name with
  | none => exact ⟨hs, rfl⟩
  | some v => exact ⟨hs, trivial⟩

theorem safe_log (message : String) : Safe origin count (fun _ => True) (log message) :=
  safe_change fun _ hs => ⟨hs.frames, hs.bindings, hs.source, hs.failures⟩

theorem safe_warn (message : String) : Safe origin count (fun _ => True) (warn message) :=
  safe_change fun _ hs => ⟨hs.frames, hs.bindings, hs.source, hs.failures⟩

/-- Recording a fault keeps the recorded failures faults. -/
theorem safe_recordFailure (rules : RuleSet) (rule : Option RuleId) {e : Error}
    (he : e.isFault = true) : Safe origin count (fun _ => True) (recordFailure rules rule e) := by
  refine safe_change fun s hs => ⟨hs.frames, hs.bindings, hs.source, ?_⟩
  obtain ⟨new, hnew, hfaults⟩ := hs.failures
  refine ⟨new ++ [⟨rule.bind rules.idAt?, e⟩], ?_, fun f hf => ?_⟩
  · simp [Session.withEffects, hnew]
  · rcases List.mem_append.1 hf with hf | hf
    · exact hfaults f hf
    · rw [List.mem_singleton.1 hf]
      exact he

theorem safe_recordCurrent (rules : RuleSet) {e : Error} (he : e.isFault = true) :
    Safe origin count (fun _ => True) (recordCurrent rules e) := fun s hs =>
  safe_recordFailure rules s.scope.current? he s hs

theorem safe_discard (p : Path) : Safe origin count (fun _ => True) (discard p) := by
  refine safe_change fun s hs => ?_
  generalize (s.files.removeFile p).toOption.getD s.files = files
  exact ⟨hs.frames, hs.bindings, hs.source, hs.failures⟩

theorem safe_create (suggestion : String) :
    Safe origin count (fun _ => True) (create suggestion) := by
  intro s hs
  unfold outcome after create
  cases s.output with
  | none => exact ⟨hs, rfl⟩
  | some out =>
      unfold putOutput OutputDir.create
      dsimp only
      cases s.files.createFile (out.newName s.files suggestion).1 <;>
        exact ⟨⟨hs.frames, hs.bindings, hs.source, hs.failures⟩, by trivial⟩

theorem safe_writeFile (p : Path) (content : Bytes) :
    Safe origin count (fun _ => True) (writeFile p content) := by
  intro s hs
  unfold outcome after writeFile
  cases s.files.writeFile p content with
  | ok files => exact ⟨⟨hs.frames, hs.bindings, hs.source, hs.failures⟩, trivial⟩
  | error cause => exact ⟨hs, rfl⟩

end Step

/-! ## Built-in operators -/

namespace Builtin

open Step

variable {origin : List Failure} {count : Nat}

theorem safe_orDiscard (p : Path) {t : Step Unit} (ht : Safe origin count (fun _ => True) t) :
    Safe origin count (fun _ => True) (orDiscard p t) := by
  refine safe_bind (safe_attempt ht) fun r hr => ?_
  cases r with
  | ok _ => exact safe_pure trivial
  | error e => exact safe_bind (safe_discard p) fun _ _ => safe_throw hr

theorem safe_readRange (start stop : Nat) :
    Safe origin count (fun _ => True) (readRange start stop) := by
  fun_induction readRange start stop with
  | case1 start hlt length ih =>
      exact safe_bind (safe_read _ _) fun _ _ => safe_bind ih fun _ _ => safe_pure trivial
  | case2 start hge => exact safe_pure trivial

theorem safe_carveRanges (name : String) (ranges : List (Nat × Nat)) :
    Safe origin count (fun _ => True) (carveRanges name ranges) := by
  induction ranges with
  | nil => exact safe_pure trivial
  | cons range rest ih =>
      refine safe_bind (safe_create name) fun p _ => ?_
      refine safe_bind (safe_orDiscard p ?_) fun _ _ => ih
      exact safe_bind (safe_readRange _ _) fun _ _ => safe_writeFile p _

theorem safe_len (host : Host) {args : List Value} (m : Register) (hargs : args ≠ []) :
    Safe origin count (fun _ => True) (len.run host args m) := by
  cases args with
  | nil => exact absurd rfl hargs
  | cons v rest =>
      exact safe_bind (V := fun _ => True) (safe_ofValue fun _ _ => trivial) fun _ _ =>
        safe_pure trivial

theorem safe_carve (host : Host) {args : List Value} (m : Register) (hargs : args ≠ []) :
    Safe origin count (fun _ => True) (carve.run host args m) := by
  cases args with
  | nil => exact absurd rfl hargs
  | cons v rest =>
      refine safe_bind (V := fun _ => True) (safe_ofValue fun _ _ => trivial) fun name _ => ?_
      refine safe_bind (V := fun _ => True) (safe_ofValue fun _ _ => trivial) fun positions _ => ?_
      refine safe_bind (V := fun _ => True) (safe_view fun _ _ => trivial) fun size _ => ?_
      cases badRange? size (adjacent positions) with
      | some range => exact safe_throw rfl
      | none => exact safe_bind (safe_carveRanges _ _) fun _ _ => safe_pure trivial

theorem safe_write (host : Host) {args : List Value} (m : Register) (hargs : args.length = 2) :
    Safe origin count (fun _ => True) (write.run host args m) := by
  match args, hargs with
  | [v, w], _ =>
      refine safe_bind (V := fun _ => True) (safe_ofValue fun _ _ => trivial) fun name _ => ?_
      refine safe_bind (V := fun _ => True) (safe_ofValue fun _ _ => trivial) fun bytes _ => ?_
      refine safe_bind (safe_create _) fun p _ => ?_
      exact safe_bind (safe_orDiscard p (safe_writeFile p bytes)) fun _ _ => safe_pure trivial

/-- A built-in operator never misses an argument that its signature asks for. -/
theorem safe_builtins {name : String} {op : Operator} (h : Registry.builtins.get? name = some op)
    (host : Host) {args : List Value} (m : Register)
    (hargs : op.signature.accepts args.length = true) :
    Safe origin count (fun _ => True) (op.run host args m) := by
  rcases builtin_cases h with rfl | rfl | rfl | rfl | rfl
  · refine safe_len host m ?_
    rintro rfl
    cases hargs
  · exact safe_bind (safe_log _) fun _ _ => safe_pure trivial
  · exact safe_bind (safe_warn _) fun _ _ => safe_pure trivial
  · refine safe_carve host m ?_
    rintro rfl
    cases hargs
  · exact safe_write host m (of_decide_eq_true hargs)

end Builtin

namespace Environment

open Step

variable {origin : List Failure} {count : Nat}

/-! ## Names -/

/-- A binding may be overwritten by anything that is no expression, or is a runnable one. -/
theorem guarded_replaceAt {s : Session} (hs : s.Guarded origin count) (level : Nat)
    (name : String) {b : Binding}
    (hb : ∀ e, b = .unevaluated e → e.IsRunnable Registry.builtins.signature?) :
    Session.Guarded origin count { s with scope := s.scope.replaceAt level name b } := by
  refine ⟨?_, fun f hf x e he => ?_, hs.source, hs.failures⟩
  · exact (Scope.length_replaceIn level name b s.scope.frames).trans hs.frames
  · obtain heq | ⟨g, hg, hget⟩ := Scope.get?_of_mem_replaceIn hf he
    · exact hb e heq.symm
    · exact hs.bindings g hg hget

variable {eval : Expr → Step Value}

/-- The evaluator of the next level is safe for runnable expressions. -/
def SafeEvaluator (origin : List Failure) (count : Nat) (eval : Expr → Step Value) : Prop :=
  ∀ e, e.IsRunnable Registry.builtins.signature? →
    Safe origin count (fun v => ∀ w, e = .literal w → v = w) (eval e)

theorem SafeEvaluator.safe (h : SafeEvaluator origin count eval) {e : Expr}
    (he : e.IsRunnable Registry.builtins.signature?) :
    Safe origin count (fun _ => True) (eval e) :=
  (h e he).weaken fun _ _ => trivial

theorem safe_settle (h : SafeEvaluator origin count eval) (level : Nat) (name : String)
    {e : Expr} (he : e.IsRunnable Registry.builtins.signature?) :
    Safe origin count (fun _ => True) (settle eval level name e) := by
  refine safe_bind (safe_change fun s hs => guarded_replaceAt hs level name ?_) fun _ _ => ?_
  · exact fun _ hb => nomatch hb
  · refine safe_bind (safe_attempt (h.safe he)) fun r hr => ?_
    cases r with
    | ok v =>
        refine safe_bind (safe_change fun s hs => guarded_replaceAt hs level name ?_) fun _ _ =>
          safe_pure trivial
        exact fun _ hb => nomatch hb
    | error cause =>
        refine safe_bind (safe_change fun s hs => guarded_replaceAt hs level name ?_) fun _ _ =>
          safe_throw hr
        rintro e' ⟨⟩
        exact he

/-- Inside a rule a name is never outside all scopes. -/
theorem safe_resolveWith (h : SafeEvaluator origin count eval) (hcount : 0 < count)
    (name : String) : Safe origin count (fun _ => True) (resolveWith eval name) := by
  unfold resolveWith
  split
  · exact safe_global name
  · intro s hs
    have hne : s.scope.isEmpty = false := by
      unfold Scope.isEmpty
      cases hf : s.scope.frames with
      | nil => simp [← hs.frames, hf] at hcount
      | cons f outer => rfl
    show Session.Guarded origin count (after (if s.scope.isEmpty then _ else _) s) ∧
      Fine _ (outcome (if s.scope.isEmpty then _ else _) s)
    rw [hne]
    simp only [Bool.false_eq_true, if_false]
    cases hl : s.scope.lookup name with
    | none => exact safe_global name s hs
    | some found =>
        obtain ⟨level, b⟩ := found
        cases b with
        | resolved v => exact ⟨hs, trivial⟩
        | inProgress => exact ⟨hs, rfl⟩
        | unevaluated e =>
            obtain ⟨f, hf, hget⟩ := Scope.exists_of_lookupIn hl
            exact safe_settle h level name (hs.bindings f hf hget) s hs

/-! ## Nodes -/

theorem safe_extractNumber (offset : Nat) (width : Width) (m : Register) :
    Safe origin count (fun _ => True) (extract .number offset width.bytes m) := by
  unfold extract extractNumber
  rw [Width.ofBytes?_bytes]
  exact safe_bind (safe_read _ _) fun _ _ => safe_pure trivial

theorem safe_extractBytes {format : ExtractFormat} (hformat : format ≠ .number)
    (offset size : Nat) (m : Register) :
    Safe origin count (fun _ => True) (extract format offset size m) := by
  cases format with
  | number => exact absurd rfl hformat
  | string => exact safe_bind (safe_read _ _) fun _ _ => safe_pure trivial
  | stringz => exact safe_bind (safe_readTerminated _ _) fun _ _ => safe_pure trivial

theorem asOffset_width (width : Width) :
    (Value.number (.literal width.bytes)).asOffset = .ok width.bytes := by
  cases width <;> rfl

/-- A call that fits the signature of its operator finds it, and gives it enough arguments. -/
theorem safe_call (rules : RuleSet) (resolve : String → Step Value) {name : String}
    {signature : Signature} (hname : Registry.builtins.signature? name = some signature)
    {args : List Value} (hargs : signature.accepts args.length = true) (m : Register) :
    Safe origin count (fun _ => True) (call ⟨rules, .builtins⟩ resolve name args m) := by
  obtain ⟨op, hop, rfl⟩ := Option.map_eq_some_iff.1 hname
  unfold call
  simp only [hop]
  refine safe_bind (V := fun _ => True) (safe_ofExcept ?_) fun _ _ =>
    Builtin.safe_builtins hop _ m hargs
  unfold Signature.check
  rw [if_pos hargs]
  cases op.signature.misfit? 0 args <;> trivial

/-- One case for each form of a runnable expression. -/
theorem safe_evaluateNode (rules : RuleSet) (h : SafeEvaluator origin count eval)
    (hcount : 0 < count) : SafeEvaluator origin count (evaluateNode ⟨rules, .builtins⟩ eval) := by
  intro e he
  cases he with
  | literal v =>
      refine safe_pure fun w hw => ?_
      cases hw
      rfl
  | var name => exact (safe_resolveWith h hcount name).weaken fun _ _ _ hw => nomatch hw
  | unary he =>
      exact safe_bind (h.safe he) fun _ _ => safe_ofValue fun _ _ _ hw => nomatch hw
  | @binary op l r hl hr =>
      cases op with
      | connective c =>
          refine safe_bind (h.safe hl) fun _ _ => ?_
          refine safe_bind (V := fun _ => True) (safe_ofValue fun _ _ => trivial) fun p _ => ?_
          split
          · exact safe_pure fun _ hw => nomatch hw
          · refine safe_bind (h.safe hr) fun _ _ => ?_
            exact safe_bind (V := fun _ => True) (safe_ofValue fun _ _ => trivial) fun _ _ =>
              safe_pure fun _ hw => nomatch hw
      | arithmetic o | comparison o =>
          exact safe_bind (h.safe hl) fun _ _ => safe_bind (h.safe hr) fun _ _ =>
            safe_ofValue fun _ _ _ hw => nomatch hw
  | index he hi =>
      exact safe_bind (h.safe he) fun _ _ => safe_bind (h.safe hi) fun _ _ =>
        safe_ofValue fun _ _ _ hw => nomatch hw
  | slice he hi hj =>
      exact safe_bind (h.safe he) fun _ _ => safe_bind (h.safe hi) fun _ _ =>
        safe_bind (h.safe hj) fun _ _ => safe_ofValue fun _ _ _ hw => nomatch hw
  | number width ho =>
      refine safe_bind (h.safe ho) fun _ _ => ?_
      refine safe_bind (V := fun _ => True) (safe_ofValue fun _ _ => trivial) fun offset _ => ?_
      refine safe_bind (h _ (.literal _)) fun v hv => ?_
      rw [hv _ rfl, asOffset_width]
      refine safe_bind (V := fun size => size = width.bytes) (safe_pure rfl) fun size hsize => ?_
      rw [hsize]
      exact (safe_extractNumber offset width _).weaken fun _ _ _ hw => nomatch hw
  | bytes hformat ho hs =>
      refine safe_bind (h.safe ho) fun _ _ => ?_
      refine safe_bind (V := fun _ => True) (safe_ofValue fun _ _ => trivial) fun offset _ => ?_
      refine safe_bind (h.safe hs) fun _ _ => ?_
      refine safe_bind (V := fun _ => True) (safe_ofValue fun _ _ => trivial) fun size _ => ?_
      exact (safe_extractBytes hformat offset size _).weaken fun _ _ _ hw => nomatch hw
  | call hname haccepts hargs =>
      refine safe_bind (safe_mapM fun a ha => h.safe (hargs a ha)) fun values hlength => ?_
      exact (safe_call rules _ hname (hlength ▸ haccepts) _).weaken fun _ _ _ hw => nomatch hw

/-- The induction is on the budget: a node is evaluated with the evaluator of the next level. -/
theorem safe_evaluateWithin (rules : RuleSet) (limit budget : Nat) (hcount : 0 < count) :
    SafeEvaluator origin count (evaluateWithin ⟨rules, .builtins⟩ limit budget) := by
  induction budget with
  | zero => exact fun _ _ => safe_throw rfl
  | succ budget ih => exact fun e he => safe_nested (safe_evaluateNode rules ih hcount e he)

/-! ## Rules -/

section Rules

variable (h : SafeEvaluator origin count eval)

include h

theorem safe_allHold {cs : List Expr}
    (hcs : ∀ c ∈ cs, c.IsRunnable Registry.builtins.signature?) :
    Safe origin count (fun _ => True) (allHold eval cs) := by
  induction cs with
  | nil => exact safe_pure trivial
  | cons c rest ih =>
      rw [List.forall_mem_cons] at hcs
      refine safe_bind (h.safe hcs.1) fun _ _ => ?_
      refine safe_bind (V := fun _ => True) (safe_ofValue fun _ _ => trivial) fun p _ => ?_
      cases p with
      | true => exact ih hcs.2
      | false => exact safe_pure trivial

theorem safe_forceAll (hcount : 0 < count) (names : List String) :
    Safe origin count (fun _ => True) (forceAll eval names) := by
  induction names with
  | nil => exact safe_pure trivial
  | cons name rest ih => exact safe_bind (safe_resolveWith h hcount name) fun _ _ => ih

theorem safe_runActions (rules : RuleSet) {as : List RuleAction}
    (has : ∀ a ∈ as, a.expr.IsRunnable Registry.builtins.signature?) :
    Safe origin count (fun _ => True) (runActions ⟨rules, .builtins⟩ eval as) := by
  induction as with
  | nil => exact safe_pure trivial
  | cons a rest ih =>
      rw [List.forall_mem_cons] at has
      refine safe_bind (safe_attempt (h.safe has.1)) fun r hr => ?_
      cases r with
      | ok v =>
          dsimp only
          split
          · exact safe_pure trivial
          · exact ih has.2
      | error e =>
          dsimp only
          split
          · exact ih has.2
          · exact safe_bind (safe_recordCurrent rules hr) fun _ _ => ih has.2

end Rules

theorem safe_runChildren (rules : RuleSet) {child : RuleId → Step (Option Match)}
    {is : List RuleId} (hchild : ∀ i ∈ is, Safe origin count (fun _ => True) (child i)) :
    Safe origin count (fun _ => True) (runChildren ⟨rules, .builtins⟩ child is) := by
  induction is with
  | nil => exact safe_pure trivial
  | cons i rest ih =>
      rw [List.forall_mem_cons] at hchild
      refine safe_bind (safe_attempt hchild.1) fun r hr => ?_
      match r with
      | .ok (some m) => exact safe_bind (ih hchild.2) fun _ _ => safe_pure trivial
      | .ok none => exact safe_bind (ih hchild.2) fun _ _ => safe_pure trivial
      | .error e =>
          exact safe_bind (safe_recordFailure rules _ hr) fun _ _ =>
            safe_bind (ih hchild.2) fun _ _ => safe_pure trivial

/-- The rules of a set, and their children, are there and have runnable expressions. -/
structure IsRunnableSet (rules : RuleSet) : Prop where
  exprs : ∀ {i : RuleId} {r : Rule}, rules.rules[i]? = some r →
    ∀ e ∈ r.exprs, e.IsRunnable Registry.builtins.signature?
  children : ∀ {i : RuleId} {r : Rule}, rules.rules[i]? = some r → ∀ c ∈ r.children, c < rules.size

theorem safe_runRule {rules : RuleSet} (hrules : IsRunnableSet rules)
    (h : SafeEvaluator origin count eval) (hcount : 0 < count)
    {child : RuleId → Step (Option Match)}
    (hchild : ∀ i < rules.size, Safe origin count (fun _ => True) (child i)) {i : RuleId}
    {r : Rule} (hr : rules.rules[i]? = some r) :
    Safe origin count (fun _ => True) (runRule ⟨rules, .builtins⟩ eval child i r) := by
  have hexprs := hrules.exprs hr
  refine safe_bind (safe_allHold h fun c hc => hexprs c (Rule.mem_exprs.2 (.inr (.inl hc))))
    fun held _ => ?_
  cases held with
  | false => exact safe_pure trivial
  | true =>
      refine safe_bind (safe_forceAll h hcount _) fun _ _ => ?_
      refine safe_bind (V := fun _ => True) ?_ fun _ _ => safe_pure trivial
      refine safe_bind (V := fun _ => True) (safe_view fun _ _ => trivial) fun _ _ => ?_
      refine safe_bind (safe_runActions h rules fun a ha =>
        hexprs a.expr (Rule.mem_exprs.2 (.inr (.inr ⟨a, ha, rfl⟩)))) fun _ _ => ?_
      exact safe_bind (safe_runChildren rules fun c hc => hchild c (hrules.children hr c hc))
        fun _ _ => safe_pure trivial

/-- In a frame of its own a rule is evaluated with one frame more. -/
theorem safe_inFrame {α : Type} {V : α → Prop} {i : RuleId} {r : Rule} {t : Step α}
    (hexprs : ∀ e ∈ r.exprs, e.IsRunnable Registry.builtins.signature?)
    (ht : Safe origin (count + 1) V t) : Safe origin count V (inFrame i r t) := by
  intro s hs
  have hpushed : Session.Guarded origin (count + 1)
      { s with scope := s.scope.push i r.vars.entries } := by
    obtain ⟨f, hframes, hget⟩ := s.scope.exists_frame_push i r.vars
    refine ⟨?_, fun g hg name e he => ?_, hs.source, hs.failures⟩
    · rw [hframes, List.length_cons, hs.frames]
    · rw [hframes] at hg
      rcases List.mem_cons.1 hg with rfl | hg
      · rw [hget] at he
        obtain ⟨e', he', heq⟩ := Option.map_eq_some_iff.1 he
        cases heq
        exact hexprs _ (Rule.mem_exprs.2 (.inl (List.mem_map.2 ⟨_, Table.mem_of_get? he', rfl⟩)))
      · exact hs.bindings g hg he
  obtain ⟨hguarded, hfine⟩ := ht _ hpushed
  have hpopped : Session.Guarded origin count
      { t.after { s with scope := s.scope.push i r.vars.entries } with
        scope := (t.after { s with scope := s.scope.push i r.vars.entries }).scope.pop } :=
    ⟨by simp [Scope.pop, hguarded.frames],
      fun f hf => hguarded.bindings f (List.mem_of_mem_tail hf), hguarded.source,
      hguarded.failures⟩
  unfold inFrame outcome after at *
  rw [run_changed, bind_of_ok (attempt_eq _ _), run_changed]
  unfold outcome after
  cases hrun : t { s with scope := s.scope.push i r.vars.entries } with
  | ok a s' =>
      rw [hrun] at hpopped hfine
      exact ⟨hpopped, hfine⟩
  | error e s' =>
      rw [hrun] at hpopped hfine
      exact ⟨hpopped, hfine⟩

theorem safe_evaluateRuleWithin {rules : RuleSet} (hrules : IsRunnableSet rules)
    (limit budget : Nat) {i : RuleId} (hi : i < rules.size) :
    Safe origin count (fun _ => True)
      (evaluateRuleWithin ⟨rules, .builtins⟩ limit budget i) := by
  induction budget generalizing i count with
  | zero => exact safe_throw rfl
  | succ budget ih =>
      have hr : rules.rules[i]? = some rules.rules[i] := Array.getElem?_eq_getElem hi
      rw [evaluateRuleWithin_succ _ limit budget hr]
      refine safe_nested (safe_inFrame (hrules.exprs hr) ?_)
      exact safe_runRule hrules (safe_evaluateWithin rules limit budget (Nat.succ_pos count))
        (Nat.succ_pos count) (fun c hc => ih hc) hr

/-! ## Accepted rules -/

/-- What is linked is runnable when it was read with the signatures of the built-in operators. -/
theorem isRunnableSet_of_linked {sources : List (String × String)} {t : RuleSet}
    (h : (RuleSet.collect Registry.builtins.signature? sources).linked = .ok t) :
    IsRunnableSet t := by
  have ht := RuleSet.isLinked_of_linked (RuleSet.isCollection_isFolded _ sources) h
  have hraw : (RuleSet.collect Registry.builtins.signature? sources).IsCollection
      (Expr.IsRunnable Registry.builtins.signature?) :=
    RuleSet.isCollection_collect (Q := Expr.IsRunnable Registry.builtins.signature?)
      (fun _ => ⟨(Expr.constructs_isRunnable _).boundedExpression,
        fun he hsimplify => he.simplify hsimplify⟩) sources
  constructor
  · intro i r hr e he
    obtain ⟨r', e', hr', he', rfl⟩ := ht.exists_of_mem_exprs hr he
    exact ((hraw.raw hr').exprs e' he').bindMetadata r.metadata
  · intro i r hr c hc
    rw [ht.children hr, List.mem_filter, List.mem_range] at hc
    exact hc.1

/-- A file fails with faults only. -/
theorem isFault_of_read_claiming {name : String} {size : Nat} {bytes : Bytes}
    {offset length : Nat} {e : Error}
    (h : (Source.claiming name size bytes).read offset length = .error e) : e.isFault = true := by
  simp only [Source.claiming] at h
  split at h
  · split at h
    · cases h
    · cases h
      rfl
  · cases h
    rfl

/-- Whatever the file, the globals and the files around it, evaluating a rule of an accepted
text fails with faults only, and records only faults; among these only a circular dependency
is internal. -/
theorem evaluateRule_isFault {source text : String} {t : RuleSet}
    (h : RuleSet.parse Registry.builtins.signature? source text = .ok t) {i : RuleId}
    (hi : i < t.size) (limit : Nat) (s : Session) (name : String) (size : Nat) (bytes : Bytes) :
    let start := { s with scope := ∅, source := .claiming name size bytes }
    (∀ e, (evaluateRule ⟨t, .builtins⟩ limit i).outcome start = .error e → e.isFault = true) ∧
    (∃ new, ((evaluateRule ⟨t, .builtins⟩ limit i).after start).effects.failures =
        s.effects.failures ++ new ∧
      ∀ f ∈ new, f.error.isFault = true) ∧
    ∀ e : Error, e.isFault = true → e.isInternal = true → ∃ name, e = .circularDependency name := by
  intro start
  have hrules := isRunnableSet_of_linked (RuleSet.linked_collect_of_parse h)
  have hstart : start.Guarded s.effects.failures 0 :=
    ⟨rfl, (fun f hf => nomatch hf), isFault_of_read_claiming, [], (List.append_nil _).symm,
      fun f hf => nomatch hf⟩
  obtain ⟨hguarded, hfine⟩ :=
    safe_evaluateRuleWithin hrules limit (start.room limit) hi start hstart
  refine ⟨fun e he => ?_, hguarded.failures, fun _ => Error.exists_circularDependency⟩
  have hfine : Fine _ ((evaluateRule ⟨t, .builtins⟩ limit i).outcome start) := hfine
  rw [he] at hfine
  exact hfine

/-- A rule with an extract, a condition and an action. -/
def loggingText : String :=
  "rule r \x7b var x = Short(0); if x == Len($name); Log(x, y); \x7d"

/-- Such a rule, evaluated against an empty file. -/
theorem evaluateRule_isFault_logging :
    ∃ t, RuleSet.parse Registry.builtins.signature? "rules" loggingText = .ok t ∧ 0 < t.size ∧
      ∀ e, (evaluateRule ⟨t, .builtins⟩ 512 0).outcome
        { (default : Session) with scope := ∅, source := .claiming "empty" 0 [] } = .error e →
        e.isFault = true := by
  have hcomputed : (RuleSet.parse Registry.builtins.signature? "rules"
      loggingText).toOption.map RuleSet.size = some 1 := by
    decide +kernel
  obtain ⟨t, ht, hsize⟩ := Option.map_eq_some_iff.1 hcomputed
  have hparse := ok_of_toOption ht
  exact ⟨t, hparse, hsize ▸ Nat.one_pos,
    (evaluateRule_isFault hparse (hsize ▸ Nat.one_pos) 512 default "empty" 0 []).1⟩

end Environment

end RuleScan
