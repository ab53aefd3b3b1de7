import RuleScan.Proofs.Evaluation.Builtin
import RuleScan.Proofs.Evaluation.Invariant
import RuleScan.Proofs.Evaluation.Running

/-!
# Accounting for actions and failures

An instance of a rule evaluates its conditions, then its variables, then its actions and then its
children.  Each of these parts comes to something or fails, and the instance goes on or not.
What was evaluated is told by a list of events (`Happens`), one for each part in the order in
which they were evaluated, each starting where the one before it ended.  Which parts these are
depends on nothing but what they came to (`Course`).

So the failures that an instance records can be read off its events: those recorded while a part
was evaluated, and then the failure of the part itself if it is one that the instance records.
Operators could record failures too; those that do not leave only the failures of the instance
and of the instances of its children.

## Main results

* `follows_invariant` — evaluation takes back no failure and comes back to its frames.
* `Happens.failures` — the failures recorded are those of the events.
* `runActions_events`, `runChildren_events` — the actions up to the first that stops the others,
  and all children.
* `evaluateRule_course` — an instance of a rule takes its course, and all failures are accounted
  for.
-/

namespace RuleScan

/-! ## What operators leave alone -/

/-- The second session is on the same level and in frames of the same rules, and all failures of
the first are among its own, in the same place. -/
structure Session.Follows (s t : Session) : Prop where
  depth : t.depth = s.depth
  rules : t.scope.frames.map Frame.rule = s.scope.frames.map Frame.rule
  failures : s.effects.failures <+: t.effects.failures

/-- No failure was recorded or taken back. -/
def Session.SameFailures (s t : Session) : Prop := t.effects.failures = s.effects.failures

/-- Operators lead from a session to one that is related to it, as long as looking names up
does. -/
def Registry.Respects (operators : Registry) (R : Session → Session → Prop) : Prop :=
  ∀ name op, operators.get? name = some op → ∀ (host : Host) (args : List Value) (m : Register),
    (∀ x s, R s ((host.resolve x).after s)) → ∀ s, R s ((op.run host args m).after s)

theorem Session.Follows.current? {s t : Session} (h : s.Follows t) :
    t.scope.current? = s.scope.current? := by
  unfold Scope.current?
  rw [← List.head?_map, ← List.head?_map, h.rules]

theorem Registry.respects_builtins_follows : builtins.Respects Session.Follows := by
  intro name op hop host args m _ s
  have hview := Builtin.sameView_builtins hop host args m s
  have hfailures := Builtin.failures_builtins hop host args m s
  exact ⟨hview.depth, by rw [hview.scope], hfailures.symm ▸ List.prefix_rfl⟩

theorem Registry.respects_builtins_sameFailures : builtins.Respects Session.SameFailures :=
  fun _ _ hop host args m _ s => Builtin.failures_builtins hop host args m s

/-- Adds failures at the end. -/
def Session.recording (s : Session) (failures : List Failure) : Session :=
  s.withEffects fun e => { e with failures := e.failures ++ failures }

@[simp] theorem Session.recording_nil (s : Session) : s.recording [] = s := by
  simp [recording, withEffects]

@[simp] theorem Session.failures_recording (s : Session) (fs : List Failure) :
    (s.recording fs).effects.failures = s.effects.failures ++ fs := rfl

theorem Session.follows_recording (s : Session) (fs : List Failure) : s.Follows (s.recording fs) :=
  ⟨rfl, rfl, List.prefix_append _ _⟩

/-! ## Events -/

/-- The parts that a rule is made of. -/
inductive Part where
  | condition (e : Expr)
  | var (name : String)
  | action (a : RuleAction)
  | child (i : RuleId)

/-- What a part of a rule comes to. -/
inductive Answer where
  | truth (b : Bool)
  | value (v : Value)
  | found (m : Option Match)

/-- A part that was evaluated, how that ended, and the failures recorded meanwhile. -/
structure Event where
  part : Part
  outcome : Except Error Answer
  inside : List Failure

namespace Event

/-- A condition is not fulfilled. -/
def Refuses (x : Event) : Prop := x.outcome ≠ .ok (.truth true)

/-- The part could not be evaluated. -/
def Fails (x : Event) : Prop := ∃ e, x.outcome = .error e

/-- An action succeeds that stops the others when it does. -/
def Stops (x : Event) : Prop := ∃ a v, x.part = .action a ∧ a.mode = .stop ∧ x.outcome = .ok v

/-- The match of a child that matched. -/
def match? (x : Event) : Option Match :=
  match x.outcome with
  | .ok (.found m) => m
  | _ => none

/-- What the instance of a rule records of a part itself: the failure of an action, unless it is
ignored and not internal, and the failure of a child. -/
def recorded (rules : RuleSet) (r : Rule) (x : Event) : List Failure :=
  match x.part, x.outcome with
  | .action a, .error e =>
    if a.mode = .ignore ∧ e.isInternal = false then [] else [⟨some r.id, e⟩]
  | .child i, .error e => [⟨rules.idAt? i, e⟩]
  | _, _ => []

end Event

/-- The events are those of the parts in order, up to the first that ends the sequence. -/
inductive Covers (ends : Event → Prop) : List Part → List Event → Prop where
  | nil : Covers ends [] []
  | more {x : Event} {parts : List Part} {xs : List Event} :
      ¬ ends x → Covers ends parts xs → Covers ends (x.part :: parts) (x :: xs)
  | last {x : Event} {parts : List Part} : ends x → Covers ends (x.part :: parts) [x]

/-- All parts were evaluated, and none of them ended the sequence. -/
structure Passes (ends : Event → Prop) (parts : List Part) (xs : List Event) : Prop where
  parts : xs.map Event.part = parts
  goes : ∀ x ∈ xs, ¬ ends x

theorem Passes.nil {ends : Event → Prop} : Passes ends [] [] := ⟨rfl, by simp⟩

theorem Passes.cons {ends : Event → Prop} {parts : List Part} {x : Event} {xs : List Event}
    (hx : ¬ ends x) (h : Passes ends parts xs) : Passes ends (x.part :: parts) (x :: xs) :=
  ⟨by rw [List.map_cons, h.parts], List.forall_mem_cons.2 ⟨hx, h.goes⟩⟩

/-- The parts of a rule that an instance of it evaluates, and what the instance comes to: it is
rejected, it fails, or it matches. -/
inductive Course (i : RuleId) (r : Rule) : List Event → Except Error (Option Match) → Prop where
  | rejected {xs : List Event} {x : Event} :
      Covers Event.Refuses (r.conditions.map .condition) xs →
      x ∈ xs → x.outcome = .ok (.truth false) → Course i r xs (.ok none)
  | conditionFails {xs : List Event} {x : Event} {e : Error} :
      Covers Event.Refuses (r.conditions.map .condition) xs →
      x ∈ xs → x.outcome = .error e → Course i r xs (.error e)
  | variableFails {held xs : List Event} {x : Event} {e : Error} :
      Passes Event.Refuses (r.conditions.map .condition) held →
      Covers Event.Fails (r.vars.keys.map .var) xs →
      x ∈ xs → x.outcome = .error e → Course i r (held ++ xs) (.error e)
  | matched {held known acted visited : List Event} {m : Match} :
      Passes Event.Refuses (r.conditions.map .condition) held →
      Passes Event.Fails (r.vars.keys.map .var) known →
      Covers Event.Stops (r.actions.map .action) acted →
      visited.map Event.part = r.children.map .child →
      m.rule = i → m.id = r.id → m.children = visited.filterMap Event.match? →
      Course i r (held ++ known ++ (acted ++ visited)) (.ok (some m))

namespace Environment

open Step

variable {env : Environment} {limit budget : Nat} {i : RuleId} {r : Rule} {s t u : Session}
  {xs ys : List Event}

/-- Evaluates a part of the rule whose frame is the innermost. -/
def evaluatePart (env : Environment) (limit : Nat) : Part → Step Answer
  | .condition e => do
    let p ← Step.ofValue (← env.evaluate limit e).truthy
    pure (.truth p)
  | .var name => do
    let v ← env.resolve limit name
    pure (.value v)
  | .action a => do
    let v ← env.evaluate limit a.expr
    pure (.value v)
  | .child i => do
    let m ← env.evaluateRule limit i
    pure (.found m)

/-- Parts of a rule are evaluated one after the other, and what the rule records of a part is
recorded before the next one. -/
inductive Happens (env : Environment) (limit : Nat) (r : Rule) :
    Session → List Event → Session → Prop where
  | nil {s : Session} : Happens env limit r s [] s
  | cons {s t : Session} {x : Event} {xs : List Event} :
      (env.evaluatePart limit x.part).outcome s = x.outcome →
      ((env.evaluatePart limit x.part).after s).effects.failures =
        s.effects.failures ++ x.inside →
      Happens env limit r
        (((env.evaluatePart limit x.part).after s).recording (x.recorded env.rules r)) xs t →
      Happens env limit r s (x :: xs) t

theorem Happens.append (h : env.Happens limit r s xs t) (h' : env.Happens limit r t ys u) :
    env.Happens limit r s (xs ++ ys) u := by
  induction h with
  | nil => exact h'
  | cons houtcome hinside _ ih => exact .cons houtcome hinside (ih h')

/-- The failures recorded are those of the events. -/
theorem Happens.failures (h : env.Happens limit r s xs t) :
    t.effects.failures =
      s.effects.failures ++ xs.flatMap fun x => x.inside ++ x.recorded env.rules r := by
  induction h with
  | nil => simp
  | cons _ hinside _ ih =>
      rw [ih, Session.failures_recording, hinside, List.flatMap_cons]
      simp only [List.append_assoc]

/-! ## Evaluation follows -/

/-- Evaluation ends on its level and in its frames, and takes back no failure. -/
theorem follows_invariant (hops : env.operators.Respects Session.Follows) :
    Invariant env Session.Follows where
  refl _ := ⟨rfl, rfl, List.prefix_rfl⟩
  trans h h' := ⟨h'.depth.trans h.depth, h'.rules.trans h.rules, h.failures.trans h'.failures⟩
  nested h := ⟨by simp [h.depth], h.rules, h.failures⟩
  settled _ h _ := by
    refine ⟨h.depth, ?_, h.failures⟩
    rw [Scope.rules_replaceAt, h.rules, Scope.rules_replaceAt]
  framed h := by
    refine ⟨h.depth, ?_, h.failures⟩
    simpa [Scope.pop, Scope.push] using congrArg List.tail h.rules
  recorded s failure := s.follows_recording [failure]
  called hop host args m hresolve s := hops _ _ hop host args m hresolve s

/-- A variable is settled without a failure being recorded if its expression records none. -/
theorem maintains_settle {P : Session → Prop} {eval : Expr → Step Value}
    (hscope : ∀ s scope, P s → P { s with scope }) {e : Expr} (h : Maintains P (eval e))
    (level : Nat) (name : String) : Maintains P (settle eval level name e) := by
  refine maintains_bind (maintains_change fun s hs => hscope s _ hs) fun _ => ?_
  refine maintains_bind (maintains_attempt h) fun out => ?_
  cases out with
  | ok v =>
      exact maintains_bind (maintains_change fun s hs => hscope s _ hs) fun _ => maintains_pure v
  | error cause =>
      exact maintains_bind (maintains_change fun s hs => hscope s _ hs) fun _ =>
        maintains_throw cause

/-- Expressions record no failure if the operators record none.  The induction is on the
budget. -/
theorem sameFailures_evaluateWithin (hops : env.operators.Respects Session.SameFailures)
    (budget : Nat) (e : Expr) (s : Session) :
    s.SameFailures ((env.evaluateWithin limit budget e).after s) := by
  suffices h : ∀ origin : Session,
      Maintains origin.SameFailures (env.evaluateWithin limit budget e) from h s s rfl
  induction budget generalizing e with
  | zero => exact fun _ => maintains_throw _
  | succ budget ih =>
      intro origin
      have hname : ∀ (origin : Session) name, Maintains origin.SameFailures
          (resolveWith (env.evaluateWithin limit budget) name) := fun origin name =>
        maintains_resolveWith fun s level e hs _ _ =>
          maintains_settle (fun _ _ h => h) (ih e origin) level name s hs
      have hnode : Maintains origin.SameFailures
          (env.evaluateNode (env.evaluateWithin limit budget) e) := by
        refine (composable_maintains _).evaluateNode (fun e _ => ih e origin)
          (fun name _ => hname origin name) fun name args m values _ => ?_
        refine (composable_maintains _).call (fun op hop args m s hs => ?_) values m
        exact (hops _ _ hop _ args m (fun x s => hname s x s rfl) s).trans hs
      exact maintains_nested fun s hs => hnode _ hs

theorem sameFailures_evaluate (hops : env.operators.Respects Session.SameFailures) (e : Expr)
    (s : Session) : s.SameFailures ((env.evaluate limit e).after s) :=
  sameFailures_evaluateWithin hops (s.room limit) e s

theorem sameFailures_resolve (hops : env.operators.Respects Session.SameFailures)
    (name : String) (s : Session) : s.SameFailures ((env.resolve limit name).after s) := by
  have h : Maintains s.SameFailures
      (resolveWith (env.evaluateWithin limit (s.room limit)) name) :=
    maintains_resolveWith fun t level e ht _ _ =>
      maintains_settle (fun _ _ h => h)
        (fun u hu => (sameFailures_evaluateWithin hops _ e u).trans hu) level name t ht
  exact h s rfl

/-- With operators that record no failure, failures are recorded inside children only. -/
theorem Happens.inside_eq_nil (hops : env.operators.Respects Session.SameFailures)
    (h : env.Happens limit r s xs t) :
    ∀ x ∈ xs, (∀ c, x.part ≠ .child c) → x.inside = [] := by
  induction h with
  | nil => simp
  | @cons s t x xs _ hinside _ ih =>
      refine List.forall_mem_cons.2 ⟨fun hx => ?_, ih⟩
      have hsame : ((env.evaluatePart limit x.part).after s).effects.failures =
          s.effects.failures := by
        suffices h : Maintains s.SameFailures (env.evaluatePart limit x.part) from h s rfl
        have heval : ∀ e, Maintains s.SameFailures (env.evaluate limit e) :=
          fun e u hu => (sameFailures_evaluate hops e u).trans hu
        cases hpart : x.part with
        | condition e =>
            exact maintains_bind (heval e) fun _ => maintains_bind (maintains_ofValue _) fun _ =>
              maintains_pure _
        | var name =>
            exact maintains_bind (fun u hu => (sameFailures_resolve hops name u).trans hu)
              fun _ => maintains_pure _
        | action a => exact maintains_bind (heval a.expr) fun _ => maintains_pure _
        | child c => exact absurd hpart (hx c)
      rw [hsame] at hinside
      exact List.self_eq_append_right.1 hinside

/-! ## One part -/

/-- The rule is the one whose frame is the innermost, and the budget is what is left to it. -/
structure Inside (limit budget : Nat) (i : RuleId) (s : Session) : Prop where
  depth : s.depth + budget = limit
  rule : s.scope.current? = some i

theorem Inside.follows (h : Inside limit budget i s) (hst : s.Follows t) :
    Inside limit budget i t :=
  ⟨by rw [hst.depth, h.depth], hst.current?.trans h.rule⟩

theorem Inside.room (h : Inside limit budget i s) : s.room limit = budget := by
  have := h.depth
  unfold Session.room
  omega

/-- Evaluating a part ends where it began, up to what was found out and recorded. -/
theorem follows_evaluatePart (hops : env.operators.Respects Session.Follows) (p : Part)
    (s : Session) : s.Follows ((env.evaluatePart limit p).after s) := by
  have hR := follows_invariant hops
  suffices h : Maintains s.Follows (env.evaluatePart limit p) from h s (hR.refl s)
  cases p with
  | condition e =>
      exact maintains_bind (hR.maintains (hR.evaluate limit e) s) fun _ =>
        maintains_bind (maintains_ofValue _) fun _ => maintains_pure _
  | var name =>
      exact maintains_bind (hR.maintains (hR.resolve limit name) s) fun _ => maintains_pure _
  | action a =>
      exact maintains_bind (hR.maintains (hR.evaluate limit a.expr) s) fun _ => maintains_pure _
  | child c =>
      exact maintains_bind (hR.maintains (hR.evaluateRule limit c) s) fun _ => maintains_pure _

/-- A part that is evaluated is an event, after which the instance goes on. -/
theorem exists_event (hops : env.operators.Respects Session.Follows) (r : Rule) (p : Part)
    {s : Session} (hs : Inside limit budget i s) :
    ∃ x : Event, x.part = p ∧ x.outcome = (env.evaluatePart limit p).outcome s ∧
      Inside limit budget i
        (((env.evaluatePart limit p).after s).recording (x.recorded env.rules r)) ∧
      env.Happens limit r s [x]
        (((env.evaluatePart limit p).after s).recording (x.recorded env.rules r)) := by
  have hfollows : s.Follows ((env.evaluatePart limit p).after s) := follows_evaluatePart hops p s
  obtain ⟨inside, hinside⟩ := hfollows.failures
  refine ⟨⟨p, (env.evaluatePart limit p).outcome s, inside⟩, rfl, rfl, ?_,
    .cons rfl hinside.symm .nil⟩
  exact (hs.follows hfollows).follows (Session.follows_recording _ _)

/-! ## Parts in sequence -/

theorem evaluate_inside (env : Environment) (hs : Inside limit budget i s) (e : Expr) :
    env.evaluate limit e s = env.evaluateWithin limit budget e s := by
  rw [evaluate, hs.room]

theorem resolve_inside (env : Environment) (hs : Inside limit budget i s) (name : String) :
    env.resolve limit name s = resolveWith (env.evaluateWithin limit budget) name s := by
  rw [resolve, hs.room]

theorem evaluateRule_inside (env : Environment) (hs : Inside limit budget i s) (c : RuleId) :
    env.evaluateRule limit c s = env.evaluateRuleWithin limit budget c s := by
  rw [evaluateRule, hs.room]

/-- A condition has a truth value, on which it depends how the instance goes on, or it fails. -/
theorem allHold_cons (env : Environment) (hs : Inside limit budget i s) (c : Expr)
    (rest : List Expr) :
    (∃ p t, env.evaluatePart limit (.condition c) s = .ok (.truth p) t ∧
      allHold (env.evaluateWithin limit budget) (c :: rest) s =
        if p then allHold (env.evaluateWithin limit budget) rest t else .ok false t) ∨
    ∃ e t, env.evaluatePart limit (.condition c) s = .error e t ∧
      allHold (env.evaluateWithin limit budget) (c :: rest) s = .error e t := by
  have heval := evaluate_inside env hs c
  cases h : env.evaluateWithin limit budget c s with
  | error e t =>
      exact .inr ⟨e, t, bind_of_error (heval.trans h) _, bind_of_error h _⟩
  | ok v t =>
      have hpart : env.evaluatePart limit (.condition c) s =
          (Step.ofValue v.truthy >>= fun p => pure (.truth p)) t := bind_of_ok (heval.trans h) _
      have hall : allHold (env.evaluateWithin limit budget) (c :: rest) s =
          (Step.ofValue v.truthy >>= fun p =>
            if p then allHold (env.evaluateWithin limit budget) rest else pure false) t :=
        bind_of_ok h _
      rw [hpart, hall]
      cases v.truthy with
      | error cause => exact .inr ⟨_, t, rfl, rfl⟩
      | ok p => exact .inl ⟨p, t, rfl, by cases p <;> rfl⟩

/-- The conditions are judged in order, up to the first that is not fulfilled. -/
theorem allHold_events (hops : env.operators.Respects Session.Follows) (r : Rule)
    (cs : List Expr) (hs : Inside limit budget i s) :
    ∃ xs t, env.Happens limit r s xs t ∧ Inside limit budget i t ∧
      ((allHold (env.evaluateWithin limit budget) cs s = .ok true t ∧
          Passes Event.Refuses (cs.map .condition) xs) ∨
        (Covers Event.Refuses (cs.map .condition) xs ∧ ∃ x ∈ xs,
          (x.outcome = .ok (.truth false) ∧
            allHold (env.evaluateWithin limit budget) cs s = .ok false t) ∨
          ∃ e, x.outcome = .error e ∧
            allHold (env.evaluateWithin limit budget) cs s = .error e t)) := by
  induction cs generalizing s with
  | nil => exact ⟨[], s, .nil, hs, .inl ⟨rfl, .nil⟩⟩
  | cons c rest ih =>
      obtain ⟨x, hpart, houtcome, hnext, hx⟩ := exists_event hops r (.condition c) hs
      have hrecorded : x.recorded env.rules r = [] := by simp [Event.recorded, hpart]
      rw [hrecorded, Session.recording_nil] at hnext hx
      rw [List.map_cons, ← hpart]
      obtain ⟨p, t, ht, hcons⟩ | ⟨e, t, ht, hcons⟩ := allHold_cons env hs c rest
      · rw [outcome_of_ok ht] at houtcome
        rw [after_of_ok ht] at hnext hx
        rw [hcons]
        cases p with
        | false =>
            have hrefuses : x.Refuses := by simp [Event.Refuses, houtcome]
            exact ⟨[x], t, hx, hnext, .inr ⟨.last hrefuses, x, by simp, .inl ⟨houtcome, rfl⟩⟩⟩
        | true =>
            have hgoes : ¬ x.Refuses := by simp [Event.Refuses, houtcome]
            obtain ⟨xs, u, hxs, hu, hheld | ⟨hcovers, y, hy, hend⟩⟩ := ih hnext
            · exact ⟨x :: xs, u, hx.append hxs, hu, .inl ⟨hheld.1, hheld.2.cons hgoes⟩⟩
            · exact ⟨x :: xs, u, hx.append hxs, hu,
                .inr ⟨.more hgoes hcovers, y, List.mem_cons_of_mem _ hy, hend⟩⟩
      · rw [outcome_of_error ht] at houtcome
        rw [after_of_error ht] at hnext hx
        have hrefuses : x.Refuses := by simp [Event.Refuses, houtcome]
        exact ⟨[x], t, hx, hnext,
          .inr ⟨.last hrefuses, x, by simp, .inr ⟨e, houtcome, hcons⟩⟩⟩

/-- The variables get their values in order, up to the first that fails. -/
theorem forceAll_events (hops : env.operators.Respects Session.Follows) (r : Rule)
    (names : List String) (hs : Inside limit budget i s) :
    ∃ xs t, env.Happens limit r s xs t ∧ Inside limit budget i t ∧
      ((forceAll (env.evaluateWithin limit budget) names s = .ok () t ∧
          Passes Event.Fails (names.map .var) xs) ∨
        (Covers Event.Fails (names.map .var) xs ∧ ∃ x ∈ xs, ∃ e, x.outcome = .error e ∧
          forceAll (env.evaluateWithin limit budget) names s = .error e t)) := by
  induction names generalizing s with
  | nil => exact ⟨[], s, .nil, hs, .inl ⟨rfl, .nil⟩⟩
  | cons name rest ih =>
      obtain ⟨x, hpart, houtcome, hnext, hx⟩ := exists_event hops r (.var name) hs
      have hrecorded : x.recorded env.rules r = [] := by simp [Event.recorded, hpart]
      rw [hrecorded, Session.recording_nil] at hnext hx
      rw [List.map_cons, ← hpart]
      have hresolve := resolve_inside env hs name
      cases h : resolveWith (env.evaluateWithin limit budget) name s with
      | ok v t =>
          have ht : env.evaluatePart limit (.var name) s = .ok (.value v) t :=
            bind_of_ok (hresolve.trans h) _
          rw [outcome_of_ok ht] at houtcome
          rw [after_of_ok ht] at hnext hx
          have hgoes : ¬ x.Fails := by simp [Event.Fails, houtcome]
          rw [forceAll, bind_of_ok h]
          obtain ⟨xs, u, hxs, hu, hforced | ⟨hcovers, y, hy, hend⟩⟩ := ih hnext
          · exact ⟨x :: xs, u, hx.append hxs, hu, .inl ⟨hforced.1, hforced.2.cons hgoes⟩⟩
          · exact ⟨x :: xs, u, hx.append hxs, hu,
              .inr ⟨.more hgoes hcovers, y, List.mem_cons_of_mem _ hy, hend⟩⟩
      | error e t =>
          have ht : env.evaluatePart limit (.var name) s = .error e t :=
            bind_of_error (hresolve.trans h) _
          rw [outcome_of_error ht] at houtcome
          rw [after_of_error ht] at hnext hx
          rw [forceAll, bind_of_error h]
          exact ⟨[x], t, hx, hnext,
            .inr ⟨.last ⟨e, houtcome⟩, x, by simp, e, houtcome, rfl⟩⟩

/-- The failure of an action is recorded under the rule that it belongs to. -/
theorem noted_eq_recording (hi : env.rules.rules[i]? = some r) (hs : Inside limit budget i s)
    {x : Event} {a : RuleAction} (hpart : x.part = .action a) {e : Error}
    (houtcome : x.outcome = .error e) :
    env.noted a e s = s.recording (x.recorded env.rules r) := by
  have hid : s.scope.current?.bind env.rules.idAt? = some r.id := by
    rw [hs.rule, Option.bind_some, RuleSet.idAt?, hi, Option.map_some]
  unfold noted Event.recorded
  rw [hpart, houtcome]
  dsimp only
  split
  · rw [Session.recording_nil]
  · rw [← hid]
    rfl

/-- The actions run in order, up to the first that succeeds and stops the others. -/
theorem runActions_events (hops : env.operators.Respects Session.Follows)
    (hi : env.rules.rules[i]? = some r) (as : List RuleAction) (hs : Inside limit budget i s) :
    ∃ xs t, env.Happens limit r s xs t ∧ Inside limit budget i t ∧
      runActions env (env.evaluateWithin limit budget) as s = .ok () t ∧
      Covers Event.Stops (as.map .action) xs := by
  induction as generalizing s with
  | nil => exact ⟨[], s, .nil, hs, rfl, .nil⟩
  | cons a rest ih =>
      obtain ⟨x, hpart, houtcome, hnext, hx⟩ := exists_event hops r (.action a) hs
      rw [List.map_cons, ← hpart]
      have heval := evaluate_inside env hs a.expr
      cases h : env.evaluateWithin limit budget a.expr s with
      | ok v t =>
          have ht : env.evaluatePart limit (.action a) s = .ok (.value v) t :=
            bind_of_ok (heval.trans h) _
          rw [outcome_of_ok ht] at houtcome
          have hrecorded : x.recorded env.rules r = [] := by
            simp [Event.recorded, hpart, houtcome]
          rw [hrecorded, Session.recording_nil, after_of_ok ht] at hnext hx
          rw [runActions_ok_cons h]
          split
          · next hmode =>
            exact ⟨[x], t, hx, hnext, rfl, .last ⟨a, _, hpart, hmode, houtcome⟩⟩
          · next hmode =>
            have hgoes : ¬ x.Stops := by
              rintro ⟨b, _, hb, hstop, -⟩
              cases hpart.symm.trans hb
              exact hmode hstop
            obtain ⟨xs, u, hxs, hu, hrun, hcovers⟩ := ih hnext
            exact ⟨x :: xs, u, hx.append hxs, hu, hrun, .more hgoes hcovers⟩
      | error e t =>
          have ht : env.evaluatePart limit (.action a) s = .error e t :=
            bind_of_error (heval.trans h) _
          rw [outcome_of_error ht] at houtcome
          have hinside : Inside limit budget i t := by
            have hfollows : s.Follows ((env.evaluatePart limit (.action a)).after s) :=
              follows_evaluatePart hops (.action a) s
            rw [after_of_error ht] at hfollows
            exact hs.follows hfollows
          rw [after_of_error ht, ← noted_eq_recording hi hinside hpart houtcome] at hnext hx
          have hgoes : ¬ x.Stops := by
            rintro ⟨_, _, -, -, hok⟩
            cases houtcome.symm.trans hok
          rw [runActions_error_cons h]
          obtain ⟨xs, u, hxs, hu, hrun, hcovers⟩ := ih hnext
          exact ⟨x :: xs, u, hx.append hxs, hu, hrun, .more hgoes hcovers⟩

/-- The children are evaluated in order, and a failure of one is recorded under its id. -/
theorem runChildren_events (hops : env.operators.Respects Session.Follows) (r : Rule)
    (cs : List RuleId) (hs : Inside limit budget i s) :
    ∃ xs t found, env.Happens limit r s xs t ∧
      runChildren env (env.evaluateRuleWithin limit budget) cs s = .ok found t ∧
      xs.map Event.part = cs.map .child ∧ found.1 = xs.filterMap Event.match? := by
  induction cs generalizing s with
  | nil => exact ⟨[], s, ([], []), .nil, rfl, rfl, rfl⟩
  | cons c rest ih =>
      obtain ⟨x, hpart, houtcome, hnext, hx⟩ := exists_event hops r (.child c) hs
      have hrule := evaluateRule_inside env hs c
      have hafter : ((env.evaluatePart limit (.child c)).after s).recording
            (x.recorded env.rules r) =
          env.afterChild (env.evaluateRuleWithin limit budget) c s ∧
          x.match? = matchOf ((env.evaluateRuleWithin limit budget c).outcome s) := by
        unfold afterChild Event.match? Event.recorded
        rw [hpart, houtcome]
        cases h : env.evaluateRuleWithin limit budget c s with
        | ok m t =>
            have ht : env.evaluatePart limit (.child c) s = .ok (.found m) t :=
              bind_of_ok (hrule.trans h) _
            rw [outcome_of_ok ht, after_of_ok ht, outcome_of_ok h, after_of_ok h]
            exact ⟨Session.recording_nil t, rfl⟩
        | error e t =>
            have ht : env.evaluatePart limit (.child c) s = .error e t :=
              bind_of_error (hrule.trans h) _
            rw [outcome_of_error ht, after_of_error ht, outcome_of_error h, after_of_error h]
            exact ⟨rfl, rfl⟩
      rw [hafter.1] at hnext hx
      obtain ⟨xs, u, found, hxs, hrun, hparts, hfound⟩ := ih hnext
      refine ⟨x :: xs, u, _, hx.append hxs, runChildren_cons hrun, ?_, ?_⟩
      · rw [List.map_cons, List.map_cons, hpart, hparts]
      · rw [List.filterMap_cons, hafter.2, ← hfound]
        cases matchOf ((env.evaluateRuleWithin limit budget c).outcome s) <;> rfl

/-! ## A whole instance -/

/-- The events of an instance, once it has a frame and a level of its own. -/
theorem runRule_events (hops : env.operators.Respects Session.Follows)
    (hi : env.rules.rules[i]? = some r) (hs : Inside limit budget i s) :
    ∃ xs t out, env.Happens limit r s xs t ∧ Course i r xs out ∧
      (runRule env (env.evaluateWithin limit budget) (env.evaluateRuleWithin limit budget) i
        r).outcome s = out ∧
      (runRule env (env.evaluateWithin limit budget) (env.evaluateRuleWithin limit budget) i
        r).after s = t := by
  unfold runRule
  obtain ⟨held, t, hheld, ht, ⟨hall, hpasses⟩ | ⟨hcovers, x, hx, hend⟩⟩ :=
    allHold_events hops r r.conditions hs
  · rw [outcome, after, bind_of_ok hall]
    obtain ⟨known, u, hknown, hu, ⟨hforced, hvalues⟩ | ⟨hcovers, x, hx, e, he, hforced⟩⟩ :=
      forceAll_events hops r r.vars.keys ht
    · obtain ⟨acted, v, hacted, hv, hactions, hacts⟩ := runActions_events hops hi r.actions hu
      obtain ⟨visited, w, found, hvisited, hchildren, hparts, hfound⟩ :=
        runChildren_events hops r r.children hv
      rw [← after_of_ok hactions] at hchildren
      have hmatched := runMatched_of_ok (i := i) hchildren
      have hcourse : Course i r (held ++ known ++ (acted ++ visited))
          (.ok (some (.node i r.id u.scope.snapshot found.1 found.2))) :=
        .matched hpasses hvalues hacts hparts rfl rfl hfound
      refine ⟨_, w, _, (hheld.append hknown).append (hacted.append hvisited), hcourse, ?_, ?_⟩ <;>
      · rw [if_pos rfl, bind_of_ok hforced, bind_of_ok hmatched]
        rfl
    · refine ⟨_, u, _, hheld.append hknown, .variableFails hpasses hcovers hx he, ?_, ?_⟩ <;>
        rw [if_pos rfl, bind_of_error hforced]
  · obtain ⟨hfalse, hall⟩ | ⟨e, he, hall⟩ := hend
    · rw [outcome, after, bind_of_ok hall]
      exact ⟨held, t, _, hheld, .rejected hcovers hx hfalse, rfl, rfl⟩
    · rw [outcome, after, bind_of_error hall]
      exact ⟨held, t, _, hheld, .conditionFails hcovers hx he, rfl, rfl⟩

/--
**Actions and failures are accounted for.**  An instance of a rule that has a level left evaluates
parts of the rule, one after the other, and takes its course: a condition that is not fulfilled or
a variable that fails is the last part that is evaluated; otherwise the actions run in order up to
the first that succeeds and stops the others, then all children are evaluated, and the rule
matches.  The failures appended are, part by part, those recorded while the part was evaluated and
then the failure of the part itself: of an action under the id of the rule, unless it is ignored
and not internal, and of a child under the id of the child.  Nothing else is recorded while a
condition, a variable or an action is evaluated, if operators record nothing themselves.

Operators reach neither frames nor levels, and no failure that was recorded, which is what
`Registry.Respects` says of them.
-/
theorem evaluateRule_course (hops : env.operators.Respects Session.Follows)
    (hi : env.rules.rules[i]? = some r) (limit : Nat) (s : Session) :
    (limit ≤ s.depth → env.evaluateRule limit i s = .error (.tooDeep limit) s) ∧
    (s.depth < limit → ∃ xs t, env.Happens limit r (s.entered i r) xs t ∧
      Course i r xs ((env.evaluateRule limit i).outcome s) ∧
      (env.evaluateRule limit i).after s = t.left ∧
      ((env.evaluateRule limit i).after s).effects.failures =
        s.effects.failures ++ xs.flatMap (fun x => x.inside ++ x.recorded env.rules r) ∧
      (env.operators.Respects Session.SameFailures →
        ∀ x ∈ xs, (∀ c, x.part ≠ .child c) → x.inside = [])) := by
  refine ⟨fun hdeep => ?_, fun hroom => ?_⟩
  · rw [evaluateRule, Session.room, Nat.sub_eq_zero_of_le hdeep]
    rfl
  · obtain ⟨budget, hbudget⟩ : ∃ budget, s.room limit = budget + 1 :=
      Nat.exists_eq_add_one.2 (Nat.sub_pos_of_lt hroom)
    have hinside : Inside limit budget i (s.entered i r) := by
      refine ⟨?_, rfl⟩
      show s.depth + 1 + budget = limit
      unfold Session.room at hbudget
      omega
    obtain ⟨xs, t, out, hxs, hcourse, houtcome, hafter⟩ := runRule_events hops hi hinside
    obtain ⟨houter, hleft⟩ := evaluateRuleWithin_entered budget hi hroom
    rw [outcome, after, evaluateRule, hbudget]
    rw [outcome] at houter
    rw [after] at hleft
    rw [houter, hleft, houtcome, hafter]
    exact ⟨xs, t, hxs, hcourse, rfl, hxs.failures, fun hquiet => hxs.inside_eq_nil hquiet⟩

/-- Four actions, of which the first three are run: an ignored failure, a recorded one, and one
that stops the others. -/
def stoppingRule : Rule :=
  let complain : Expr := .call "Log" [.var "missing"] ∅
  { Rule.new "a" "r" with
    actions := [⟨complain, .ignore⟩, ⟨complain, .record⟩,
      ⟨.call "Log" [.literal (.bytes [104, 105])] ∅, .stop⟩, ⟨complain, .record⟩]
    children := [1] }

/-- A rule whose condition cannot be evaluated. -/
def undecidedRule : Rule :=
  { Rule.new "b" "r" with conditions := [.var "missing"] }

/-- One failure is that of the second action, the other one that of the child. -/
theorem evaluateRule_course_stoppingRule :
    let env : Environment := ⟨⟨#[stoppingRule, undecidedRule], ∅, [0], ∅⟩, .builtins⟩
    let fresh := Session.start ⟨∅, []⟩ (.ofFile "f" []) ∅ none
    let done := (env.evaluateRule depthLimit 0).after fresh
    env.rules.rules[(0 : RuleId)]? = some stoppingRule ∧ done.effects.logs = ["hi"] ∧
      done.effects.failures = [⟨some "a", .unresolvedVariable "missing"⟩,
        ⟨some "b", .unresolvedVariable "missing"⟩] ∧
      ∃ xs t, env.Happens depthLimit stoppingRule (fresh.entered 0 stoppingRule) xs t ∧
        Course 0 stoppingRule xs ((env.evaluateRule depthLimit 0).outcome fresh) ∧
        done = t.left ∧
        done.effects.failures = fresh.effects.failures ++
          xs.flatMap (fun x => x.inside ++ x.recorded env.rules stoppingRule) ∧
        ∀ x ∈ xs, (∀ c, x.part ≠ .child c) → x.inside = [] := by
  have hi : (Environment.mk ⟨#[stoppingRule, undecidedRule], ∅, [0], ∅⟩
    .builtins).rules.rules[(0 : RuleId)]? = some stoppingRule := rfl
  refine ⟨hi, by decide +kernel, by decide +kernel, ?_⟩
  obtain ⟨xs, t, hxs, hcourse, hafter, hfailures, hquiet⟩ :=
    (evaluateRule_course Registry.respects_builtins_follows hi depthLimit
      (Session.start ⟨∅, []⟩ (.ofFile "f" []) ∅ none)).2 (by decide)
  exact ⟨xs, t, hxs, hcourse, hafter, hfailures,
    hquiet Registry.respects_builtins_sameFailures⟩

end Environment

end RuleScan
