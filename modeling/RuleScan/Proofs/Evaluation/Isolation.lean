import RuleScan.Proofs.Evaluation.Balance
import RuleScan.Proofs.Rule.Linking

/-!
# Rules are isolated from each other

Rules are evaluated one after the other in one session, and each leaves something behind: files,
messages, failures.  A rule that creates no file cannot tell.  It reads the globals, the current
file, the scope and the level, and these are what they were, however the rules before it ended.
So it comes to what it comes to in a session of its own, and what it adds to the messages and
failures is the same.

That is a frame property, and is proved as one.  A session can be put on top of a background, an
output directory, files and effects that it knows nothing of (`Session.atop`).  A step is
isolated if it does the same on top of every background and leaves the background as it is
(`Step.Isolated`).  Steps in sequence are isolated if each of them is, so it is enough to look at
the steps that evaluation is made of; only those of two operators are not.

## Main results

* `composable_isolated` — isolated steps make isolated sequences.
* `isolated_evaluateRuleWithin` — a rule is isolated if it and the rules below it create no file.
* `evaluateRule_isolated` — what a rule comes to after another one.
-/

namespace RuleScan

open Relation (ReflTransGen)

/-! ## Rules that create no file -/

/-- The expression calls none of the operators that create files. -/
def Expr.IsQuiet (e : Expr) : Prop :=
  ∀ name args m, Expr.call name args m ∈ e.nodes → name ≠ "Carve" ∧ name ≠ "Write"

/-- Neither the rule nor any below it calls an operator that creates files. -/
def RuleSet.IsQuiet (rules : RuleSet) (i : RuleId) : Prop :=
  ∀ c r, ReflTransGen rules.IsChild i c → rules.rules[c]? = some r → ∀ e ∈ r.exprs, e.IsQuiet

/-- No expression that is left to be evaluated creates a file. -/
def Session.IsQuiet (s : Session) : Prop := s.scope.Awaits Expr.IsQuiet

theorem Expr.IsQuiet.operand {e x : Expr} (h : e.IsQuiet) (hx : x ∈ e.operands) : x.IsQuiet :=
  fun name args m hmem => h name args m (nodes_subset_of_mem_operands hx hmem)

theorem RuleSet.IsQuiet.child {rules : RuleSet} {i c : RuleId} (h : rules.IsQuiet i)
    (hc : rules.IsChild i c) : rules.IsQuiet c :=
  fun d r hd => h d r (.head hc hd)

/-! ## Backgrounds -/

/-- What evaluation leaves behind and does not read. -/
structure Background where
  output : Option OutputDir
  files : FileSystem
  effects : Effects

/-- The session on top of a background: its own effects come after those of the background. -/
def Session.atop (s : Session) (w : Background) : Session :=
  { s with
    output := w.output
    files := w.files
    effects := ⟨w.effects.created ++ s.effects.created, w.effects.logs ++ s.effects.logs,
      w.effects.warnings ++ s.effects.warnings, w.effects.failures ++ s.effects.failures⟩ }

@[simp] theorem Session.globals_atop (s : Session) (w : Background) :
    (s.atop w).globals = s.globals := rfl

@[simp] theorem Session.source_atop (s : Session) (w : Background) :
    (s.atop w).source = s.source := rfl

@[simp] theorem Session.scope_atop (s : Session) (w : Background) :
    (s.atop w).scope = s.scope := rfl

@[simp] theorem Session.depth_atop (s : Session) (w : Background) :
    (s.atop w).depth = s.depth := rfl

/-- The end of a step on top of a background. -/
def Background.behind {α : Type} (w : Background) :
    EStateM.Result Error Session α → EStateM.Result Error Session α
  | .ok a s => .ok a (s.atop w)
  | .error e s => .error e (s.atop w)

namespace Step

variable {α β : Type} {t : Step α}

/-- On top of every background the step does the same. -/
structure Isolated (t : Step α) : Prop where
  quiet : Maintains Session.IsQuiet t
  atop : ∀ (w : Background) (s : Session), s.IsQuiet → t (s.atop w) = w.behind (t s)

theorem Isolated.outcome_atop (h : Isolated t) (w : Background) {s : Session} (hs : s.IsQuiet) :
    t.outcome (s.atop w) = t.outcome s := by
  unfold outcome
  rw [h.atop w s hs]
  cases t s <;> rfl

theorem Isolated.after_atop (h : Isolated t) (w : Background) {s : Session} (hs : s.IsQuiet) :
    t.after (s.atop w) = (t.after s).atop w := by
  unfold after
  rw [h.atop w s hs]
  cases t s <;> rfl

theorem isolated_bind {f : α → Step β} (ht : Isolated t) (hf : ∀ a, Isolated (f a)) :
    Isolated (t >>= f) where
  quiet := maintains_bind ht.quiet fun a => (hf a).quiet
  atop w s hs := by
    have hatop := ht.atop w s hs
    have hquiet := ht.quiet s hs
    cases hr : t s with
    | ok a s' =>
        rw [hr] at hatop
        rw [after_of_ok hr] at hquiet
        rw [bind_of_ok hatop, bind_of_ok hr]
        exact (hf a).atop w s' hquiet
    | error e s' =>
        rw [hr] at hatop
        rw [bind_of_error hatop, bind_of_error hr]
        rfl

theorem composable_isolated : Composable fun t => Isolated t where
  pure a := ⟨maintains_pure a, fun _ _ _ => rfl⟩
  throw e := ⟨maintains_throw e, fun _ _ _ => rfl⟩
  bind := isolated_bind
  attempt {α t} h := by
    refine ⟨maintains_attempt h.quiet, fun w s hs => ?_⟩
    unfold attempt
    rw [h.atop w s hs]
    cases t s <;> rfl
  read offset length := by
    refine ⟨maintains_read offset length, fun w s _ => ?_⟩
    unfold Step.read
    rw [Session.source_atop]
    cases s.source.read offset length <;> rfl
  readTerminated offset limit := by
    refine ⟨maintains_readTerminated offset limit, fun w s _ => ?_⟩
    unfold Step.readTerminated
    rw [Session.source_atop]
    cases s.source.readTerminated offset limit <;> rfl
  scope := ⟨maintains_view Session.scope, fun _ _ _ => rfl⟩

theorem isolated_change {f : Session → Session} (hquiet : ∀ s, s.IsQuiet → (f s).IsQuiet)
    (hatop : ∀ w s, f (s.atop w) = (f s).atop w) : Isolated (change f) :=
  ⟨maintains_change hquiet, fun w s _ => congrArg (EStateM.Result.ok ()) (hatop w s)⟩

theorem isolated_global (name : String) : Isolated (global name) := by
  refine ⟨maintains_global name, fun w s _ => ?_⟩
  unfold global
  rw [Session.globals_atop]
  cases s.globals.get? name <;> rfl

theorem isolated_nested (limit : Nat) (h : Isolated t) : Isolated (nested limit t) := by
  refine ⟨maintains_nested fun s hs => h.quiet { s with depth := s.depth + 1 } hs, ?_⟩
  intro w s hs
  have hatop := h.atop w { s with depth := s.depth + 1 } hs
  have hinner : ({ s.atop w with depth := s.depth + 1 } : Session) =
      Session.atop { s with depth := s.depth + 1 } w := rfl
  unfold nested
  rw [Session.depth_atop, hinner, hatop]
  split
  · rfl
  · cases t { s with depth := s.depth + 1 } <;> rfl

theorem isolated_recordFailure (rules : RuleSet) (rule : Option RuleId) (e : Error) :
    Isolated (recordFailure rules rule e) :=
  isolated_change (fun _ hs => hs) fun w s => by
    simp [Session.atop, Session.withEffects, List.append_assoc]

theorem isolated_recordCurrent (rules : RuleSet) (e : Error) : Isolated (recordCurrent rules e) :=
  ⟨fun _ hs => hs, fun w s hs => (isolated_recordFailure rules s.scope.current? e).atop w s hs⟩

theorem isolated_log (message : String) : Isolated (log message) :=
  isolated_change (fun _ hs => hs) fun w s => by
    simp [Session.atop, Session.withEffects, List.append_assoc]

theorem isolated_warn (message : String) : Isolated (warn message) :=
  isolated_change (fun _ hs => hs) fun w s => by
    simp [Session.atop, Session.withEffects, List.append_assoc]

end Step

open Step

/-! ## Evaluation is isolated -/

/-- Of the built-in operators, those that create no file are isolated. -/
theorem Builtin.isolated {name : String} {op : Operator}
    (h : Registry.builtins.get? name = some op) (hname : name ≠ "Carve" ∧ name ≠ "Write")
    (host : Host) (args : List Value) (m : Register) : Isolated (op.run host args m) := by
  have hmem := Table.mem_of_get? h
  have hentries : Registry.builtins.operators.entries =
      [("Len", len), ("Log", log), ("Warn", warn), ("Carve", carve), ("Write", write)] := rfl
  rw [hentries] at hmem
  simp only [List.mem_cons, Prod.mk.injEq, hname.1, hname.2, false_and, List.not_mem_nil,
    or_false] at hmem
  rcases hmem with ⟨-, rfl⟩ | ⟨-, rfl⟩ | ⟨-, rfl⟩
  · cases args with
    | nil => exact composable_isolated.throw _
    | cons v rest =>
        exact isolated_bind (composable_isolated.ofValue _) fun _ => composable_isolated.pure _
  · exact isolated_bind (isolated_log _) fun _ => composable_isolated.pure _
  · exact isolated_bind (isolated_warn _) fun _ => composable_isolated.pure _

namespace Environment

variable {rules : RuleSet} {eval : Expr → Step Value}

theorem isolated_settle (level : Nat) (name : String) {e : Expr} (he : e.IsQuiet)
    (heval : Isolated (eval e)) : Isolated (settle eval level name e) := by
  have hchange : ∀ b : Binding, (∀ x, b = .unevaluated x → x.IsQuiet) →
      Isolated (change fun s => { s with scope := s.scope.replaceAt level name b }) :=
    fun b hb => isolated_change (fun s hs => hs.replaceAt level name hb) fun _ _ => rfl
  refine isolated_bind (hchange .inProgress nofun) fun _ => ?_
  refine isolated_bind (composable_isolated.attempt heval) fun r => ?_
  cases r with
  | ok v =>
      exact isolated_bind (hchange (.resolved v) nofun) fun _ => composable_isolated.pure v
  | error cause =>
      refine isolated_bind (hchange (.unevaluated e) ?_) fun _ => composable_isolated.throw cause
      rintro x hx
      cases hx
      exact he

theorem isolated_resolveWith (heval : ∀ e, e.IsQuiet → Isolated (eval e)) (name : String) :
    Isolated (resolveWith eval name) := by
  have hsettle : ∀ {s : Session} {level e}, s.IsQuiet →
      s.scope.lookup name = some (level, .unevaluated e) → Isolated (settle eval level name e) :=
    fun hs hl => isolated_settle _ name (hs.of_lookup hl) (heval _ (hs.of_lookup hl))
  refine ⟨maintains_resolveWith fun s level e hs _ hl => (hsettle hs hl).quiet s hs, ?_⟩
  intro w s hs
  by_cases hname : name.toList.head? = some '$'
  · rw [resolveWith_dollar hname]
    exact (isolated_global name).atop w s hs
  cases hempty : s.scope.isEmpty with
  | true =>
      rw [resolveWith_outside hname hempty]
      exact resolveWith_outside hname hempty
  | false =>
      rw [resolveWith_scoped hname hempty]
      refine (resolveWith_scoped (s := s.atop w) hname hempty).trans ?_
      rw [Session.scope_atop]
      cases hl : s.scope.lookup name with
      | none => exact (isolated_global name).atop w s hs
      | some found =>
          obtain ⟨level, b⟩ := found
          cases b with
          | unevaluated e => exact (hsettle hs hl).atop w s hs
          | inProgress => rfl
          | resolved v => rfl

/-- The induction is on the budget. -/
theorem isolated_evaluateWithin (rules : RuleSet) (limit budget : Nat) {e : Expr}
    (he : e.IsQuiet) : Isolated (evaluateWithin ⟨rules, .builtins⟩ limit budget e) := by
  induction budget generalizing e with
  | zero => exact composable_isolated.throw _
  | succ budget ih =>
      refine isolated_nested limit (composable_isolated.evaluateNode
        (fun x hx => ih (he.operand hx)) (fun name _ => isolated_resolveWith (fun _ => ih) name) ?_)
      rintro name args m values rfl
      exact composable_isolated.call (fun op hop args m =>
        Builtin.isolated hop (he name _ _ (Expr.mem_nodes_self _)) _ args m) values m

theorem isolated_inFrame {α : Type} {t : Step α} (ht : Isolated t) (i : RuleId) {r : Rule}
    (hvars : ∀ x ∈ r.vars.entries, x.2.IsQuiet) : Isolated (inFrame i r t) := by
  refine isolated_bind (isolated_change (fun s hs => hs.push i hvars) fun _ _ => rfl) fun _ => ?_
  refine isolated_bind (composable_isolated.attempt ht) fun outcome => ?_
  exact isolated_bind (isolated_change (fun s hs => hs.pop) fun _ _ => rfl) fun _ =>
    composable_isolated.ofExcept outcome

/-- The induction is on the budget: what is asked of a rule is asked of the rules below it. -/
theorem isolated_evaluateRuleWithin (limit budget : Nat) {i : RuleId} (hi : rules.IsQuiet i) :
    Isolated (evaluateRuleWithin ⟨rules, .builtins⟩ limit budget i) := by
  induction budget generalizing i with
  | zero => exact composable_isolated.throw _
  | succ budget ih =>
      cases hr : rules.rules[i]? with
      | none =>
          simp only [evaluateRuleWithin, hr]
          exact composable_isolated.throw _
      | some r =>
          have hexprs : ∀ e ∈ r.exprs, e.IsQuiet := fun e he => hi i r .refl hr e he
          have heval : ∀ e, e.IsQuiet →
              Isolated (evaluateWithin ⟨rules, .builtins⟩ limit budget e) :=
            fun _ he => isolated_evaluateWithin rules limit budget he
          rw [evaluateRuleWithin_succ ⟨rules, .builtins⟩ limit budget hr]
          refine isolated_nested limit (isolated_inFrame (composable_isolated.runRule i
            (fun c hc => heval c (hexprs c (Rule.mem_exprs.2 (.inr (.inl hc)))))
            (isolated_resolveWith heval)
            (fun a ha => heval _ (hexprs _ (Rule.mem_exprs.2 (.inr (.inr ⟨a, ha, rfl⟩)))))
            (fun c hc => ih (hi.child ⟨r, hr, hc⟩))
            (isolated_recordCurrent rules) fun c => isolated_recordFailure rules (some c)) i ?_)
          exact fun x hx => hexprs x.2 (Rule.mem_exprs.2 (.inl (List.mem_map_of_mem hx)))

/-! ## One rule after another -/

/-- No evaluation with the built-in operators changes the globals or the current file. -/
theorem reads_invariant (rules : RuleSet) :
    Invariant ⟨rules, .builtins⟩ fun s t => t.globals = s.globals ∧ t.source = s.source where
  refl _ := ⟨rfl, rfl⟩
  trans h h' := ⟨h'.1.trans h.1, h'.2.trans h.2⟩
  nested h := h
  settled _ h _ := h
  framed h := h
  recorded _ _ := ⟨rfl, rfl⟩
  called hop host args m _ s :=
    ⟨(Builtin.sameView_builtins hop host args m s).globals,
      (Builtin.sameView_builtins hop host args m s).source⟩

/-- However a root rule ended, what is left of it is a background. -/
theorem after_evaluateRule_eq_atop (rules : RuleSet) (limit : Nat) (a : RuleId)
    (files files' : FileSystem) (source : Source) (globals : Register)
    (output output' : Option OutputDir) :
    ∃ w : Background, w.effects =
        ((evaluateRule ⟨rules, .builtins⟩ limit a).after
          (Session.start files source globals output)).effects ∧
      (evaluateRule ⟨rules, .builtins⟩ limit a).after
        (Session.start files source globals output) =
          (Session.start files' source globals output').atop w := by
  have hbalanced := (balanced_invariant rules).evaluateRule limit a
    (Session.start files source globals output)
  have hreads := (reads_invariant rules).evaluateRule limit a
    (Session.start files source globals output)
  generalize (evaluateRule ⟨rules, .builtins⟩ limit a).after
    (Session.start files source globals output) = used at hbalanced hreads ⊢
  obtain ⟨globals', source', scope, output'', files'', effects, depth⟩ := used
  obtain ⟨hdepth, hscope⟩ := hbalanced
  obtain ⟨hglobals, hsource⟩ := hreads
  have hempty : scope = ∅ := by
    obtain ⟨frames⟩ := scope
    have hframes : List.Forall₂ Frame.Settles [] frames := hscope
    cases hframes
    rfl
  dsimp only at hdepth hglobals hsource
  subst hempty
  refine ⟨⟨output'', files'', effects⟩, rfl, ?_⟩
  rw [hdepth, hglobals, hsource]
  simp [Session.atop, Session.start]

/--
**Rules are isolated from each other.**  Let neither a rule nor any below it call an operator that
creates files.  Then evaluating it after another rule, or after itself, and whatever became of
that one, comes to the same match, the same lack of one or the same error as evaluating it in a
fresh session over the same file and globals, and it adds the same logs, warnings and failures.
-/
theorem evaluateRule_isolated (rules : RuleSet) (limit : Nat) (a b : RuleId)
    (hb : rules.IsQuiet b) (source : Source) (globals : Register)
    (files files' : FileSystem) (output output' : Option OutputDir) :
    let env : Environment := ⟨rules, .builtins⟩
    let fresh := Session.start files' source globals output'
    let used := (env.evaluateRule limit a).after (Session.start files source globals output)
    let alone := ((env.evaluateRule limit b).after fresh).effects
    let next := ((env.evaluateRule limit b).after used).effects
    (env.evaluateRule limit b).outcome used = (env.evaluateRule limit b).outcome fresh ∧
      next.logs = used.effects.logs ++ alone.logs ∧
      next.warnings = used.effects.warnings ++ alone.warnings ∧
      next.failures = used.effects.failures ++ alone.failures := by
  intro env fresh used alone next
  obtain ⟨w, heffects, hused⟩ :=
    after_evaluateRule_eq_atop rules limit a files files' source globals output output'
  have hisolated : Isolated (env.evaluateRuleWithin limit (fresh.room limit) b) :=
    isolated_evaluateRuleWithin limit _ hb
  have hquiet : fresh.IsQuiet := nofun
  have hends : ∀ s : Session, s.room limit = fresh.room limit →
      (env.evaluateRule limit b).outcome s =
          (env.evaluateRuleWithin limit (fresh.room limit) b).outcome s ∧
        (env.evaluateRule limit b).after s =
          (env.evaluateRuleWithin limit (fresh.room limit) b).after s := by
    intro s hs
    unfold Step.outcome Step.after
    rw [evaluateRule, hs]
    exact ⟨rfl, rfl⟩
  obtain ⟨houtcome, hafter⟩ := hends used (congrArg (limit - ·.depth) hused)
  obtain ⟨houtcome', hafter'⟩ := hends fresh rfl
  have hsame : (env.evaluateRule limit b).outcome used = (env.evaluateRule limit b).outcome fresh :=
    calc (env.evaluateRule limit b).outcome used
      _ = (env.evaluateRuleWithin limit (fresh.room limit) b).outcome (fresh.atop w) :=
        houtcome.trans (congrArg _ hused)
      _ = (env.evaluateRuleWithin limit (fresh.room limit) b).outcome fresh :=
        hisolated.outcome_atop w hquiet
      _ = (env.evaluateRule limit b).outcome fresh := houtcome'.symm
  have hadded : (env.evaluateRule limit b).after used =
      ((env.evaluateRule limit b).after fresh).atop w :=
    calc (env.evaluateRule limit b).after used
      _ = (env.evaluateRuleWithin limit (fresh.room limit) b).after (fresh.atop w) :=
        hafter.trans (congrArg _ hused)
      _ = ((env.evaluateRuleWithin limit (fresh.room limit) b).after fresh).atop w :=
        hisolated.after_atop w hquiet
      _ = ((env.evaluateRule limit b).after fresh).atop w := by rw [hafter']
  have hnext : next = (((env.evaluateRule limit b).after fresh).atop w).effects :=
    congrArg Session.effects hadded
  rw [hnext, show used.effects = w.effects from heffects.symm]
  exact ⟨hsame, rfl, rfl, rfl⟩

/-- A rule whose variable needs itself. -/
def circlingRule : Rule :=
  { Rule.new "a" "r" with
    vars := Table.ofList [("v", .unary .not (.var "v"))]
    conditions := [.var "v"] }

/-- A rule that logs a message when it matches. -/
def tellingRule : Rule :=
  { Rule.new "b" "r" with
    actions := [⟨.call "Log" [.literal (.bytes [104, 105])] ∅, .record⟩] }

/-- The first rule fails in the middle of its variable; the second one logs its message. -/
theorem evaluateRule_isolated_circling :
    let env : Environment := ⟨⟨#[circlingRule, tellingRule], ∅, [0, 1], ∅⟩, .builtins⟩
    let fresh := Session.start ⟨∅, []⟩ (.ofFile "f" []) ∅ none
    let used := (env.evaluateRule depthLimit 0).after fresh
    let alone := ((env.evaluateRule depthLimit 1).after fresh).effects
    let next := ((env.evaluateRule depthLimit 1).after used).effects
    (env.evaluateRule depthLimit 0).outcome fresh = .error (.circularDependency "v") ∧
      alone.logs = ["hi"] ∧
      (env.evaluateRule depthLimit 1).outcome used = (env.evaluateRule depthLimit 1).outcome fresh ∧
      next.logs = used.effects.logs ++ alone.logs ∧
      next.warnings = used.effects.warnings ++ alone.warnings ∧
      next.failures = used.effects.failures ++ alone.failures := by
  refine ⟨rfl, by decide +kernel, evaluateRule_isolated _ depthLimit 0 1 ?_ _ _ _ _ _ _⟩
  have hchildren : ∀ c, ¬ RuleSet.IsChild ⟨#[circlingRule, tellingRule], ∅, [0, 1], ∅⟩ 1 c := by
    rintro c ⟨q, hq, hc⟩
    cases hq
    cases hc
  intro c r hc hr e he name args m hcall
  obtain rfl | ⟨d, hd, -⟩ := hc.cases_head
  · cases hr
    have hnodes : ∀ n ∈ tellingRule.exprs.flatMap Expr.nodes,
        n = .call "Log" [.literal (.bytes [104, 105])] ∅ ∨
          n = .literal (.bytes [104, 105]) := by decide
    rcases hnodes _ (List.mem_flatMap.2 ⟨e, he, hcall⟩) with h | h
    · cases h
      decide
    · cases h
  · exact absurd hd (hchildren d)

end Environment

end RuleScan
