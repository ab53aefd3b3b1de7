import RuleScan.Rule.Parser

/-!
# Rules without their sources

Linking does not look at where rules come from: names and ids decide.  `RuleSet.unsourced` forgets
the sources of all rules, and linking commutes with that, step by step and with the same errors.
So two sets that differ in the sources of their rules alone are linked in the same way.

## Main results

* `attach_unsourced`, `closeAll_unsourced` — one rule, and the queue of rules to close.
* `linked_unsourced` — linking commutes with forgetting sources.
-/

namespace RuleScan

namespace Rule

/-- The same rule, as another source would declare it. -/
def withSource (r : Rule) (source : String) : Rule := { r with source }

variable (r : Rule) (source : String)

theorem edit_withSource {f : Rule → Except Error Rule}
    (hf : f (r.withSource source) = (f r).map (·.withSource source)) :
    (r.withSource source).edit f = (r.edit f).map (·.withSource source) := by
  unfold edit
  show (if r.closed then _ else _) = _
  split
  · rfl
  · exact hf

theorem setMetadata_withSource (key : String) (v : Value) :
    (r.withSource source).setMetadata key v =
      (r.setMetadata key v).map (·.withSource source) :=
  r.edit_withSource source rfl

theorem setParentName_withSource (name : String) :
    (r.withSource source).setParentName name =
      (r.setParentName name).map (·.withSource source) :=
  r.edit_withSource source rfl

theorem addCondition_withSource (e : Expr) :
    (r.withSource source).addCondition e = (r.addCondition e).map (·.withSource source) :=
  r.edit_withSource source rfl

theorem addAction_withSource (e : Expr) (mode : FailureMode) :
    (r.withSource source).addAction e mode = (r.addAction e mode).map (·.withSource source) :=
  r.edit_withSource source rfl

theorem declare_withSource (name : String) (e : Expr) :
    (r.withSource source).declare name e = (r.declare name e).map (·.withSource source) := by
  refine r.edit_withSource source ?_
  show (if r.vars.contains name then _ else _) = _
  split <;> rfl

/-- Closing a rule does not look at its source. -/
theorem close_withSource (parent : Option Register) :
    (r.withSource source).close parent =
      ((r.close parent).1, (r.close parent).2.withSource source) := by
  unfold close
  show (if r.closed then _ else _) = _
  split
  · rfl
  · dsimp only [withSource]
    cases (r.vars.update (settle (r.metadata.setParent parent))).1 with
    | some e => rfl
    | none =>
      dsimp only
      cases (settleAll (r.metadata.setParent parent) r.conditions).1 with
      | some e => rfl
      | none =>
        dsimp only
        cases (settleActions (r.metadata.setParent parent) r.actions).1 with
        | some e => rfl
        | none => rfl

end Rule

namespace RuleSet

/-- The set of the same rules, without their sources. -/
def unsourced (s : RuleSet) : RuleSet :=
  { s with
    rules := s.rules.map (·.withSource "")
    sources := ∅ }

variable (s : RuleSet)

theorem size_unsourced : s.unsourced.size = s.size := Array.size_map

theorem getElem?_unsourced (i : RuleId) :
    s.unsourced.rules[i]? = s.rules[i]?.map (·.withSource "") := Array.getElem?_map

theorem lookup_unsourced (id : String) : s.unsourced.lookup id = s.lookup id := rfl

theorem idAt?_unsourced (i : RuleId) : s.unsourced.idAt? i = s.idAt? i := by
  rw [idAt?, getElem?_unsourced, Option.map_map]
  rfl

theorem modifyRule_unsourced {f : Rule → Rule} (hf : ∀ r source, f (r.withSource source) =
    (f r).withSource source) (i : RuleId) :
    s.unsourced.modifyRule i f = (s.modifyRule i f).unsourced := by
  unfold modifyRule unsourced
  rw [RuleSet.mk.injEq]
  refine ⟨Array.ext_getElem? fun j => ?_, rfl, rfl, rfl⟩
  simp only [Array.getElem?_modify, Array.getElem?_map]
  split
  · rw [Option.map_map, Option.map_map, show f ∘ (·.withSource "") = (·.withSource "") ∘ f from
      funext fun r => hf r ""]
  · rfl

theorem setRule_unsourced (i : RuleId) (r : Rule) :
    s.unsourced.setRule i (r.withSource "") = (s.setRule i r).unsourced := by
  unfold setRule unsourced
  rw [Array.map_setIfInBounds]

theorem attach_unsourced (i : RuleId) : s.unsourced.attach i = (s.attach i).map unsourced := by
  unfold attach
  rw [getElem?_unsourced]
  cases s.rules[i]? with
  | none => rfl
  | some r =>
      dsimp only [Option.map_some, Rule.withSource]
      cases r.parentName with
      | none => rfl
      | some name =>
          dsimp only
          rw [lookup_unsourced]
          cases s.lookup name with
          | none => rfl
          | some p =>
              dsimp only
              rw [modifyRule_unsourced _ fun _ _ => rfl, modifyRule_unsourced _ fun _ _ => rfl]
              rfl

theorem attachAll_unsourced (is : List RuleId) :
    attachAll is s.unsourced = ((attachAll is s).1, (attachAll is s).2.unsourced) := by
  induction is generalizing s with
  | nil => rfl
  | cons i rest ih =>
      unfold attachAll
      rw [attach_unsourced]
      cases s.attach i with
      | error e => rfl
      | ok t => exact ih t

theorem parentMetadata_unsourced (r : Rule) :
    s.unsourced.parentMetadata (r.withSource "") = s.parentMetadata r := by
  show (r.parent.bind (s.unsourced.rules[·]?)).map Rule.metadata = _
  unfold parentMetadata
  cases r.parent with
  | none => rfl
  | some p =>
      rw [Option.bind_some, Option.bind_some, getElem?_unsourced, Option.map_map]
      rfl

theorem closeAll_unsourced (budget : Nat) (queue : List RuleId) (count : Nat) :
    closeAll budget queue count s.unsourced =
      ((closeAll budget queue count s).1, (closeAll budget queue count s).2.unsourced) := by
  induction budget generalizing queue count s with
  | zero => rfl
  | succ budget ih =>
      cases queue with
      | nil => rfl
      | cons i queue =>
          unfold closeAll
          rw [getElem?_unsourced]
          cases s.rules[i]? with
          | none => exact ih s queue count
          | some r =>
              dsimp only [Option.map_some]
              rw [parentMetadata_unsourced, r.close_withSource]
              generalize r.close (s.parentMetadata r) = closed
              obtain ⟨answer, r'⟩ := closed
              cases answer with
              | error e =>
                  dsimp only
                  rw [setRule_unsourced]
              | ok _ =>
                  dsimp only
                  rw [setRule_unsourced]
                  exact ih (s.setRule i r') (queue ++ r'.children) (count + 1)

theorem cycleMember_unsourced (budget : Nat) (seen : List RuleId) (i : RuleId) :
    s.unsourced.cycleMember budget seen i = s.cycleMember budget seen i := by
  induction budget generalizing seen i with
  | zero => rfl
  | succ budget ih =>
      have hparent : s.unsourced.rules[i]?.bind Rule.parent = s.rules[i]?.bind Rule.parent := by
        rw [getElem?_unsourced, Option.bind_map]
        rfl
      unfold cycleMember
      rw [hparent]
      cases s.rules[i]?.bind Rule.parent with
      | none => rfl
      | some p => simp only [ih]

theorem cycleError_unsourced : s.unsourced.cycleError = s.cycleError := by
  have hopen : s.unsourced.rules.findIdx? (fun r => !r.closed) =
      s.rules.findIdx? fun r => !r.closed := Array.findIdx?_map
  unfold cycleError
  dsimp only
  rw [hopen, idAt?_unsourced, cycleMember_unsourced, size_unsourced]

theorem link_unsourced : s.unsourced.link = (s.link.1, s.link.2.unsourced) := by
  unfold link
  rw [size_unsourced, attachAll_unsourced]
  generalize attachAll (List.range s.size) s = attached
  obtain ⟨answer, a⟩ := attached
  cases answer with
  | error e => rfl
  | ok _ =>
      dsimp only
      rw [size_unsourced, closeAll_unsourced]
      rw [show a.unsourced.roots = a.roots from rfl]
      generalize closeAll (a.size + 1) a.roots 0 a = closed
      obtain ⟨answer, t⟩ := closed
      cases answer with
      | error e => rfl
      | ok count =>
          dsimp only
          rw [size_unsourced, cycleError_unsourced]
          split <;> rfl

/-- Linking does not look at sources, whether or not it succeeds. -/
theorem linked_unsourced : s.unsourced.linked = s.linked.map unsourced := by
  unfold linked
  rw [link_unsourced]
  generalize s.link = linked
  obtain ⟨answer, t⟩ := linked
  cases answer <;> rfl

end RuleSet

end RuleScan
