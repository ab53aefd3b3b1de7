import RuleScan.Rule.Basic

/-!
# Scopes

Every rule being evaluated owns a frame with the bindings of its variables. Frames
are stacked: a variable is looked up in the innermost frame that declares it, so a
child rule sees the variables of its ancestors. A binding is an expression until it
is first needed, in progress while that expression is evaluated, and a value from
then on.

A frame is addressed by its level, the number of frames outside it. Levels stay the
same while frames are stacked on top.

## Main results

* `rules_replaceAt`, `names_replaceAt` — overwriting a binding keeps every frame and
  every name.
* `get?_snapshot` — a snapshot has the values of the innermost frame.
* `pop_push` — leaving a frame undoes entering it.
-/

namespace RuleScan

/-- The state of a variable. -/
inductive Binding where
  | unevaluated (expr : Expr)
  | inProgress
  | resolved (value : Value)
  deriving DecidableEq

/-- The bindings of one rule instance. -/
structure Frame where
  rule : RuleId
  bindings : Table String Binding
  deriving DecidableEq

/-- The frames of the rules being evaluated, innermost first. -/
structure Scope where
  frames : List Frame
  deriving DecidableEq, Inhabited

namespace Scope

/-- The scope outside all rules. -/
def empty : Scope := ⟨[]⟩

instance : EmptyCollection Scope := ⟨empty⟩

/-- The number of frames. -/
def depth (s : Scope) : Nat := s.frames.length

/-- Whether there is no frame. -/
def isEmpty (s : Scope) : Bool := s.frames.isEmpty

/-- Enters a rule whose variables have yet to be evaluated. -/
def push (s : Scope) (rule : RuleId) (vars : List (String × Expr)) : Scope :=
  ⟨⟨rule, Table.ofList (vars.map fun (name, e) => (name, .unevaluated e))⟩ :: s.frames⟩

/-- Leaves the innermost rule. -/
def pop (s : Scope) : Scope := ⟨s.frames.tail⟩

/-- The innermost rule. -/
def current? (s : Scope) : Option RuleId := s.frames.head?.map Frame.rule

/-- The innermost binding of a name in some frames, with the level of its frame. -/
def lookupIn (name : String) : List Frame → Option (Nat × Binding)
  | [] => none
  | f :: outer =>
    match f.bindings.get? name with
    | some b => some (outer.length, b)
    | none => lookupIn name outer

/-- The innermost binding of a name, with the level of its frame. -/
def lookup (s : Scope) (name : String) : Option (Nat × Binding) := lookupIn name s.frames

/-- The value of a name whose innermost binding is resolved. -/
def value? (s : Scope) (name : String) : Option Value :=
  match s.lookup name with
  | some (_, .resolved v) => some v
  | _ => none

/-- Binds a name in the innermost frame, if there is one. -/
def bind? (s : Scope) (name : String) (b : Binding) : Option Scope :=
  match s.frames with
  | [] => none
  | f :: outer => some ⟨{ f with bindings := f.bindings.insert name b } :: outer⟩

/-- Overwrites the binding of a name in the frame at a level. -/
def replaceIn (level : Nat) (name : String) (b : Binding) : List Frame → List Frame
  | [] => []
  | f :: outer =>
    if outer.length = level then { f with bindings := f.bindings.replace name b } :: outer
    else f :: replaceIn level name b outer

/-- Overwrites the binding of a name in the frame at a level. -/
def replaceAt (s : Scope) (level : Nat) (name : String) (b : Binding) : Scope :=
  ⟨replaceIn level name b s.frames⟩

/-- The values of a frame's resolved variables. -/
def Frame.resolved (f : Frame) : List (String × Value) :=
  f.bindings.entries.filterMap fun (name, b) =>
    match b with
    | .resolved v => some (name, v)
    | _ => none

/--
All resolved values. Names stand in the order in which they appear from the outermost
frame inwards, each with its innermost value.
-/
def snapshot (s : Scope) : Table String Value :=
  Table.ofList (s.frames.reverse.flatMap Frame.resolved)

@[simp] theorem frames_push (s : Scope) (rule : RuleId) (vars : List (String × Expr)) :
    (s.push rule vars).frames.tail = s.frames := rfl

@[simp] theorem pop_push (s : Scope) (rule : RuleId) (vars : List (String × Expr)) :
    (s.push rule vars).pop = s := rfl

/-- The frame of a rule that was entered binds each variable to its expression. -/
theorem exists_frame_push (s : Scope) (rule : RuleId) (vars : Table String Expr) :
    ∃ f, (s.push rule vars.entries).frames = f :: s.frames ∧
      ∀ name, f.bindings.get? name = (vars.get? name).map .unevaluated := by
  refine ⟨_, rfl, fun name => ?_⟩
  rw [Table.get?_ofList (by simpa [List.map_map, Function.comp_def] using vars.nodup),
    Table.findList_map]
  rfl

theorem isEmpty_of_lookup {s : Scope} {name : String} {found : Nat × Binding}
    (h : s.lookup name = some found) : s.isEmpty = false := by
  obtain ⟨frames⟩ := s
  cases frames with
  | nil => cases h
  | cons f outer => rfl

theorem nodup_resolved (f : Frame) : ((Frame.resolved f).map Prod.fst).Nodup := by
  have hsub : ∀ entries : List (String × Binding),
      ((entries.filterMap fun (name, b) =>
        match b with
        | .resolved v => some (name, v)
        | _ => none).map Prod.fst).Sublist (entries.map Prod.fst) := by
    intro entries
    induction entries with
    | nil => exact List.Sublist.refl []
    | cons entry rest ih =>
      obtain ⟨name, b⟩ := entry
      cases b with
      | resolved v => exact ih.cons_cons name
      | unevaluated e => exact ih.cons name
      | inProgress => exact ih.cons name
  exact (hsub f.bindings.entries).nodup f.bindings.nodup

/-- The innermost frame comes last in a snapshot and covers the others. -/
theorem get?_snapshot {s : Scope} {f : Frame} {outer : List Frame} (hs : s.frames = f :: outer)
    {name : String} {v : Value} (h : f.bindings.get? name = some (.resolved v)) :
    s.snapshot.get? name = some v := by
  have hmem : (name, v) ∈ Frame.resolved f :=
    List.mem_filterMap.2 ⟨(name, .resolved v), Table.mem_of_get? h, rfl⟩
  unfold snapshot Table.ofList
  rw [hs, List.reverse_cons, List.flatMap_append, List.foldl_append, List.flatMap_singleton,
    Table.get?_foldl_insert (nodup_resolved f), Table.findList_of_mem (nodup_resolved f) hmem]
  rfl

theorem length_replaceIn (level : Nat) (name : String) (b : Binding) (fs : List Frame) :
    (replaceIn level name b fs).length = fs.length := by
  induction fs with
  | nil => rfl
  | cons f outer ih =>
    simp only [replaceIn]
    split <;> simp [ih]

theorem map_replaceIn {α : Type} (g : RuleId → List String → α) (level : Nat) (name : String)
    (b : Binding) (fs : List Frame) :
    (replaceIn level name b fs).map (fun f => g f.rule f.bindings.keys) =
      fs.map fun f => g f.rule f.bindings.keys := by
  induction fs with
  | nil => rfl
  | cons f outer ih =>
    simp only [replaceIn]
    split <;> simp [ih]

theorem rules_replaceAt (s : Scope) (level : Nat) (name : String) (b : Binding) :
    (s.replaceAt level name b).frames.map Frame.rule = s.frames.map Frame.rule :=
  map_replaceIn (fun r _ => r) level name b s.frames

theorem names_replaceAt (s : Scope) (level : Nat) (name : String) (b : Binding) :
    (s.replaceAt level name b).frames.map (fun f => f.bindings.keys) =
      s.frames.map fun f => f.bindings.keys :=
  map_replaceIn (fun _ ks => ks) level name b s.frames

end Scope

end RuleScan
