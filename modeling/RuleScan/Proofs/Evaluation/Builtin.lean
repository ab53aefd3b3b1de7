import RuleScan.Operator.Builtin
import RuleScan.Proofs.Evaluation.Step

/-!
# What built-in operators leave alone

The built-in operators emit messages and create files.  They read the current file, but
they neither change what evaluation reads nor ask it for anything, so a call of one of
them is a step that evaluation cannot tell from its value alone.  They record no failure
either: what they change is the output directory, the files, and the other effects, and a
condition that does not look at these is `Spared`.

## Main results

* `Spared.builtins` — a call maintains every condition that is spared.
* `sameView_builtins` — the session after a call has the view of the session before it.
* `failures_builtins` — a call records no failure.
-/

namespace RuleScan.Builtin

open Step

/-- The condition looks neither at the output directory nor at the files nor at what was
created, logged or warned of. -/
def Spared (P : Session → Prop) : Prop :=
  ∀ (s : Session) (output : Option OutputDir) (files : FileSystem) (created : List Path)
    (logs warnings : List String), P s →
      P { s with output, files, effects := ⟨created, logs, warnings, s.effects.failures⟩ }

variable {P : Session → Prop}

namespace Spared

theorem log (h : Spared P) (message : String) : Maintains P (Step.log message) :=
  maintains_change fun s hs => h s s.output s.files _ _ _ hs

theorem warn (h : Spared P) (message : String) : Maintains P (Step.warn message) :=
  maintains_change fun s hs => h s s.output s.files _ _ _ hs

theorem discard (h : Spared P) (p : Path) : Maintains P (Step.discard p) := by
  unfold Step.discard
  refine maintains_change fun s hs => ?_
  generalize (s.files.removeFile p).toOption.getD s.files = files
  exact h s s.output files _ _ _ hs

theorem putOutput (h : Spared P) (r : Except Error (Path × FileSystem) × OutputDir) :
    Maintains P (Step.putOutput r) := by
  intro s hs
  obtain ⟨r, out⟩ := r
  cases r with
  | error e => exact h s (some out) s.files _ _ _ hs
  | ok created => exact h s (some out) created.2 _ _ _ hs

theorem create (h : Spared P) (suggestion : String) : Maintains P (Step.create suggestion) := by
  intro s hs
  cases ho : s.output with
  | none => simpa [after, Step.create, ho] using hs
  | some out =>
      have hput := h.putOutput (out.create s.files suggestion) s hs
      simpa [after, Step.create, ho] using hput

theorem writeFile (h : Spared P) (p : Path) (content : Bytes) :
    Maintains P (Step.writeFile p content) := by
  intro s hs
  unfold after Step.writeFile
  cases s.files.writeFile p content with
  | ok files => exact h s s.output files _ _ _ hs
  | error cause => exact hs

theorem orDiscard (h : Spared P) (p : Path) {t : Step Unit} (ht : Maintains P t) :
    Maintains P (orDiscard p t) := by
  refine maintains_bind (maintains_attempt ht) fun r => ?_
  cases r with
  | ok _ => exact maintains_pure ()
  | error e => exact maintains_bind (h.discard p) fun _ => maintains_throw e

end Spared

theorem maintains_readRange (start stop : Nat) : Maintains P (readRange start stop) := by
  fun_induction readRange start stop with
  | case1 start hlt length ih =>
      exact maintains_bind (maintains_read _ _) fun _ => maintains_bind ih fun _ =>
        maintains_pure _
  | case2 start hge => exact maintains_pure []

theorem maintains_len (host : Host) (args : List Value) (m : Register) :
    Maintains P (len.run host args m) := by
  cases args with
  | nil => exact maintains_throw _
  | cons v rest => exact maintains_bind (maintains_ofValue _) fun _ => maintains_pure _

namespace Spared

theorem carveRanges (h : Spared P) (name : String) (ranges : List (Nat × Nat)) :
    Maintains P (carveRanges name ranges) := by
  induction ranges with
  | nil => exact maintains_pure ()
  | cons range rest ih =>
      refine maintains_bind (h.create name) fun p => ?_
      refine maintains_bind (h.orDiscard p ?_) fun _ => ih
      exact maintains_bind (maintains_readRange _ _) fun _ => h.writeFile p _

theorem carve (h : Spared P) (host : Host) (args : List Value) (m : Register) :
    Maintains P (carve.run host args m) := by
  cases args with
  | nil => exact maintains_throw _
  | cons v rest =>
      refine maintains_bind (maintains_ofValue _) fun name => ?_
      refine maintains_bind (maintains_ofValue _) fun positions => ?_
      refine maintains_bind (maintains_view _) fun size => ?_
      cases badRange? size (adjacent positions) with
      | some range => exact maintains_throw _
      | none => exact maintains_bind (h.carveRanges _ _) fun _ => maintains_pure _

theorem write (h : Spared P) (host : Host) (args : List Value) (m : Register) :
    Maintains P (write.run host args m) := by
  match args with
  | [] | [_] => exact maintains_throw _
  | v :: w :: _ =>
      refine maintains_bind (maintains_ofValue _) fun name => ?_
      refine maintains_bind (maintains_ofValue _) fun bytes => ?_
      refine maintains_bind (h.create _) fun p => ?_
      exact maintains_bind (h.orDiscard p (h.writeFile p bytes)) fun _ => maintains_pure _

end Spared

/-- There are five built-in operators. -/
theorem builtin_cases {name : String} {op : Operator}
    (h : Registry.builtins.get? name = some op) :
    op = len ∨ op = log ∨ op = warn ∨ op = carve ∨ op = write := by
  have hmem := Table.mem_of_get? h
  have hentries : Registry.builtins.operators.entries =
      [("Len", len), ("Log", log), ("Warn", warn), ("Carve", carve), ("Write", write)] := rfl
  rw [hentries] at hmem
  simp only [List.mem_cons, Prod.mk.injEq, List.not_mem_nil, or_false] at hmem
  rcases hmem with h | h | h | h | h <;> simp [h.2]

/-- A call of a built-in operator maintains what it cannot influence. -/
theorem Spared.builtins (h : Spared P) {name : String} {op : Operator}
    (hop : Registry.builtins.get? name = some op) (host : Host) (args : List Value)
    (m : Register) : Maintains P (op.run host args m) := by
  rcases builtin_cases hop with rfl | rfl | rfl | rfl | rfl
  · exact maintains_len host args m
  · exact maintains_bind (h.log _) fun _ => maintains_pure _
  · exact maintains_bind (h.warn _) fun _ => maintains_pure _
  · exact h.carve host args m
  · exact h.write host args m

/-- A call of a built-in operator changes nothing that evaluation reads. -/
theorem sameView_builtins {name : String} {op : Operator}
    (h : Registry.builtins.get? name = some op) (host : Host) (args : List Value)
    (m : Register) (s : Session) : s.SameView ((op.run host args m).after s) := by
  have hspared : Spared s.SameView := fun t _ _ _ _ _ ht => ht.trans ⟨rfl, rfl, rfl, rfl⟩
  exact hspared.builtins h host args m s (.refl s)

/-- A call of a built-in operator records no failure. -/
theorem failures_builtins {name : String} {op : Operator}
    (h : Registry.builtins.get? name = some op) (host : Host) (args : List Value)
    (m : Register) (s : Session) :
    ((op.run host args m).after s).effects.failures = s.effects.failures := by
  have hspared : Spared fun t => t.effects.failures = s.effects.failures :=
    fun _ _ _ _ _ _ ht => ht
  exact hspared.builtins h host args m s rfl

end RuleScan.Builtin
