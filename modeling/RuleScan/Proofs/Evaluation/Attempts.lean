import RuleScan.Proofs.Evaluation.Builtin
import RuleScan.Proofs.Evaluation.Invariant
import RuleScan.Proofs.Files.Output

/-!
# Attempts to create files

The built-in operators touch files in one way only.  A file is created, its bytes are asked for and
written, and if that fails the file is removed again and the call ends.  What is to be put into a
file (`Content`) is a range of the current file or a byte string; it is decided by the operator and
its arguments alone which contents a call puts into files, and in which order (`contents`).

`Attempts` lists every path that was handed out between two sessions, with the content that the file
was to have, and with the bytes that were written if the file was kept.  A call has a row of
attempts (`Records`): as long as it succeeds they have all the contents it was to deliver and all of
them are kept, and if it fails with one of them, then the last attempt is that one and the only one
without bytes.  An evaluation comes down to the calls in it (`Calls`).

## Main results

* `records_row` — what comes of putting contents into files, one after the other.
* `records_builtins` — what comes of a call of a built-in operator.
* `recorded_invariant` — an evaluation does nothing to files but make calls.
-/

namespace RuleScan

open Step

/-! ## Contents and attempts -/

/-- What is to be put into a new file: a range of the current file, or bytes. -/
inductive Content where
  | range (start stop : Nat)
  | bytes (bytes : Bytes)

namespace Content

/-- The bytes of a content, which the current file may not deliver. -/
def deliver : Content → Step Bytes
  | range start stop => Builtin.readRange start stop
  | bytes b => pure b

/-- Puts a content into a file. -/
def fill (c : Content) (p : Path) : Step Unit := do
  let bytes ← c.deliver
  Step.writeFile p bytes

end Content

/-- A path that was handed out for a file with some content.  There are bytes if the file was
kept. -/
structure Attempt where
  path : Path
  content : Content
  bytes : Option Bytes

/-- The file of an attempt that was kept. -/
def Attempt.kept? (a : Attempt) : Option (Path × Bytes) := a.bytes.map fun bytes => (a.path, bytes)

/-- From the first session to the second, these paths were handed out for files.  A file is kept
with the bytes that its content delivered and that were written, and it is discarded if the bytes
could not be delivered or not be written. -/
inductive Attempts : Session → List Attempt → Session → Prop
  | quiet {s t : Session} (houtput : t.output = s.output) (hfiles : t.files = s.files)
      (hcreated : t.effects.created = s.effects.created) : Attempts s [] t
  | refused {s t : Session} {out : OutputDir} {name : String} {cause : Error} (content : Content)
      (hout : s.output = some out) (hcreate : Step.create name s = .error cause t) :
      Attempts s [⟨(out.newName s.files name).1, content, none⟩] t
  | kept {s t u : Session} {name : String} {p : Path} {content : Content} {bytes : Bytes}
      (hcreate : Step.create name s = .ok p t) (hdeliver : content.deliver t = .ok bytes t)
      (hwrite : Step.writeFile p bytes t = .ok () u) : Attempts s [⟨p, content, some bytes⟩] u
  | failed {s t u : Session} {name : String} {p : Path} {content : Content} {cause : Error}
      (hcreate : Step.create name s = .ok p t) (hfill : content.fill p t = .error cause t)
      (hdiscard : Step.discard p t = .ok () u) : Attempts s [⟨p, content, none⟩] u
  | append {s t u : Session} {A B : List Attempt} (h : Attempts s A t) (h' : Attempts t B u) :
      Attempts s (A ++ B) u

/-! ## One content -/

namespace Content

/-- What is delivered depends on the current file alone, and delivering changes nothing. -/
theorem deliver_eq (c : Content) (s : Session) :
    (∃ bytes, ∀ t : Session, t.source = s.source → c.deliver t = .ok bytes t) ∨
      ∃ cause, ∀ t : Session, t.source = s.source → c.deliver t = .error cause t := by
  cases c with
  | bytes b => exact .inl ⟨b, fun _ _ => rfl⟩
  | range start stop =>
      unfold deliver
      dsimp only
      fun_induction Builtin.readRange start stop with
      | case2 => exact .inl ⟨[], fun _ _ => rfl⟩
      | case1 start hlt length ih =>
          cases hread : s.source.read start length with
          | error cause =>
              refine .inr ⟨cause, fun t ht => bind_of_error ?_ _⟩
              rw [Step.read, ht, hread]
          | ok chunk =>
              have hchunk : ∀ t : Session, t.source = s.source →
                  Step.read start length t = .ok chunk t := fun t ht => by
                rw [Step.read, ht, hread]
              rcases ih with ⟨bytes, hbytes⟩ | ⟨cause, hcause⟩
              · refine .inl ⟨chunk ++ bytes, fun t ht => ?_⟩
                rw [bind_of_ok (hchunk t ht), bind_of_ok (hbytes t ht)]
                rfl
              · refine .inr ⟨cause, fun t ht => ?_⟩
                rw [bind_of_ok (hchunk t ht)]
                exact bind_of_error (hcause t ht) _

/-- The outcome of delivering a content depends on the current file alone. -/
theorem outcome_deliver (c : Content) {s t : Session} (h : t.source = s.source) :
    c.deliver.outcome t = c.deliver.outcome s := by
  rcases c.deliver_eq s with ⟨bytes, hbytes⟩ | ⟨cause, hcause⟩
  · rw [outcome_of_ok (hbytes t h), outcome_of_ok (hbytes s rfl)]
  · rw [outcome_of_error (hcause t h), outcome_of_error (hcause s rfl)]

end Content

/-! ## Steps that touch files -/

namespace Step

variable {s t u : Session} {name : String} {p : Path} {out : OutputDir} {bytes : Bytes}

/-- A file that is created is an entry of the output directory. -/
theorem create_ok (h : Step.create name s = .ok p t) :
    s.files.createFile p = .ok t.files ∧ t.effects.created = s.effects.created ++ [p] ∧
      t.output.map OutputDir.root = s.output.map OutputDir.root ∧
      ∃ root n, s.output.map OutputDir.root = some root ∧ Path.IsName n ∧ p = root.join n := by
  unfold Step.create at h
  cases hout : s.output with
  | none =>
      rw [hout] at h
      cases h
  | some out =>
      rw [hout] at h
      have hroot := out.root_create s.files name
      cases hcreate : out.create s.files name with
      | mk r out' =>
          rw [hcreate] at hroot
          cases r with
          | error cause => simp [putOutput, hcreate] at h
          | ok created =>
              obtain ⟨q, fs⟩ := created
              obtain ⟨hfile, n, hn, hq⟩ := OutputDir.create_ok hcreate
              simp only [hcreate, putOutput, EStateM.Result.ok.injEq] at h
              obtain ⟨rfl, rfl⟩ := h
              exact ⟨hfile, rfl, congrArg some hroot, out.root, n, rfl, hn, hq⟩

/-- A file that cannot be created changes no file. -/
theorem create_error {cause : Error} (h : Step.create name s = .error cause t) :
    t.files = s.files ∧ t.effects.created = s.effects.created ∧
      t.output.map OutputDir.root = s.output.map OutputDir.root := by
  unfold Step.create at h
  cases hout : s.output with
  | none =>
      simp only [hout, EStateM.Result.error.injEq] at h
      obtain ⟨-, rfl⟩ := h
      exact ⟨rfl, rfl, by rw [hout]⟩
  | some out =>
      rw [hout] at h
      have hroot := out.root_create s.files name
      cases hcreate : out.create s.files name with
      | mk r out' =>
          rw [hcreate] at hroot
          cases r with
          | ok created => simp [putOutput, hcreate] at h
          | error e =>
              simp only [hcreate, putOutput, EStateM.Result.error.injEq] at h
              obtain ⟨-, rfl⟩ := h
              exact ⟨rfl, rfl, congrArg some hroot⟩

theorem discard_ok (h : Step.discard p t = .ok () u) :
    u.files = (t.files.removeFile p).toOption.getD t.files ∧
      u.effects.created = t.effects.created.filter (fun q => !q.same p) ∧ u.output = t.output := by
  unfold Step.discard Step.change at h
  dsimp only at h
  generalize (t.files.removeFile p).toOption.getD t.files = files at h ⊢
  cases h
  exact ⟨rfl, rfl, rfl⟩

theorem create_eq (hout : s.output = some out) : Step.create name s =
    putOutput (out.create s.files name) s := by
  rw [Step.create, hout]

theorem writeFile_ok (h : Step.writeFile p bytes s = .ok () t) :
    t.output = s.output ∧ t.effects = s.effects := by
  unfold Step.writeFile at h
  split at h
  · cases h
    exact ⟨rfl, rfl⟩
  · cases h

/-- A file that could not be written is as it was. -/
theorem writeFile_error {cause : Error} (h : Step.writeFile p bytes s = .error cause t) :
    t = s := by
  unfold Step.writeFile at h
  split at h
  · cases h
  · cases h
    rfl

end Step

/-- The output directory is where it was. -/
theorem Attempts.root {s t : Session} {A : List Attempt} (h : Attempts s A t) :
    t.output.map OutputDir.root = s.output.map OutputDir.root := by
  induction h with
  | quiet houtput => rw [houtput]
  | refused _ _ hcreate => exact (Step.create_error hcreate).2.2
  | kept hcreate _ hwrite =>
      rw [(Step.writeFile_ok hwrite).1]
      exact (Step.create_ok hcreate).2.2.1
  | failed hcreate _ hdiscard =>
      rw [(Step.discard_ok hdiscard).2.2]
      exact (Step.create_ok hcreate).2.2.1
  | append _ _ ih ih' => exact ih'.trans ih

namespace Builtin

variable {s t : Session} {name : String} {p : Path} {content : Content} {cause : Error}

/-- Puts a content into a new file. -/
def deposit (name : String) (content : Content) : Step Path := do
  let p ← Step.create name
  orDiscard p (content.fill p)
  pure p

theorem orDiscard_of_ok {f : Step Unit} (h : f s = .ok () t) : orDiscard p f s = .ok () t := by
  rw [orDiscard, bind_of_ok (attempt_ok h)]
  rfl

theorem orDiscard_of_error {f : Step Unit} (h : f s = .error cause t) :
    orDiscard p f s = .error cause ((Step.discard p).after t) := by
  rw [orDiscard, bind_of_ok (attempt_error h)]
  rfl

/-- Creating and writing files does not change the current file. -/
theorem spared_source (source : Source) : Spared fun u => u.source = source :=
  fun _ _ _ _ _ _ h => h

/-- A file is created and written, or it is not: then it is discarded, and the call has failed. -/
inductive Deposited (s : Session) (content : Content) : EStateM.Result Error Session Path → Prop
  | nowhere (hout : s.output = none) : Deposited s content (.error .noOutputDirectory s)
  | kept {p : Path} {bytes : Bytes} {t : Session} (hdeliver : content.deliver.outcome s = .ok bytes)
      (hattempt : Attempts s [⟨p, content, some bytes⟩] t) (hsource : t.source = s.source) :
      Deposited s content (.ok p t)
  | failed {p : Path} {cause : Error} {t : Session} (hattempt : Attempts s [⟨p, content, none⟩] t) :
      Deposited s content (.error cause t)

theorem deposited (name : String) (content : Content) (s : Session) :
    Deposited s content (deposit name content s) := by
  unfold deposit
  cases hcreate : Step.create name s with
  | error cause s' =>
      rw [bind_of_error hcreate]
      cases hout : s.output with
      | some out => exact .failed (.refused content hout hcreate)
      | none =>
          rw [Step.create, hout] at hcreate
          cases hcreate
          exact .nowhere hout
  | ok p s' =>
      rw [bind_of_ok hcreate]
      have hsource : s'.source = s.source := by
        have h := (spared_source s.source).create name s rfl
        rwa [after_of_ok hcreate] at h
      have hfailed : ∀ {cause : Error}, content.fill p s' = .error cause s' →
          Deposited s content ((orDiscard p (content.fill p) >>= fun _ => pure p) s') := by
        intro cause hfill
        rw [bind_of_error (orDiscard_of_error hfill)]
        exact .failed (.failed hcreate hfill rfl)
      rcases content.deliver_eq s with ⟨bytes, hbytes⟩ | ⟨cause, hcause⟩
      · have hdeliver := hbytes s' hsource
        cases hwrite : Step.writeFile p bytes s' with
        | error cause u =>
            obtain rfl := Step.writeFile_error hwrite
            exact hfailed ((bind_of_ok hdeliver _).trans hwrite)
        | ok _ u =>
            have hfill : content.fill p s' = .ok () u := (bind_of_ok hdeliver _).trans hwrite
            rw [bind_of_ok (orDiscard_of_ok hfill)]
            refine .kept (outcome_of_ok (hbytes s rfl)) (.kept hcreate hdeliver hwrite) ?_
            have h := (spared_source s.source).writeFile p bytes s' hsource
            rwa [after_of_ok hwrite] at h
      · exact hfailed (bind_of_error (hcause s' hsource) _)

/-! ## Contents one after the other -/

/--
What comes of contents that are put into files one after the other, up to the first failure.  All
files were kept, each with the bytes of its content, if everything succeeded; and if it failed, then
all but the last one were.
-/
structure Records {α : Type} (s : Session) (contents : List Content) (A : List Attempt)
    (outcome : Except Error α) (t : Session) : Prop where
  attempts : Attempts s A t
  asked : A.map Attempt.content <+: contents
  /-- A file that was kept has the bytes that its content delivered. -/
  delivered : ∀ a ∈ A, ∀ bytes, a.bytes = some bytes → a.content.deliver.outcome s = .ok bytes
  succeeded : ∀ v, outcome = .ok v →
    A.map Attempt.content = contents ∧ ∀ a ∈ A, a.bytes ≠ none
  /-- The failure is that of the last file. -/
  failed : ∀ e, outcome = .error e → contents ≠ [] → s.output ≠ none →
    ∃ B a, A = B ++ [a] ∧ (∀ b ∈ B, b.bytes ≠ none) ∧ a.bytes = none

/-- No file is to be created and none is. -/
theorem Records.nothing {α : Type} {outcome : Except Error α} (houtput : t.output = s.output)
    (hfiles : t.files = s.files) (hcreated : t.effects.created = s.effects.created) :
    Records s [] [] outcome t where
  attempts := .quiet houtput hfiles hcreated
  asked := List.nil_prefix
  delivered := nofun
  succeeded _ _ := ⟨rfl, nofun⟩
  failed _ _ h := absurd rfl h

/-- What is made of the value does not matter. -/
theorem Records.bind_pure {α β : Type} {contents : List Content} {A : List Attempt} {f : Step α}
    (h : Records s contents A (f.outcome s) (f.after s)) (g : α → β) :
    Records s contents A ((f >>= fun a => pure (g a)).outcome s)
      ((f >>= fun a => pure (g a)).after s) := by
  cases hf : f s with
  | ok a t =>
      rw [outcome_of_ok hf, after_of_ok hf] at h
      have hend : (f >>= fun a => pure (g a)) s = .ok (g a) t := bind_of_ok hf _
      rw [outcome_of_ok hend, after_of_ok hend]
      exact ⟨h.attempts, h.asked, h.delivered, fun _ _ => h.succeeded a rfl, nofun⟩
  | error e t =>
      rw [outcome_of_error hf, after_of_error hf] at h
      have hend : (f >>= fun a => pure (g a)) s = .error e t := bind_of_error hf _
      rw [outcome_of_error hend, after_of_error hend]
      refine ⟨h.attempts, h.asked, h.delivered, nofun, fun e' he' => h.failed e' ?_⟩
      cases he'
      rfl

/-- A call that looks at its arguments, and rejects them. -/
theorem records_rejected {α : Type} {f : Step α} {contents : List Content} (cause : Error)
    (hrun : f s = .error cause s) (hcontents : contents = []) :
    ∃ A, Records s contents A (f.outcome s) (f.after s) := by
  rw [outcome_of_error hrun, after_of_error hrun, hcontents]
  exact ⟨[], .nothing rfl rfl rfl⟩

/-- A file was kept, and what follows is recorded. -/
theorem Records.cons {α : Type} {contents : List Content} {A : List Attempt} {bytes : Bytes}
    {outcome : Except Error α} {u : Session}
    (hdeliver : content.deliver.outcome s = .ok bytes)
    (hattempt : Attempts s [⟨p, content, some bytes⟩] t) (hsource : t.source = s.source)
    (h : Records t contents A outcome u) (hend : contents = [] → ∃ v, outcome = .ok v) :
    Records s (content :: contents) (⟨p, content, some bytes⟩ :: A) outcome u where
  attempts := hattempt.append h.attempts
  asked := (List.prefix_cons_inj content).2 h.asked
  delivered := by
    refine List.forall_mem_cons.2 ⟨fun b hb => ?_, fun a ha b hb => ?_⟩
    · obtain rfl := Option.some.inj hb
      exact hdeliver
    · rw [← a.content.outcome_deliver hsource]
      exact h.delivered a ha b hb
  succeeded v hv := by
    obtain ⟨hcontents, hkept⟩ := h.succeeded v hv
    exact ⟨by rw [List.map_cons, hcontents], List.forall_mem_cons.2 ⟨nofun, hkept⟩⟩
  failed e he _ hout := by
    have hne : contents ≠ [] := fun hnil => by
      obtain ⟨v, hv⟩ := hend hnil
      rw [hv] at he
      cases he
    have hout' : t.output ≠ none := fun hnone =>
      hout (Option.map_eq_none_iff.1 (by rw [← hattempt.root, hnone]; rfl))
    obtain ⟨B, a, rfl, hkept, hlast⟩ := h.failed e he hne hout'
    exact ⟨_ :: B, a, rfl, List.forall_mem_cons.2 ⟨nofun, hkept⟩, hlast⟩

/-- Where a content could not be put into a file, the ones behind it are not tried. -/
theorem Deposited.records_error (h : Deposited s content (.error cause t)) (rest : List Content)
    {α : Type} : ∃ A, Records s (content :: rest) A (.error cause : Except Error α) t := by
  cases h with
  | nowhere hout =>
      exact ⟨[], .quiet rfl rfl rfl, List.nil_prefix, nofun, nofun,
        fun _ _ _ hout' => absurd hout hout'⟩
  | failed hattempt =>
      refine ⟨_, hattempt, ?_, ?_, nofun, fun _ _ _ _ => ⟨[], _, rfl, nofun, rfl⟩⟩
      · exact (List.prefix_cons_inj content).2 List.nil_prefix
      · exact List.forall_mem_singleton.2 nofun

/-- A single content is put into a file. -/
theorem records_deposit (name : String) (content : Content) (s : Session) :
    ∃ A, Records s [content] A ((deposit name content).outcome s)
      ((deposit name content).after s) := by
  have h := deposited name content s
  cases hdeposit : deposit name content s with
  | ok p t =>
      rw [hdeposit] at h
      rw [outcome_of_ok hdeposit, after_of_ok hdeposit]
      cases h with
      | kept hdeliver hattempt hsource =>
          exact ⟨_, .cons hdeliver hattempt hsource (.nothing rfl rfl rfl) fun _ => ⟨p, rfl⟩⟩
  | error cause t =>
      rw [outcome_of_error hdeposit, after_of_error hdeposit]
      rw [hdeposit] at h
      exact h.records_error []

/-- Puts contents into new files, one after the other. -/
def row (name : String) : List Content → Step Unit
  | [] => pure ()
  | content :: rest => do
    let _ ← deposit name content
    row name rest

/-- The induction is on the contents; the first failure ends the row. -/
theorem records_row (name : String) (contents : List Content) (s : Session) :
    ∃ A, Records s contents A ((row name contents).outcome s) ((row name contents).after s) := by
  induction contents generalizing s with
  | nil => exact ⟨[], .nothing rfl rfl rfl⟩
  | cons content rest ih =>
      have hfirst := deposited name content s
      cases hdeposit : deposit name content s with
      | ok p t =>
          have hrow : row name (content :: rest) s = row name rest t := bind_of_ok hdeposit _
          rw [hdeposit] at hfirst
          cases hfirst with
          | kept hdeliver hattempt hsource =>
              obtain ⟨A, hA⟩ := ih t
              unfold outcome after at hA ⊢
              rw [hrow]
              refine ⟨_, hA.cons hdeliver hattempt hsource fun hnil => ?_⟩
              rw [hnil]
              exact ⟨(), rfl⟩
      | error cause t =>
          have hrow : row name (content :: rest) s = .error cause t := bind_of_error hdeposit _
          rw [outcome_of_error hrow, after_of_error hrow]
          rw [hdeposit] at hfirst
          exact hfirst.records_error rest

/-! ## Calls -/

/-- The contents that a call of `Carve` puts into files if the file has this size. -/
def carved (args : List Value) (size : Nat) : List Content :=
  match args with
  | v :: rest =>
    match v.asBytes, rest.mapM Value.asOffset with
    | .ok _, .ok positions =>
      if badRange? size (adjacent positions) = none then
        (adjacent positions).map fun r => .range r.1 r.2
      else []
    | _, _ => []
  | [] => []

/-- The content that a call of `Write` puts into a file. -/
def written (args : List Value) : List Content :=
  match args with
  | v :: w :: _ =>
    match v.asBytes, w.asBytes with
    | .ok _, .ok bytes => [.bytes bytes]
    | _, _ => []
  | _ => []

/-- The contents that a call of a built-in operator puts into files; none if it only looks at its
arguments, or rejects them. -/
def contents (operator : String) (args : List Value) (size : Nat) : List Content :=
  if operator = "Carve" then carved args size
  else if operator = "Write" then written args
  else []

theorem carveRanges_eq_row (name : String) (ranges : List (Nat × Nat)) :
    carveRanges name ranges = row name (ranges.map fun r => .range r.1 r.2) := by
  induction ranges with
  | nil => rfl
  | cons r rest ih =>
      obtain ⟨start, stop⟩ := r
      rw [carveRanges, ih, List.map_cons, row, deposit]
      simp only [bind_assoc, pure_bind]
      rfl

/-- What is left to do once the arguments are known to be positions. -/
theorem carve_run_eq {v : Value} {rest : List Value} {pre : Bytes} {positions : List Nat}
    (hname : v.asBytes = .ok pre) (hpositions : rest.mapM Value.asOffset = .ok positions)
    (host : Host) (m : Register) (s : Session) :
    carve.run host (v :: rest) m s =
      (match badRange? s.source.size (adjacent positions) with
      | some (a, b) => throw (.outOfRange (.badPiece a b s.source.size))
      | none => do
        carveRanges (Utf8.lossy pre) (adjacent positions)
        pure (.number (.ofNat (positions.length - 1) .w64)) : Step Value) s := by
  show (ofValue v.asBytes >>= fun name =>
                ofValue (rest.mapM Value.asOffset) >>= _) s = _
  rw [hname, hpositions]
  rfl

theorem records_carve (host : Host) (args : List Value) (m : Register) (s : Session) :
    ∃ A, Records s (carved args s.source.size) A ((carve.run host args m).outcome s)
      ((carve.run host args m).after s) := by
  cases args with
  | nil => exact ⟨[], .nothing rfl rfl rfl⟩
  | cons v rest =>
      cases hname : v.asBytes with
      | error cause =>
          refine records_rejected (.value cause) ?_ (by simp only [carved, hname])
          show (ofValue v.asBytes >>= _) s = _
          rw [hname]
          rfl
      | ok name =>
          cases hpositions : rest.mapM Value.asOffset with
          | error cause =>
              refine records_rejected (.value cause) ?_
                (by simp only [carved, hname, hpositions])
              show (ofValue v.asBytes >>= fun name =>
                ofValue (rest.mapM Value.asOffset) >>= _) s = _
              rw [hname, hpositions]
              rfl
          | ok positions =>
              have hrun := carve_run_eq hname hpositions host m s
              cases hbad : badRange? s.source.size (adjacent positions) with
              | some range =>
                  rw [hbad] at hrun
                  exact records_rejected _ hrun (by simp [carved, hname, hpositions, hbad])
              | none =>
                  rw [hbad] at hrun
                  obtain ⟨A, hA⟩ := records_row (Utf8.lossy name)
                    ((adjacent positions).map fun r => .range r.1 r.2) s
                  rw [← carveRanges_eq_row] at hA
                  have hend := hA.bind_pure fun _ =>
                    Value.number (.ofNat (positions.length - 1) .w64)
                  unfold outcome after at hend ⊢
                  rw [hrun]
                  simp only [carved, hname, hpositions, hbad]
                  exact ⟨A, hend⟩

theorem records_write (host : Host) (args : List Value) (m : Register) (s : Session) :
    ∃ A, Records s (written args) A ((write.run host args m).outcome s)
      ((write.run host args m).after s) := by
  match args with
  | [] | [_] => exact ⟨[], .nothing rfl rfl rfl⟩
  | v :: w :: rest =>
      cases hname : v.asBytes with
      | error cause =>
          refine records_rejected (.value cause) ?_ (by simp only [written, hname])
          show (ofValue v.asBytes >>= _) s = _
          rw [hname]
          rfl
      | ok name =>
          cases hbytes : w.asBytes with
          | error cause =>
              refine records_rejected (.value cause) ?_
                (by simp only [written, hname, hbytes])
              show (ofValue v.asBytes >>= fun name => ofValue w.asBytes >>= _) s = _
              rw [hname, hbytes]
              rfl
          | ok bytes =>
              have hrun : write.run host (v :: w :: rest) m s =
                  (deposit (Utf8.lossy name) (.bytes bytes) >>= fun p =>
                    pure (Value.text p) : Step Value) s := by
                show (ofValue v.asBytes >>= fun name => ofValue w.asBytes >>= _) s = _
                rw [hname, hbytes, deposit]
                simp only [bind_assoc, pure_bind]
                rfl
              obtain ⟨A, hA⟩ := records_deposit (Utf8.lossy name) (.bytes bytes) s
              have hend := hA.bind_pure Value.text
              unfold outcome after at hend ⊢
              rw [hrun]
              simp only [written, hname, hbytes]
              exact ⟨A, hend⟩

/-- Operators by their names. -/
theorem named_builtins {name : String} {op : Operator}
    (h : Registry.builtins.get? name = some op) :
    (name, op) ∈ [("Len", len), ("Log", log), ("Warn", warn), ("Carve", carve),
      ("Write", write)] :=
  Table.mem_of_get? h

/-- What comes of a call of a built-in operator. -/
theorem records_builtins {name : String} {op : Operator}
    (h : Registry.builtins.get? name = some op) (host : Host) (args : List Value) (m : Register)
    (s : Session) : ∃ A, Records s (contents name args s.source.size) A
      ((op.run host args m).outcome s) ((op.run host args m).after s) := by
  have hnamed := named_builtins h
  simp only [List.mem_cons, Prod.mk.injEq, List.not_mem_nil, or_false] at hnamed
  rcases hnamed with ⟨rfl, rfl⟩ | ⟨rfl, rfl⟩ | ⟨rfl, rfl⟩ | ⟨rfl, rfl⟩ | ⟨rfl, rfl⟩
  · have hsame : (len.run host args m).after s = s :=
      maintains_len (P := fun u => u = s) host args m s rfl
    exact ⟨[], .nothing (by rw [hsame]) (by rw [hsame]) (by rw [hsame])⟩
  · exact ⟨[], .nothing rfl rfl rfl⟩
  · exact ⟨[], .nothing rfl rfl rfl⟩
  · exact records_carve host args m s
  · exact records_write host args m s

end Builtin

/-- A call of an operator in an evaluation: the session before it, its outcome and the session after
it, and the attempts to create files in between. -/
structure Call where
  operator : String
  args : List Value
  before : Session
  outcome : Except Error Value
  after : Session
  attempts : List Attempt

/-- The attempts of a call are those that its operator and its arguments ask for. -/
def Call.IsRecorded (c : Call) : Prop :=
  Builtin.Records c.before (Builtin.contents c.operator c.args c.before.source.size) c.attempts
    c.outcome c.after

/-- From the first session to the second, these calls of built-in operators were made.  Whatever
happened besides touched no files. -/
inductive Calls : Session → List Call → Session → Prop
  | quiet {s t : Session} (houtput : t.output = s.output) (hfiles : t.files = s.files)
      (hcreated : t.effects.created = s.effects.created) : Calls s [] t
  | call {name : String} {op : Operator} (hop : Registry.builtins.get? name = some op)
      (host : Host) (args : List Value) (m : Register) (s : Session) (A : List Attempt) :
      Calls s [⟨name, args, s, (op.run host args m).outcome s, (op.run host args m).after s, A⟩]
        ((op.run host args m).after s)
  | append {s t u : Session} {C D : List Call} (h : Calls s C t) (h' : Calls t D u) :
      Calls s (C ++ D) u

/-- Calls were made from the first session to the second, and recorded. -/
def Session.Recorded (s t : Session) : Prop := ∃ C, Calls s C t ∧ ∀ c ∈ C, c.IsRecorded

variable {s t u : Session}

theorem Calls.attempts {C : List Call} (h : Calls s C t) (hC : ∀ c ∈ C, c.IsRecorded) :
    Attempts s (C.flatMap Call.attempts) t := by
  induction h with
  | quiet houtput hfiles hcreated => exact .quiet houtput hfiles hcreated
  | call =>
      rw [List.flatMap_singleton]
      exact (hC _ (List.mem_singleton_self _)).attempts
  | append _ _ ih ih' =>
      obtain ⟨hC, hD⟩ := List.forall_mem_append.1 hC
      rw [List.flatMap_append]
      exact (ih hC).append (ih' hD)

/-- Every call finds the output directory where it was at the beginning. -/
theorem Calls.root {C : List Call} (h : Calls s C t) (hC : ∀ c ∈ C, c.IsRecorded) :
    ∀ c ∈ C, c.before.output.map OutputDir.root = s.output.map OutputDir.root := by
  induction h with
  | quiet => exact List.forall_mem_nil _
  | call => exact List.forall_mem_singleton.2 rfl
  | append h _ ih ih' =>
      obtain ⟨hC, hD⟩ := List.forall_mem_append.1 hC
      exact List.forall_mem_append.2
        ⟨ih hC, fun c hc => (ih' hD c hc).trans (h.attempts hC).root⟩

namespace Session.Recorded

theorem quiet (houtput : t.output = s.output) (hfiles : t.files = s.files)
    (hcreated : t.effects.created = s.effects.created) : s.Recorded t :=
  ⟨[], .quiet houtput hfiles hcreated, List.forall_mem_nil _⟩

theorem trans (h : s.Recorded t) (h' : t.Recorded u) : s.Recorded u := by
  obtain ⟨C, hC, hrecorded⟩ := h
  obtain ⟨D, hD, hrecorded'⟩ := h'
  exact ⟨C ++ D, hC.append hD, List.forall_mem_append.2 ⟨hrecorded, hrecorded'⟩⟩

/-- What happens to a session apart from files does not matter, before and after. -/
theorem amid {s' t' : Session} (h : s'.Recorded t') (hs : s.Recorded s') (ht : t'.Recorded t) :
    s.Recorded t :=
  (hs.trans h).trans ht

end Session.Recorded

/-- Neither levels nor bindings nor frames nor failures have to do with files. -/
theorem Environment.recorded_invariant (rules : RuleSet) :
    Invariant ⟨rules, .builtins⟩ Session.Recorded where
  refl _ := .quiet rfl rfl rfl
  trans h h' := h.trans h'
  nested h := h.amid (.quiet rfl rfl rfl) (.quiet rfl rfl rfl)
  settled _ h _ := h.amid (.quiet rfl rfl rfl) (.quiet rfl rfl rfl)
  framed h := h.amid (.quiet rfl rfl rfl) (.quiet rfl rfl rfl)
  recorded _ _ := .quiet rfl rfl rfl
  called hop host args m _ s := by
    obtain ⟨A, hA⟩ := Builtin.records_builtins hop host args m s
    exact ⟨_, .call hop host args m s A, List.forall_mem_singleton.2 hA⟩

end RuleScan
