import RuleScan.Proofs.Evaluation.Deposit
import RuleScan.Proofs.Files.Fresh

/-!
# The list of created files is the truth

An operator that puts bytes into a file asks for a path, creates the file, enters it into the list
of created files, and takes it off the list and removes it again if the bytes cannot be delivered.
Four functions take part, and the bytes can fail to come at any moment, in the middle of a file
or of a row of files.  Still, the list and the directory agree at any time between the calls.

What holds of the paths that were handed out (`Session.HandsOut`) and of the files that were kept
(`Session.Gained`, `Session.Adds`) is shown of one attempt and composed; `Ledger` is what follows
for the list.  Which attempts there were is known from the calls that were made (`Calls`).

## Main results

* `Attempts.handsOut` — no path is handed out that is taken or exists, and none twice.
* `Deposits.adds` — nothing but the files that were kept is new.
* `Gained.exists?_iff_mem` — the new entries of the output directory are the files that were kept.
* `evaluateRules_ledger` — after any rules, the list and the directory agree.
-/

namespace RuleScan

open FileSystem

variable {s t u : Session} {A B : List Attempt} {W V : List (Path × Bytes)} {out : OutputDir}

theorem Attempts.gained (h : Attempts s A t) (hs : s.Stocked) :
    s.Gained (A.filterMap Attempt.kept?) t :=
  h.deposits.gained hs

/-! ## Paths -/

/-- From an output directory these paths were handed out: names in the directory, each of them free
at the beginning, and no two the same. -/
structure Session.HandsOut (s : Session) (out : OutputDir) (A : List Attempt) (t : Session) :
    Prop where
  output : t.output = some { out with taken := (A.map Attempt.path).reverse ++ out.taken }
  named : ∀ a ∈ A, ∃ name, Path.IsName name ∧ a.path = out.root.join name
  free : ∀ a ∈ A, out.isFree s.files a.path = true
  apart : (A.map fun a => a.path.components).Nodup

namespace Session.HandsOut

/-- One path is handed out. -/
theorem one (htree : s.files.IsTree) {name : String} {a : Attempt}
    (hpath : a.path = (out.newName s.files name).1)
    (houtput : t.output = some (out.newName s.files name).2) : s.HandsOut out [a] t where
  output := by
    rw [houtput]
    simp [hpath, OutputDir.newName]
  named := by
    rw [List.forall_mem_singleton, hpath]
    exact out.newName_eq_join s.files name
  free := by
    rw [List.forall_mem_singleton, hpath]
    exact OutputDir.isFree_newName htree out name
  apart := List.nodup_singleton _

/-- What is free later on was free before, and it is none of the paths handed out meanwhile. -/
theorem append {out' : OutputDir} (h : s.HandsOut out A t) (hout' : t.output = some out')
    (h' : t.HandsOut out' B u) (hstree : s.files.IsTree) (httree : t.files.IsTree)
    (hkeeps : s.files.Keeps t.files) : s.HandsOut out (A ++ B) u := by
  obtain rfl : _ = out' := Option.some.inj (h.output.symm.trans hout')
  have hfree : ∀ b ∈ B, (∀ a ∈ A, a.path.components ≠ b.path.components) ∧
      out.isFree s.files b.path = true := by
    intro b hb
    obtain ⟨htaken, hnone⟩ := OutputDir.isFree_iff.1 (h'.free b hb)
    rw [List.forall_mem_append] at htaken
    refine ⟨fun a ha => htaken.1 _ (List.mem_reverse.2 (List.mem_map_of_mem ha)),
      OutputDir.isFree_iff.2 ⟨htaken.2, ?_⟩⟩
    refine Bool.eq_false_iff.2 fun hex => ?_
    rw [exists?_keeps hstree httree hkeeps hex] at hnone
    cases hnone
  refine ⟨?_, List.forall_mem_append.2 ⟨h.named, h'.named⟩,
    List.forall_mem_append.2 ⟨h.free, fun b hb => (hfree b hb).2⟩, ?_⟩
  · rw [h'.output]
    simp
  · rw [List.map_append]
    refine List.nodup_append.2 ⟨h.apart, h'.apart, ?_⟩
    simp only [List.forall_mem_map]
    exact fun a ha b hb => (hfree b hb).1 a ha

end Session.HandsOut

namespace Step

variable {name : String} {p : Path}

/-- The path of a file that is created is handed out. -/
theorem create_ok_output (hout : s.output = some out) (h : Step.create name s = .ok p t) :
    p = (out.newName s.files name).1 ∧ t.output = some (out.newName s.files name).2 := by
  rw [create_eq hout] at h
  unfold OutputDir.create putOutput at h
  dsimp only at h
  cases hfile : s.files.createFile (out.newName s.files name).1 with
  | ok files =>
      rw [hfile] at h
      cases h
      exact ⟨rfl, rfl⟩
  | error cause =>
      rw [hfile] at h
      cases h

/-- So is the path of a file that cannot be created. -/
theorem create_error_output {cause : Error} (hout : s.output = some out)
    (h : Step.create name s = .error cause t) :
    t.output = some (out.newName s.files name).2 := by
  rw [create_eq hout] at h
  unfold OutputDir.create putOutput at h
  dsimp only at h
  cases hfile : s.files.createFile (out.newName s.files name).1 with
  | ok files =>
      rw [hfile] at h
      cases h
  | error cause =>
      rw [hfile] at h
      cases h
      rfl

end Step

/-- The induction is on how the paths were handed out; a session in between has the output directory
with the paths handed out before. -/
theorem Attempts.handsOut (h : Attempts s A t) (hs : s.Stocked) (hout : s.output = some out) :
    s.HandsOut out A t := by
  induction h generalizing out with
  | quiet houtput _ _ => exact ⟨houtput.trans hout, nofun, nofun, List.nodup_nil⟩
  | refused _ hout' hcreate =>
      obtain rfl := Option.some.inj (hout'.symm.trans hout)
      exact .one hs.tree rfl (Step.create_error_output hout hcreate)
  | kept hcreate _ hwrite =>
      obtain ⟨hpath, houtput⟩ := Step.create_ok_output hout hcreate
      obtain ⟨-, -, hsame, -⟩ := Step.kept_place hs hcreate hwrite
      exact .one hs.tree hpath (hsame.trans houtput)
  | failed hcreate _ hdiscard =>
      obtain ⟨hpath, houtput⟩ := Step.create_ok_output hout hcreate
      obtain ⟨-, -, hsame⟩ := Step.discard_ok hdiscard
      exact .one hs.tree hpath (hsame.trans houtput)
  | append h _ ih ih' =>
      have hfirst := ih hs hout
      have hgained := h.gained hs
      exact hfirst.append hfirst.output (ih' hgained.stocked hfirst.output) hs.tree
        hgained.stocked.tree hgained.keeps

/-! ## Files -/

/-- Whatever is there now and was not there before is one of these files. -/
def Session.Adds (s : Session) (W : List (Path × Bytes)) (t : Session) : Prop :=
  ∀ l node, s.files.node? l = none → t.files.node? l = some node →
    ∃ d ∈ W, t.files.Holds d.1 d.2 l

theorem Session.Adds.nothing (h : ∀ l, t.files.node? l = s.files.node? l) : s.Adds [] t := by
  intro l node hnone hnode
  rw [h, hnone] at hnode
  cases hnode

/-- The induction is on how the files were deposited: each deposit alters one place. -/
theorem Deposits.adds (h : Deposits s W t) (hs : s.Stocked) : s.Adds W t := by
  induction h with
  | quiet _ hfiles _ => exact .nothing fun l => by rw [hfiles]
  | refused hcreate => exact .nothing fun l => by rw [(Step.create_error hcreate).1]
  | kept hcreate hwrite =>
      obtain ⟨-, -, -, l, -, -, halters, hheld⟩ := Step.kept_place hs hcreate hwrite
      intro l' node hnone' hnode'
      by_cases hl : l' = l
      · exact ⟨_, List.mem_singleton_self _, hl ▸ hheld⟩
      · rw [halters.elsewhere hl, hnone'] at hnode'
        cases hnode'
  | discarded hcreate hdiscard =>
      obtain ⟨-, l, hnone, -, halters, hgone⟩ := Step.discarded_place hs hcreate hdiscard
      refine .nothing fun l' => ?_
      by_cases hl : l' = l
      · rw [hl, hgone, hnone]
      · exact halters.elsewhere hl
  | @append s t u W V h h' ih ih' =>
      have hmiddle := h.gained hs
      have hlast := h'.gained hmiddle.stocked
      intro l node hnone hnode
      cases hl : t.files.node? l with
      | none =>
          obtain ⟨d, hd, hheld⟩ := ih' hmiddle.stocked l node hl hnode
          exact ⟨d, List.mem_append_right _ hd, hheld⟩
      | some before =>
          obtain ⟨d, hd, hheld⟩ := ih hs l before hnone hl
          exact ⟨d, List.mem_append_left _ hd, hheld.keeps hlast.keeps⟩

namespace Session.Gained

/-- Files lead nowhere, so paths lead where they led before. -/
theorem guides_back (h : s.Gained W t) (hadds : s.Adds W t) : t.files.Guides s.files := by
  have hback : ∀ {l node}, t.files.node? l = some node → (∀ bytes, node ≠ .file bytes) →
      s.files.node? l = some node := by
    intro l node hnode hfile
    cases hl : s.files.node? l with
    | some before => rw [← h.keeps.node hl, hnode]
    | none =>
        obtain ⟨d, -, hheld⟩ := hadds l node hl hnode
        rw [hheld.node, Option.some.injEq] at hnode
        exact absurd hnode.symm (hfile d.2)
  exact ⟨h.keeps.current.symm, fun hnode => hback hnode nofun, fun hnode => hback hnode nofun⟩

/-- The new entries of the output directory are the files that were kept. -/
theorem exists?_iff_mem (h : s.Gained W t) (hadds : s.Adds W t) (hs : s.Stocked)
    (hout : s.output = some out) {name : String} (hname : Path.IsName name) :
    out.root.join name ∈ W.map Prod.fst ↔ t.files.exists? (out.root.join name) = true ∧
      s.files.exists? (out.root.join name) = false := by
  constructor
  · intro hmem
    obtain ⟨d, hd, hpath⟩ := List.mem_map.1 hmem
    obtain ⟨l, -, hheld⟩ := h.held d hd
    rw [← hpath]
    refine ⟨hheld.exists? h.stocked.tree, Bool.eq_false_iff.2 fun hex => ?_⟩
    exact h.unborn hs hd (hpath ▸ Path.isPlain_join out.root hname) hex rfl
  · rintro ⟨hnow, hbefore⟩
    obtain ⟨l, hreach, hsome⟩ := (exists?_iff h.stocked.tree).1 hnow
    obtain ⟨node, hnode⟩ := Option.isSome_iff_exists.1 hsome
    cases hl : s.files.node? l with
    | some before =>
        -- the path led there before
        have hex : s.files.exists? (out.root.join name) = true :=
          (exists?_iff hs.tree).2 ⟨l, hreach.guided_entry (h.guides_back hadds), by simp [hl]⟩
        rw [hbefore] at hex
        cases hex
    | none =>
        obtain ⟨d, hd, hheld⟩ := hadds l node hl hnode
        obtain ⟨root, other, hroot, hother, hpath⟩ := h.inside d hd
        obtain rfl : out.root = root := by simpa [hout] using hroot
        -- both paths end in the name of the entry
        obtain ⟨directory, rfl, hsibling⟩ := hreach.sibling hname
        have hentry := (hsibling hother).unique (hpath ▸ hheld.reaches)
        obtain rfl : name = other := by simpa using hentry
        exact List.mem_map.2 ⟨d, hd, hpath⟩

end Session.Gained

/-! ## The ledger -/

/-- What the list of created files and the output directory have come to, from a file system where
nothing had been created yet, by these attempts. -/
structure Ledger (out : OutputDir) (files : FileSystem) (A : List Attempt) (t : Session) :
    Prop where
  /-- Listed are the files that were kept, in the order in which they were created. -/
  created : t.effects.created = (A.filterMap Attempt.kept?).map Prod.fst
  /-- No path is listed twice, in whatever spelling. -/
  distinct : (t.effects.created.map Path.components).Nodup
  /-- Every path that is listed is one of an entry of the output directory. -/
  inside : ∀ p ∈ t.effects.created, ∃ name, Path.IsName name ∧ p = out.root.join name
  /-- Listed are the entries of the output directory that are there and were not there before. -/
  entries : ∀ name, Path.IsName name → (out.root.join name ∈ t.effects.created ↔
    t.files.exists? (out.root.join name) = true ∧ files.exists? (out.root.join name) = false)
  /-- A file that is listed has all of its bytes. -/
  content : ∀ d ∈ A.filterMap Attempt.kept?, t.files.readFile d.1 = .ok d.2
  /-- Where no file was kept there is nothing, and nothing is listed. -/
  abandoned : ∀ a ∈ A, a.bytes = none → t.files.exists? a.path = false ∧
    ∀ p ∈ t.effects.created, p.components ≠ a.path.components
  /-- No path was handed out twice. -/
  reserved : (A.map fun a => a.path.components).Nodup
  /-- No path that was handed out is handed out again, whatever happens to the files. -/
  spent : ∃ out', t.output = some out' ∧ out'.root = out.root ∧ ∀ a ∈ A, ∀ now : FileSystem,
    now.IsTree → ∀ suggestion, (out'.newName now suggestion).1.components ≠ a.path.components

/-- The attempts after which a file was kept have the paths of the files. -/
theorem components_kept_sublist (A : List Attempt) :
    ((A.filterMap Attempt.kept?).map fun d => d.1.components).Sublist
      (A.map fun a => a.path.components) := by
  induction A with
  | nil => exact .slnil
  | cons a rest ih =>
      obtain ⟨p, content, bytes⟩ := a
      cases bytes with
      | none => exact ih.cons _
      | some bytes => exact ih.cons_cons _

/-- The path of a file that was kept is that of an attempt with bytes. -/
theorem exists_attempt_of_mem {p : Path} (h : p ∈ (A.filterMap Attempt.kept?).map Prod.fst) :
    ∃ a ∈ A, a.bytes ≠ none ∧ p = a.path := by
  obtain ⟨d, hd, rfl⟩ := List.mem_map.1 h
  obtain ⟨a, ha, had⟩ := List.mem_filterMap.1 hd
  obtain ⟨bytes, hbytes, rfl⟩ := Option.map_eq_some_iff.1 had
  exact ⟨a, ha, by simp [hbytes], rfl⟩

/-- Where no file was kept at a path, none was kept at the same path in another attempt. -/
theorem Session.HandsOut.ne_of_abandoned (h : s.HandsOut out A t) {a : Attempt} (ha : a ∈ A)
    (hnone : a.bytes = none) {p : Path} (hp : p ∈ (A.filterMap Attempt.kept?).map Prod.fst) :
    p.components ≠ a.path.components := by
  intro hsame
  obtain ⟨b, hb, hsome, rfl⟩ := exists_attempt_of_mem hp
  obtain rfl := List.inj_on_of_nodup_map h.apart hb ha hsame
  exact hsome hnone

theorem Attempts.ledger (h : Attempts s A t) (hs : s.Stocked) (hout : s.output = some out)
    (hnew : s.effects.created = []) : Ledger out s.files A t := by
  have hgained := h.gained hs
  have hhands := h.handsOut hs hout
  have hcreated : t.effects.created = (A.filterMap Attempt.kept?).map Prod.fst := by
    rw [hgained.created, hnew, List.nil_append]
  have hentries := fun (name : String) (hname : Path.IsName name) =>
    hgained.exists?_iff_mem (h.deposits.adds hs) hs hout hname
  refine ⟨hcreated, ?_, ?_, hcreated ▸ hentries, ?_, fun a ha hnone => ?_, hhands.apart, ?_⟩
  · rw [hcreated, List.map_map]
    exact hhands.apart.sublist (components_kept_sublist A)
  · intro p hp
    obtain ⟨a, ha, -, rfl⟩ := exists_attempt_of_mem (hcreated ▸ hp)
    exact hhands.named a ha
  · intro d hd
    obtain ⟨l, -, hheld⟩ := hgained.held d hd
    exact hheld.readFile hgained.stocked.tree
  · refine ⟨Bool.eq_false_iff.2 fun hex => ?_,
      fun p hp => hhands.ne_of_abandoned ha hnone (hcreated ▸ hp)⟩
    -- the path was free, so what is there now was kept in another attempt
    obtain ⟨name, hname, hpath⟩ := hhands.named a ha
    obtain ⟨-, hbefore⟩ := OutputDir.isFree_iff.1 (hhands.free a ha)
    refine hhands.ne_of_abandoned ha hnone (p := a.path) ?_ rfl
    rw [hpath] at hex hbefore ⊢
    exact (hentries name hname).2 ⟨hex, hbefore⟩
  · refine ⟨_, hhands.output, rfl, fun a ha now htree suggestion => ?_⟩
    refine OutputDir.newName_ne_taken htree _ suggestion ?_
    exact List.mem_append_left _ (List.mem_reverse.2 (List.mem_map_of_mem ha))

/-- The session after rules were evaluated one after the other, whatever came of each. -/
def Environment.evaluateRules (env : Environment) (limit : Nat) : List RuleId → Session → Session
  | [], s => s
  | i :: rest, s => env.evaluateRules limit rest ((env.evaluateRule limit i).after s)

/-- An invariant of evaluation relates the sessions before and after any rules. -/
theorem Environment.related_evaluateRules {env : Environment} {R : Session → Session → Prop}
    (hR : Invariant env R) (limit : Nat) (is : List RuleId) (s : Session) :
    R s (env.evaluateRules limit is s) := by
  induction is generalizing s with
  | nil => exact hR.refl s
  | cons i rest ih => exact hR.trans (hR.evaluateRule limit i s) (ih _)

/-- A rule that copies two ranges of its file, of which the second one ends at the eighth byte. -/
def carvingRule : Rule :=
  { Rule.new "c" "r" with
    actions := [⟨.call "Carve" [.literal (.text "part"), .number 0, .number 2, .number 8] ∅,
      .record⟩] }

end RuleScan
