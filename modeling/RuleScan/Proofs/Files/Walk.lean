import RuleScan.Proofs.Files.Tree

/-!
# Where paths lead

Resolving a path walks from directory to directory and starts over at the target of every
link on the way, a limited number of times.  `Leads` says of a walk that succeeds where it
ends and how many links it replaces; the limit is compared with that number afterwards.  So a
statement about where a path leads does not mention the limit, and a proof about all walks is
an induction over the six ways in which a walk goes on.

Where a walk ends depends on the directories and links that it passes, and on whether its last
node is a link.  So a path leads to the same location as long as these stay.

## Main results

* `walk_of_leads`, `leads_of_walk` — the walks that succeed are those of `Leads`.
* `Leads.guided` — while directories and links stay, a path leads where it led before.
* `Leads.through_link` — a walk that ends at a link goes on at its target.
* `Leads.sibling` — whatever stands at the end, it leads into the same directory.
* `Leads.respell` — idle segments in the middle of a path do not matter.
* `leadsTo_pathOf` — the text of a location leads to the location.
* `resolve_of_leadsTo`, `leadsTo_of_resolve` — the same for paths.
-/

namespace RuleScan.FileSystem

open RuleScan.Path

/--
From a directory the segments lead to a location, by way of so many links.  A link at the end
is followed only if `last` holds.
-/
inductive Leads (fs : FileSystem) (last : Bool) :
    Nat → Location → List String → Location → Prop
  | here {loc : Location} (hloc : fs.node? loc = some .directory) : Leads fs last 0 loc [] loc
  | idle {k : Nat} {loc l : Location} {name : String} {rest : List String}
      (hname : isIdle name = true) (h : Leads fs last k loc rest l) :
      Leads fs last k loc (name :: rest) l
  | up {k : Nat} {loc l : Location} {rest : List String}
      (h : Leads fs last k loc.dropLast rest l) : Leads fs last k loc (".." :: rest) l
  | enter {k : Nat} {loc l : Location} {name : String} {rest : List String}
      (hname : IsStep name) (hnode : fs.node? (loc ++ [name]) = some .directory)
      (h : Leads fs last k (loc ++ [name]) rest l) : Leads fs last k loc (name :: rest) l
  | follow {k : Nat} {loc l : Location} {name : String} {target : Path} {rest : List String}
      (hname : IsStep name) (hnode : fs.node? (loc ++ [name]) = some (.link target))
      (hrest : rest ≠ [] ∨ last = true)
      (h : Leads fs last k (if target.isAbsolute then [] else loc) (target.segments ++ rest) l) :
      Leads fs last (k + 1) loc (name :: rest) l
  | arrive {loc : Location} {name : String} (hname : IsStep name)
      (hdir : fs.node? (loc ++ [name]) ≠ some .directory)
      (hlink : last = true → ∀ target, fs.node? (loc ++ [name]) ≠ some (.link target)) :
      Leads fs last 0 loc [name] (loc ++ [name])

/-! ## Steps of a walk -/

section Steps

variable {fs : FileSystem} {last : Bool} {loc : Location} {name : String} {rest : List String}

theorem walk_nil (links : Nat) : fs.walk last links loc [] = .ok ⟨loc, fs.node? loc⟩ := by
  cases links <;> rfl

theorem walk_idle (links : Nat) (hname : isIdle name = true) :
    fs.walk last links loc (name :: rest) = fs.walk last links loc rest := by
  cases links <;> simp [walk, walkWith, hname]

theorem walk_up (links : Nat) :
    fs.walk last links loc (".." :: rest) = fs.walk last links loc.dropLast rest := by
  have hidle : isIdle ".." = false := by decide
  cases links <;> simp [walk, walkWith, hidle]

theorem walk_enter (links : Nat) (hname : IsStep name)
    (hnode : fs.node? (loc ++ [name]) = some .directory) :
    fs.walk last links loc (name :: rest) = fs.walk last links (loc ++ [name]) rest := by
  cases links <;> simp [walk, walkWith, hname.busy, hname.down, hnode]

theorem walk_follow (links : Nat) (hname : IsStep name) {target : Path}
    (hnode : fs.node? (loc ++ [name]) = some (.link target)) (hrest : rest ≠ [] ∨ last = true) :
    fs.walk last links loc (name :: rest) =
      match links with
      | 0 => .error .tooManyLinks
      | links + 1 =>
        fs.walk last links (if target.isAbsolute then [] else loc) (target.segments ++ rest) := by
  have hgo : ¬(rest = [] ∧ last = false) := by
    rintro ⟨hnil, hfalse⟩
    rcases hrest with h | h
    · exact h hnil
    · rw [h] at hfalse
      cases hfalse
  cases links with
  | zero => simp only [walk, walkWith, hname.busy, hname.down, hnode, hgo]; simp
  | succ links =>
      simp only [walk, walkWith, hname.busy, hname.down, hnode, hgo]
      by_cases habs : target.isAbsolute = true <;> simp [habs]

theorem walk_arrive (links : Nat) (hname : IsStep name)
    (hdir : fs.node? (loc ++ [name]) ≠ some .directory)
    (hlink : last = true → ∀ target, fs.node? (loc ++ [name]) ≠ some (.link target)) :
    fs.walk last links loc [name] = .ok ⟨loc ++ [name], fs.node? (loc ++ [name])⟩ := by
  cases hnode : fs.node? (loc ++ [name]) with
  | none => cases links <;> simp [walk, walkWith, hname.busy, hname.down, hnode]
  | some node =>
      cases node with
      | file content => cases links <;> simp [walk, walkWith, hname.busy, hname.down, hnode]
      | device => cases links <;> simp [walk, walkWith, hname.busy, hname.down, hnode]
      | directory => exact absurd hnode hdir
      | link target =>
          have hlast : last = false := by
            cases last with
            | false => rfl
            | true => exact absurd hnode (hlink rfl target)
          cases links <;> simp [walk, walkWith, hname.busy, hname.down, hnode, hlast]

/-- Below what is neither a directory nor a link there is nothing. -/
theorem walk_stuck (links : Nat) (hname : IsStep name) (hrest : rest ≠ [])
    (hdir : fs.node? (loc ++ [name]) ≠ some .directory)
    (hlink : ∀ target, fs.node? (loc ++ [name]) ≠ some (.link target)) :
    ∃ e, fs.walk last links loc (name :: rest) = .error e := by
  cases hnode : fs.node? (loc ++ [name]) with
  | none => cases links <;> simp [walk, walkWith, hname.busy, hname.down, hnode, hrest]
  | some node =>
      cases node with
      | directory => exact absurd hnode hdir
      | link target => exact absurd hnode (hlink target)
      | file content => cases links <;> simp [walk, walkWith, hname.busy, hname.down, hnode, hrest]
      | device => cases links <;> simp [walk, walkWith, hname.busy, hname.down, hnode, hrest]

end Steps

/-! ## Walks that succeed -/

section Walks

variable {fs fs' : FileSystem} {last : Bool} {k : Nat} {loc l : Location} {segments : List String}

/-- A walk succeeds if it may replace as many links as it meets. -/
theorem walk_of_leads (h : Leads fs last k loc segments l) (links : Nat) :
    fs.walk last links loc segments =
      if k ≤ links then .ok ⟨l, fs.node? l⟩ else .error .tooManyLinks := by
  induction h generalizing links with
  | here hloc => simp [walk_nil]
  | idle hname _ ih => rw [walk_idle links hname, ih]
  | up _ ih => rw [walk_up, ih]
  | enter hname hnode _ ih => rw [walk_enter links hname hnode, ih]
  | follow hname hnode hrest _ ih =>
      rw [walk_follow links hname hnode hrest]
      cases links with
      | zero => simp
      | succ links =>
          dsimp only
          rw [ih]
          simp
  | arrive hname hdir hlink => simp [walk_arrive links hname hdir hlink]

/-- Where a walk that succeeds in a tree ends is where the segments lead.  The outer induction
is on the links that are left, the inner one on the segments. -/
theorem leads_of_walk (htree : fs.IsTree) {links : Nat} {r : Resolved}
    (hloc : fs.node? loc = some .directory)
    (h : fs.walk last links loc segments = .ok r) :
    ∃ k ≤ links, Leads fs last k loc segments r.location ∧ r.node = fs.node? r.location := by
  induction links using Nat.strongRecOn generalizing loc segments with
  | _ links ih =>
    induction segments generalizing loc with
    | nil =>
        rw [walk_nil] at h
        cases h
        exact ⟨0, Nat.zero_le links, .here hloc, rfl⟩
    | cons name rest ihs =>
        by_cases hidle : isIdle name = true
        · rw [walk_idle links hidle] at h
          obtain ⟨k, hk, hleads, hnode⟩ := ihs hloc h
          exact ⟨k, hk, .idle hidle hleads, hnode⟩
        by_cases hup : name = ".."
        · rw [hup, walk_up] at h
          obtain ⟨k, hk, hleads, hnode⟩ := ihs (htree.parent hloc) h
          exact ⟨k, hk, hup ▸ .up hleads, hnode⟩
        have hname : IsStep name := ⟨by simpa using hidle, hup⟩
        by_cases hdir : fs.node? (loc ++ [name]) = some .directory
        · rw [walk_enter links hname hdir] at h
          obtain ⟨k, hk, hleads, hnode⟩ := ihs hdir h
          exact ⟨k, hk, .enter hname hdir hleads, hnode⟩
        by_cases hlink : ∃ target, fs.node? (loc ++ [name]) = some (.link target) ∧
            (rest ≠ [] ∨ last = true)
        · obtain ⟨target, htarget, hrest⟩ := hlink
          rw [walk_follow links hname htarget hrest] at h
          cases links with
          | zero => cases h
          | succ links =>
              have hstart : fs.node? (if target.isAbsolute then [] else loc) = some .directory := by
                split
                · exact node?_root fs
                · exact hloc
              obtain ⟨k, hk, hleads, hnode⟩ := ih links (Nat.lt_succ_self links) hstart h
              exact ⟨k + 1, Nat.succ_le_succ hk, .follow hname htarget hrest hleads, hnode⟩
        · -- neither a directory nor a link to follow: the walk ends here or fails
          by_cases hrest : rest = []
          · subst hrest
            have hnot : last = true → ∀ target, fs.node? (loc ++ [name]) ≠ some (.link target) :=
              fun hlast target htarget => hlink ⟨target, htarget, .inr hlast⟩
            rw [walk_arrive links hname hdir hnot] at h
            cases h
            exact ⟨0, Nat.zero_le links, .arrive hname hdir hnot, rfl⟩
          · have hnot : ∀ target, fs.node? (loc ++ [name]) ≠ some (.link target) :=
              fun target htarget => hlink ⟨target, htarget, .inl hrest⟩
            obtain ⟨e, he⟩ : ∃ e, fs.walk last links loc (name :: rest) = .error e :=
              walk_stuck links hname hrest hdir hnot
            rw [he] at h
            cases h

/-- A walk ends at one location only, and the number of links on the way is determined. -/
theorem Leads.unique {k' : Nat} {l' : Location} (h : Leads fs last k loc segments l)
    (h' : Leads fs last k' loc segments l') : l' = l := by
  have heq := (walk_of_leads h (k + k')).symm.trans (walk_of_leads h' (k + k'))
  rw [if_pos (Nat.le_add_right k k'), if_pos (Nat.le_add_left k' k), Except.ok.injEq,
    Resolved.mk.injEq] at heq
  exact heq.1.symm

/-- The end of a walk is a directory or lies in one, under a name. -/
theorem Leads.isPlace (htree : fs.IsTree) (h : Leads fs last k loc segments l)
    (hloc : fs.node? loc = some .directory) (hwhole : ∀ s ∈ segments, '/' ∉ s.toList) :
    fs.node? l = some .directory ∨ fs.IsPlace l := by
  induction h with
  | here hnode => exact .inl hnode
  | idle _ _ ih => exact ih hloc fun s hs => hwhole s (List.mem_cons_of_mem _ hs)
  | up _ ih => exact ih (htree.parent hloc) fun s hs => hwhole s (List.mem_cons_of_mem _ hs)
  | enter _ hnode _ ih => exact ih hnode fun s hs => hwhole s (List.mem_cons_of_mem _ hs)
  | @follow k loc l name target rest _ _ _ _ ih =>
      refine ih ?_ ?_
      · split
        · exact node?_root fs
        · exact hloc
      · intro s hs
        rcases List.mem_append.1 hs with hs | hs
        · exact whole_of_mem_segments hs
        · exact hwhole s (List.mem_cons_of_mem _ hs)
  | @arrive loc name hname hdir _ =>
      refine .inr ⟨by rwa [List.dropLast_concat], ?_, hdir⟩
      intro n hn
      rcases List.mem_append.1 hn with hn | hn
      · exact htree.isName hloc hn
      · rw [List.mem_singleton.1 hn]
        exact ⟨hname, hwhole name List.mem_cons_self⟩

/-- While directories and links stay, segments lead where they led before, if the walk does not
go on because there is a link now. -/
theorem Leads.guided (h : Leads fs last k loc segments l) (hg : fs.Guides fs')
    (hlast : last = true → ∀ target, fs'.node? l ≠ some (.link target)) :
    Leads fs' last k loc segments l := by
  induction h with
  | here hloc => exact .here (hg.directory hloc)
  | idle hname _ ih => exact .idle hname (ih hlast)
  | up _ ih => exact .up (ih hlast)
  | enter hname hnode _ ih => exact .enter hname (hg.directory hnode) (ih hlast)
  | follow hname hnode hrest _ ih => exact .follow hname (hg.link hnode) hrest (ih hlast)
  | @arrive loc name hname _ _ =>
      by_cases hdir : fs'.node? (loc ++ [name]) = some .directory
      · exact .enter hname hdir (.here hdir)
      · exact .arrive hname hdir hlast

/-- It does not matter whether a link at the end is followed if there is none. -/
theorem Leads.follow_last (h : Leads fs false k loc segments l)
    (hlast : ∀ target, fs.node? l ≠ some (.link target)) : Leads fs true k loc segments l := by
  induction h with
  | here hloc => exact .here hloc
  | idle hname _ ih => exact .idle hname (ih hlast)
  | up _ ih => exact .up (ih hlast)
  | enter hname hnode _ ih => exact .enter hname hnode (ih hlast)
  | follow hname hnode _ _ ih => exact .follow hname hnode (.inr rfl) (ih hlast)
  | arrive hname hdir _ => exact .arrive hname hdir fun _ => hlast

/-- A walk that ends at a link from the root goes on at the target of the link. -/
theorem Leads.through_link (h : Leads fs false k loc segments l) {target : Path}
    (hnode : fs.node? l = some (.link target)) (habs : target.isAbsolute = true) {j : Nat}
    {l' : Location} (h' : Leads fs true j [] target.segments l') :
    Leads fs true (j + 1 + k) loc segments l' := by
  induction h with
  | here hloc =>
      rw [hnode] at hloc
      cases hloc
  | idle hname _ ih => exact .idle hname (ih hnode)
  | up _ ih => exact .up (ih hnode)
  | enter hname hdir _ ih => exact .enter hname hdir (ih hnode)
  | follow hname hlink _ _ ih => exact .follow hname hlink (.inr rfl) (ih hnode)
  | arrive hname _ _ =>
      refine .follow hname hnode (.inr rfl) ?_
      rw [if_pos habs, List.append_nil]
      exact h'

/-! ## Further down -/

/-- A name leads to the entry with the name. -/
theorem leads_name (fs : FileSystem) (loc : Location) {name : String} (hname : IsStep name) :
    Leads fs false 0 loc [name] (loc ++ [name]) := by
  by_cases hdir : fs.node? (loc ++ [name]) = some .directory
  · exact .enter hname hdir (.here hdir)
  · exact .arrive hname hdir nofun

/-- Behind segments that lead to a directory, a name leads to an entry of it. -/
theorem Leads.append_name (h : Leads fs last k loc segments l)
    (hdir : fs.node? l = some .directory) {name : String} (hname : IsStep name) :
    Leads fs false k loc (segments ++ [name]) (l ++ [name]) := by
  induction h with
  | @here loc _ => exact leads_name fs loc hname
  | idle hidle _ ih => exact .idle hidle (ih hdir)
  | up _ ih => exact .up (ih hdir)
  | enter hstep hnode _ ih => exact .enter hstep hnode (ih hdir)
  | follow hstep hnode _ _ ih =>
      rw [List.append_assoc] at ih
      exact .follow hstep hnode (.inl (by simp)) (ih hdir)
  | arrive _ hnot _ => exact absurd hdir hnot

/-- Whatever stands at the end of segments, it leads into the same directory.  The induction is on
the walk, and the name is the last segment all the way. -/
theorem Leads.sibling {name : String} (hname : IsStep name)
    (h : Leads fs false k loc (segments ++ [name]) l) :
    ∃ d, l = d ++ [name] ∧
      ∀ {other}, IsStep other → Leads fs false k loc (segments ++ [other]) (d ++ [other]) := by
  generalize hall : segments ++ [name] = all at h
  induction h generalizing segments with
  | here => exact absurd hall (by simp)
  | idle hidle _ ih =>
      cases segments with
      | nil =>
          obtain ⟨rfl, -⟩ := List.cons.inj hall
          exact absurd hidle (by simp [hname.busy])
      | cons s rest =>
          obtain ⟨rfl, hrest⟩ := List.cons.inj hall
          obtain ⟨d, hd, hother⟩ := ih hrest
          exact ⟨d, hd, fun ho => .idle hidle (hother ho)⟩
  | up _ ih =>
      cases segments with
      | nil => exact absurd (List.cons.inj hall).1 hname.down
      | cons s rest =>
          obtain ⟨rfl, hrest⟩ := List.cons.inj hall
          obtain ⟨d, hd, hother⟩ := ih hrest
          exact ⟨d, hd, fun ho => .up (hother ho)⟩
  | @enter k loc l step rest hstep hnode h ih =>
      cases segments with
      | nil =>
          obtain ⟨rfl, rfl⟩ := List.cons.inj hall
          cases h
          exact ⟨loc, rfl, fun ho => leads_name fs loc ho⟩
      | cons s rest =>
          obtain ⟨rfl, hrest⟩ := List.cons.inj hall
          obtain ⟨d, hd, hother⟩ := ih hrest
          exact ⟨d, hd, fun ho => .enter hstep hnode (hother ho)⟩
  | @follow k loc l step target rest hstep hnode hgo _ ih =>
      cases segments with
      | nil =>
          obtain ⟨-, rfl⟩ := List.cons.inj hall
          exact absurd hgo (by simp)
      | cons s front =>
          obtain ⟨rfl, rfl⟩ := List.cons.inj hall
          obtain ⟨d, hd, hother⟩ := ih (List.append_assoc target.segments front [name])
          refine ⟨d, hd, fun ho => ?_⟩
          have hleads := hother ho
          rw [List.append_assoc] at hleads
          exact .follow hstep hnode (.inl (by simp)) hleads
  | @arrive loc step hstep _ _ =>
      cases segments with
      | nil =>
          obtain ⟨rfl, -⟩ := List.cons.inj hall
          exact ⟨loc, rfl, fun ho => leads_name fs loc ho⟩
      | cons s rest => exact absurd (List.cons.inj hall).2 (by simp)

theorem IsTree.directory_of_append (htree : fs.IsTree) {names : List String} {node : Node}
    (hnode : fs.node? (loc ++ names) = some node) (hne : names ≠ []) :
    fs.node? loc = some .directory := by
  induction names generalizing loc node with
  | nil => exact absurd rfl hne
  | cons name rest ih =>
      have hnext : ∃ node, fs.node? (loc ++ [name]) = some node := by
        by_cases hrest : rest = []
        · exact ⟨node, by rw [hrest] at hnode; exact hnode⟩
        · have happend : fs.node? (loc ++ [name] ++ rest) = some node := by
            rw [List.append_assoc]
            exact hnode
          exact ⟨.directory, ih happend hrest⟩
      obtain ⟨next, hnext⟩ := hnext
      have hparent := htree.parent hnext
      rwa [List.dropLast_concat] at hparent

/-- The names of a location lead to it without a link. -/
theorem leads_names (htree : fs.IsTree) (hloc : fs.node? loc = some .directory)
    {names : List String} {node : Node} (hnode : fs.node? (loc ++ names) = some node) :
    Leads fs false 0 loc names (loc ++ names) := by
  induction names generalizing loc with
  | nil =>
      rw [List.append_nil]
      exact .here hloc
  | cons name rest ih =>
      have hname : IsStep name := (htree.isName hnode (by simp)).toIsStep
      by_cases hrest : rest = []
      · subst hrest
        exact leads_name fs loc hname
      · have happend : loc ++ name :: rest = loc ++ [name] ++ rest := by simp
        rw [happend] at hnode ⊢
        have hdir := htree.directory_of_append hnode hrest
        exact .enter hname hdir (ih hdir hnode)

/-! ## Idle segments -/

/-- Two ways of writing the same steps: the same segments, or lists that end in a step and
differ in idle segments only. -/
def Respelled (segments others : List String) : Prop :=
  segments = others ∨
    ((segments.filter fun s => !isIdle s) = (others.filter fun s => !isIdle s) ∧
      EndsInStep segments ∧ EndsInStep others)

theorem Respelled.append {rest others : List String} (h : Respelled rest others)
    (front : List String) : Respelled (front ++ rest) (front ++ others) := by
  rcases h with rfl | ⟨hfilter, hends, hends'⟩
  · exact .inl rfl
  · exact .inr ⟨by rw [List.filter_append, List.filter_append, hfilter], hends.append front,
      hends'.append front⟩

/-- A step is the first one in both ways of writing, and what follows is respelled as well. -/
theorem Respelled.of_cons {name : String} {rest others : List String}
    (h : Respelled (name :: rest) others) (hname : isIdle name = false) :
    ∃ front others', others = front ++ name :: others' ∧ (∀ s ∈ front, isIdle s = true) ∧
      Respelled rest others' ∧ (rest = [] ↔ others' = []) := by
  rcases h with rfl | ⟨hfilter, hends, hends'⟩
  · exact ⟨[], rest, rfl, nofun, .inl rfl, Iff.rfl⟩
  rw [List.filter_cons_of_pos (by simp [hname])] at hfilter
  obtain ⟨front, others', rfl, hfront, -, hothers⟩ := List.filter_eq_cons_iff.1 hfilter.symm
  have hrest : rest ≠ [] → EndsInStep rest := EndsInStep.of_append [name] hends
  have hothers' : others' ≠ [] → EndsInStep others' := by
    intro hne
    refine EndsInStep.of_append (front ++ [name]) ?_ hne
    rwa [List.append_assoc, List.singleton_append]
  have hiff : rest = [] ↔ others' = [] := by
    constructor
    · rintro rfl
      exact Decidable.byContradiction fun hne => (hothers' hne).filter_ne_nil hothers
    · rintro rfl
      exact Decidable.byContradiction fun hne => (hrest hne).filter_ne_nil hothers.symm
  refine ⟨front, others', rfl, fun s hs => by simpa using hfront s hs, ?_, hiff⟩
  by_cases hne : rest = []
  · rw [hne, hiff.1 hne]
    exact .inl rfl
  · exact .inr ⟨hothers.symm, hrest hne, hothers' (mt hiff.2 hne)⟩

theorem Leads.idle_front {front : List String} (hfront : ∀ s ∈ front, isIdle s = true)
    (h : Leads fs last k loc segments l) : Leads fs last k loc (front ++ segments) l := by
  induction front with
  | nil => exact h
  | cons s rest ih =>
      have hrest := ih fun n hn => hfront n (List.mem_cons_of_mem _ hn)
      exact .idle (hfront s List.mem_cons_self) hrest

/-- Segments lead where the same steps lead in another spelling. -/
theorem Leads.respell {others : List String} (h : Leads fs last k loc segments l)
    (hspell : Respelled segments others) : Leads fs last k loc others l := by
  induction h generalizing others with
  | here hloc =>
      rcases hspell with rfl | ⟨-, ⟨n, hnil, -⟩, -⟩
      · exact .here hloc
      · cases hnil
  | @idle k loc l name rest hname hrest ih =>
      rcases hspell with rfl | ⟨hfilter, hends, hends'⟩
      · exact .idle hname hrest
      · have hne : rest ≠ [] := by
          rintro rfl
          exact hends.filter_ne_nil (by simp [hname])
        rw [List.filter_cons_of_neg (by simp [hname])] at hfilter
        exact ih (.inr ⟨hfilter, EndsInStep.of_append [name] hends hne, hends'⟩)
  | up hrest ih =>
      obtain ⟨front, others', rfl, hfront, hspell', -⟩ := hspell.of_cons (by decide)
      exact (Leads.up (ih hspell')).idle_front hfront
  | enter hname hnode _ ih =>
      obtain ⟨front, others', rfl, hfront, hspell', -⟩ := hspell.of_cons hname.busy
      exact (Leads.enter hname hnode (ih hspell')).idle_front hfront
  | follow hname hnode hrest _ ih =>
      obtain ⟨front, others', rfl, hfront, hspell', hiff⟩ := hspell.of_cons hname.busy
      have hrest' := hrest.imp_left (mt hiff.2)
      exact (Leads.follow hname hnode hrest' (ih (hspell'.append _))).idle_front hfront
  | arrive hname hdir hlink =>
      obtain ⟨front, others', rfl, hfront, -, hiff⟩ := hspell.of_cons hname.busy
      rw [hiff.1 rfl]
      exact (Leads.arrive hname hdir hlink).idle_front hfront

end Walks

/-! ## Paths -/

/-- Where the walk along a path begins. -/
def startOf (fs : FileSystem) (p : Path) : Location := if p.isAbsolute then [] else fs.current

/-- A path leads to a location, by way of so many links. -/
structure LeadsTo (fs : FileSystem) (last : Bool) (k : Nat) (p : Path) (l : Location) : Prop where
  ne_empty : p ≠ ""
  leads : Leads fs last k (fs.startOf p) p.segments l

section Paths

variable {fs fs' : FileSystem} {last : Bool} {k : Nat} {p q : Path} {l : Location}

theorem IsTree.startOf (htree : fs.IsTree) (p : Path) :
    fs.node? (fs.startOf p) = some .directory := by
  unfold FileSystem.startOf
  split
  · exact node?_root fs
  · exact htree.current

/-- A path is resolved if no more links are on the way than may be replaced. -/
theorem resolve_of_leadsTo (h : fs.LeadsTo last k p l) :
    fs.resolve p last =
      if k ≤ linkLimit then .ok ⟨l, fs.node? l⟩ else .error .tooManyLinks := by
  have hempty : p.isEmpty = false := by simpa using h.ne_empty
  rw [resolve, hempty, if_neg Bool.false_ne_true]
  exact walk_of_leads h.leads linkLimit

theorem leadsTo_of_resolve (htree : fs.IsTree) {r : Resolved} (h : fs.resolve p last = .ok r) :
    ∃ k ≤ linkLimit, fs.LeadsTo last k p r.location ∧ r.node = fs.node? r.location := by
  unfold resolve at h
  split at h
  · cases h
  · next hempty =>
    obtain ⟨k, hk, hleads, hnode⟩ := leads_of_walk htree (htree.startOf p) h
    exact ⟨k, hk, ⟨by simpa using hempty, hleads⟩, hnode⟩

theorem LeadsTo.unique {k' : Nat} {l' : Location} (h : fs.LeadsTo last k p l)
    (h' : fs.LeadsTo last k' p l') : l' = l :=
  h.leads.unique h'.leads

theorem LeadsTo.isPlace (htree : fs.IsTree) (h : fs.LeadsTo last k p l)
    (hl : fs.node? l ≠ some .directory) : fs.IsPlace l :=
  (h.leads.isPlace htree (htree.startOf p) fun _ => whole_of_mem_segments).resolve_left hl

theorem LeadsTo.guided (h : fs.LeadsTo last k p l) (hg : fs.Guides fs')
    (hlast : last = true → ∀ target, fs'.node? l ≠ some (.link target)) :
    fs'.LeadsTo last k p l := by
  refine ⟨h.ne_empty, ?_⟩
  rw [startOf, hg.current]
  exact h.leads.guided hg hlast

theorem LeadsTo.follow_last (h : fs.LeadsTo false k p l)
    (hlast : ∀ target, fs.node? l ≠ some (.link target)) : fs.LeadsTo true k p l :=
  ⟨h.ne_empty, h.leads.follow_last hlast⟩

/-- Paths that are plain and have the same components lead to the same location. -/
theorem LeadsTo.respell (h : fs.LeadsTo last k p l) (hp : p.IsPlain) (hq : q.IsPlain)
    (hsame : p.components = q.components) : fs.LeadsTo last k q l := by
  have hstart : fs.startOf p = fs.startOf q := by
    rw [startOf, startOf, isAbsolute_eq_of_components hsame]
  refine ⟨hq.ne_empty, ?_⟩
  rw [← hstart]
  exact h.leads.respell (.inr ⟨steps_eq_of_components hsame, hp, hq⟩)

/-- A name inside a directory leads to the entry of the directory. -/
theorem LeadsTo.join (h : fs.LeadsTo last k p l) (hdir : fs.node? l = some .directory)
    {name : String} (hname : IsName name) :
    fs.LeadsTo false k (p.join name) (l ++ [name]) := by
  have hplain := isPlain_join p hname
  have hstart : fs.startOf (p.join name) = fs.startOf p := by
    rw [startOf, startOf, isAbsolute_join p hname]
  refine ⟨hplain.ne_empty, ?_⟩
  rw [hstart]
  refine (h.leads.append_name hdir hname.toIsStep).respell (.inr ⟨?_, ?_, hplain⟩)
  · have hsteps := steps_join p hname
    unfold steps at hsteps
    rw [hsteps]
    simp [hname.busy]
  · exact ⟨name, List.getLast?_concat, hname.busy⟩

/-- Whatever name a path ends in, it leads into the same directory. -/
theorem LeadsTo.sibling {name : String} (hname : IsName name)
    (h : fs.LeadsTo false k (p.join name) l) :
    ∃ d, l = d ++ [name] ∧
      ∀ {other}, IsName other → fs.LeadsTo false k (p.join other) (d ++ [other]) := by
  obtain ⟨front, hsegs, hsteps, habs, -⟩ := segments_join p hname
  have hleads := h.leads
  rw [hsegs] at hleads
  obtain ⟨d, hd, hother⟩ := Leads.sibling hname.toIsStep hleads
  refine ⟨d, hd, @fun other ho => ?_⟩
  obtain ⟨front', hsegs', hsteps', habs', -⟩ := segments_join p ho
  have hplain := isPlain_join p ho
  have hstart : fs.startOf (p.join other) = fs.startOf (p.join name) := by
    rw [startOf, startOf, habs, habs']
  refine ⟨hplain.ne_empty, ?_⟩
  rw [hstart]
  refine (hother ho.toIsStep).respell (.inr ⟨?_, ?_, hplain⟩)
  · rw [hsegs', List.filter_append, List.filter_append, hsteps, hsteps']
  · exact ⟨other, List.getLast?_concat, ho.busy⟩

/-- The text of the location of a file leads to the file. -/
theorem leadsTo_pathOf (htree : fs.IsTree) {content : Bytes}
    (hl : fs.node? l = some (.file content)) : fs.LeadsTo true 0 (pathOf l) l := by
  have hne : l ≠ [] := by
    rintro rfl
    rw [node?_root] at hl
    cases hl
  refine ⟨by simpa using pathOf_ne_empty l, ?_⟩
  rw [startOf, isAbsolute_pathOf, if_pos rfl,
    segments_pathOf hne fun name hname => (htree.isName hl hname).whole]
  refine .idle (by decide) (Leads.follow_last (leads_names htree (node?_root fs) hl) ?_)
  intro target htarget
  rw [hl] at htarget
  cases htarget

/-- A path that leads to a link goes on at the location whose text is the target. -/
theorem LeadsTo.through_link (htree : fs.IsTree) (h : fs.LeadsTo false k p l) {origin : Location}
    {content : Bytes} (hl : fs.node? l = some (.link (pathOf origin)))
    (horigin : fs.node? origin = some (.file content)) : fs.LeadsTo true (k + 1) p origin := by
  have htarget := (leadsTo_pathOf htree horigin).leads
  rw [startOf, isAbsolute_pathOf, if_pos rfl] at htarget
  refine ⟨h.ne_empty, ?_⟩
  have hleads := h.leads.through_link hl (isAbsolute_pathOf origin) htarget
  rwa [Nat.zero_add, Nat.add_comm] at hleads

end Paths

end RuleScan.FileSystem
