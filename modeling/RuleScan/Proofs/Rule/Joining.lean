import RuleScan.Proofs.Reading.Splicing
import RuleScan.Proofs.Reading.Tiling
import RuleScan.Proofs.Rule.Collection

/-!
# Joined sources

How rules are spread over sources does not matter.  What a source declares depends on nothing but
the kinds of its tokens (`Declares`), and two such lists of kinds can be joined: behind the rules
of the first source, those of the second one are read as they are read on their own.  A line break
is enough to keep the tokens of two sources apart.

Rules are stored one by one (`store`), which works as long as their ids are free (`Accepts`).  What
is stored has to do with their sources only in so far as the sources of the rules are kept.

## Main results

* `declares_of_readRules` — what is read from a source up to its end.
* `Declares.append` — the rules of two sources, one behind the other.
* `RuleSet.readSource_join` — a joined source gives the same rules, which are linked in the same
  way.
-/

namespace RuleScan

open Lexer

/-! ## Storing rules -/

namespace RuleSet

/-- Stores a rule behind the others. -/
def store (s : RuleSet) (r : Rule) : RuleSet :=
  { s with
    rules := s.rules.push r
    index := s.index.insert r.id s.size
    sources := s.sources.insert r.source ((s.sources.get? r.source).getD [] ++ [s.size]) }

/-- The ids of the rules are free, and differ from each other. -/
structure Accepts (s : RuleSet) (rs : List Rule) : Prop where
  free : ∀ id ∈ rs.map Rule.id, s.lookup id = none
  nodup : (rs.map Rule.id).Nodup

variable {s u : RuleSet} {r : Rule} {rs qs : List Rule}

theorem insert_of_lookup (h : s.lookup r.id = none) : s.insert r = .ok (s.store r, s.size) := by
  unfold insert
  rw [h]
  rfl

theorem lookup_store (id : String) :
    (s.store r).lookup id = if id = r.id then some s.size else s.lookup id :=
  Table.get?_insert _ _ _ _

theorem accepts_nil : s.Accepts [] := ⟨List.forall_mem_nil _, List.nodup_nil⟩

theorem accepts_cons : s.Accepts (r :: rs) ↔ s.lookup r.id = none ∧ (s.store r).Accepts rs := by
  constructor
  · rintro ⟨hfree, hnodup⟩
    rw [List.map_cons, List.nodup_cons] at hnodup
    rw [List.map_cons, List.forall_mem_cons] at hfree
    refine ⟨hfree.1, fun id hid => ?_, hnodup.2⟩
    have hne : id ≠ r.id := fun heq => hnodup.1 (heq ▸ hid)
    rw [lookup_store, if_neg hne]
    exact hfree.2 id hid
  · rintro ⟨hr, hfree, hnodup⟩
    have hrest : ∀ id ∈ rs.map Rule.id, id ≠ r.id ∧ s.lookup id = none := by
      intro id hid
      have hnone := hfree id hid
      rw [lookup_store] at hnone
      split at hnone
      · cases hnone
      · exact ⟨‹_›, hnone⟩
    refine ⟨List.forall_mem_cons.2 ⟨hr, fun id hid => (hrest id hid).2⟩, ?_⟩
    rw [List.map_cons, List.nodup_cons]
    exact ⟨fun hmem => (hrest r.id hmem).1 rfl, hnodup⟩

theorem accepts_append :
    s.Accepts (rs ++ qs) ↔ s.Accepts rs ∧ (rs.foldl store s).Accepts qs := by
  induction rs generalizing s with
  | nil => exact ⟨fun h => ⟨accepts_nil, h⟩, And.right⟩
  | cons r rest ih =>
      rw [List.cons_append, accepts_cons, accepts_cons, ih, and_assoc]
      rfl

/-- Ids alone decide whether rules can be stored. -/
theorem Accepts.congr (h : s.Accepts rs) (hids : rs.map Rule.id = qs.map Rule.id) :
    s.Accepts qs :=
  ⟨hids ▸ h.free, hids ▸ h.nodup⟩

theorem toList_rules_foldl_store :
    (rs.foldl store s).rules.toList = s.rules.toList ++ rs := by
  induction rs generalizing s with
  | nil => exact (List.append_nil _).symm
  | cons r rest ih =>
      rw [List.foldl_cons, ih]
      show (s.rules.push r).toList ++ rest = _
      rw [Array.toList_push, List.append_assoc]
      rfl

theorem unsourced_store : (s.store r).unsourced = { s.unsourced with
    rules := s.unsourced.rules.push (r.withSource "")
    index := s.unsourced.index.insert r.id s.unsourced.size } := by
  rw [size_unsourced]
  unfold store unsourced
  rw [Array.map_push]

/-- Sets that differ in sources alone differ in sources alone after the same rules are stored. -/
theorem unsourced_foldl_store (source : String) (h : s.unsourced = u.unsourced) :
    (rs.foldl store s).unsourced =
      ((rs.map (·.withSource source)).foldl store u).unsourced := by
  induction rs generalizing s u with
  | nil => exact h
  | cons r rest ih =>
      refine ih ?_
      rw [unsourced_store, unsourced_store, h]
      rfl

end RuleSet

/-! ## What sources declare -/

variable {signatures : String → Option Signature} {source : String} {s t : RuleSet}
  {after kinds kinds' : List TokenKind} {rs qs : List Rule}

/-- Tokens of certain kinds declare certain rules: in front of whatever follows a rule, they are
read as these rules, which are stored under the name of the source at hand. -/
structure Declares (signatures : String → Option Signature) (kinds : List TokenKind)
    (rs : List Rule) : Prop where
  starts : ∀ ⦃after⦄, FollowsRule after → FollowsRule (kinds ++ after)
  reads : ∀ ⦃after⦄, FollowsRule after → ∀ (source : String) ⦃n c u⦄,
    c.tokens.map Token.kind = kinds ++ after → c.tokens.length ≤ n → u.Accepts rs →
    ∃ n' c', c'.tokens.map Token.kind = after ∧ c'.tokens.length ≤ n' ∧
      RuleSet.readRules ⟨source, signatures⟩ n c u =
        RuleSet.readRules ⟨source, signatures⟩ n' c'
          ((rs.map (·.withSource source)).foldl RuleSet.store u)

theorem declares_nil : Declares signatures [] [] where
  starts _ h := h
  reads _ _ _ n c _ hc hn _ := ⟨n, c, hc, hn, rfl⟩

/-- What two sources declare, one behind the other. -/
theorem Declares.append (h : Declares signatures kinds rs) (h' : Declares signatures kinds' qs) :
    Declares signatures (kinds ++ kinds') (rs ++ qs) where
  starts _ hafter := by
    rw [List.append_assoc]
    exact h.starts (h'.starts hafter)
  reads _ hafter source _ _ _ hc hn haccepts := by
    rw [List.append_assoc] at hc
    have hids : (rs ++ qs).map Rule.id = (rs.map (·.withSource source) ++ qs).map Rule.id := by
      rw [List.map_append, List.map_append, List.map_map]
      rfl
    obtain ⟨n₁, c₁, hc₁, hn₁, hread₁⟩ :=
      h.reads (h'.starts hafter) source hc hn (RuleSet.accepts_append.1 haccepts).1
    obtain ⟨n₂, c₂, hc₂, hn₂, hread₂⟩ :=
      h'.reads hafter source hc₁ hn₁ (RuleSet.accepts_append.1 (haccepts.congr hids)).2
    refine ⟨n₂, c₂, hc₂, hn₂, ?_⟩
    rw [hread₁, hread₂, List.map_append, List.foldl_append]

/-- A rule begins with its keyword. -/
theorem RuleParser.exists_kinds_of_rule {setting : Setting} {r : Rule} {c c' : Cursor}
    (hc : c.tokens.map Token.kind = kinds ++ [.eof]) (h : rule setting c = .ok (r, c')) :
    ∃ rest, kinds = .keyword .ruleWord :: rest := by
  obtain ⟨⟨_, c₁⟩, hkeyword, -⟩ := Expr.bind_eq_ok
    (x := lift setting (Parser.expectKind (.keyword .ruleWord)) c) h
  have hpeek : c.peek.kind = .keyword .ruleWord := by
    refine Decidable.byContradiction fun hne => ?_
    rw [lift, Parser.expectKind, if_neg hne] at hkeyword
    cases hkeyword
  cases kinds with
  | nil =>
      rw [Cursor.kind_peek hc] at hpeek
      cases hpeek
  | cons k rest =>
      rw [Cursor.kind_peek hc] at hpeek
      exact ⟨rest, by rw [hpeek]⟩

/-- A rule whose id is free is stored, and the next one is read. -/
theorem RuleSet.readRules_of_rule {setting : RuleParser.Setting} {r : Rule} {n : Nat}
    {c c' : Cursor} (hpeek : ¬ c.peek.kind = .eof) (hr : RuleParser.rule setting c = .ok (r, c'))
    (hfree : s.lookup r.id = none) :
    readRules setting (n + 1) c s = readRules setting n c' (s.store r) := by
  rw [readRules, if_neg hpeek, hr]
  dsimp only
  rw [insert_of_lookup hfree]

/-- The tokens of a rule declare it in front of what the tokens behind it declare. -/
theorem declares_rule {r : Rule} {c c' : Cursor} (hc : c.tokens.map Token.kind = kinds ++ [.eof])
    (hinner : .eof ∉ kinds) (h : RuleParser.rule ⟨source, signatures⟩ c = .ok (r, c')) :
    r.source = source ∧ ∃ left, c'.tokens.map Token.kind = left ++ [.eof] ∧ .eof ∉ left ∧
      left.length < kinds.length ∧
      ∀ qs, Declares signatures left qs → Declares signatures kinds (r :: qs) := by
  obtain ⟨rest, rfl⟩ := RuleParser.exists_kinds_of_rule hc h
  have hagrees : ∀ {after}, FollowsRule after → ∀ source', Agrees False after
      (.keyword .ruleWord :: rest) (RuleParser.rule ⟨source, signatures⟩)
      (RuleParser.rule ⟨source', signatures⟩) _ := fun hafter _ => RuleParser.agrees_rule hafter
  -- beside itself, in front of the end of its source, the rule is read under the same name again
  obtain ⟨q, _, left, hq, hleft, -, hsource, hless⟩ :=
    hagrees ⟨_, _, rfl, .inl rfl⟩ source ⟨hc, hc, False.elim, hinner⟩ h
  have hqr : q = r := congrArg Prod.fst (Except.ok.inj (hq.symm.trans h))
  refine ⟨congrArg Rule.source (hqr.symm.trans hsource), left, hleft.left, hleft.inner, hless,
    fun qs hqs => ⟨fun _ _ => ⟨_, _, rfl, .inr rfl⟩, ?_⟩⟩
  intro after hafter source' n d u hd hn hu
  obtain ⟨_, d', left', hread, hleft', -, rfl, -⟩ :=
    hagrees hafter source' ⟨hc, hd, False.elim, hinner⟩ h
  obtain rfl : left' = left := List.append_cancel_right (hleft'.left.symm.trans hleft.left)
  have hlength : d'.tokens.length < d.tokens.length := by
    have := congrArg List.length hd
    have := congrArg List.length hleft'.right
    simp only [List.length_map, List.length_append] at *
    omega
  obtain ⟨n, rfl⟩ := Nat.exists_eq_succ_of_ne_zero (show n ≠ 0 by omega)
  have hids : (r :: qs).map Rule.id = (r.withSource source' :: qs).map Rule.id := rfl
  obtain ⟨hfree, hrest⟩ := RuleSet.accepts_cons.1 (hu.congr hids)
  obtain ⟨n', d'', hd'', hn', hrules⟩ :=
    hqs.reads hafter source' hleft'.right (show d'.tokens.length ≤ n by omega) hrest
  have hpeek : ¬ d.peek.kind = .eof := by
    rw [Cursor.kind_peek hd]
    nofun
  exact ⟨n', d'', hd'', hn', (RuleSet.readRules_of_rule hpeek hread hfree).trans hrules⟩

/-- What is read from a source up to its end is what the source declares. -/
theorem declares_of_readRules {n : Nat} {c : Cursor}
    (hc : c.tokens.map Token.kind = kinds ++ [.eof]) (hinner : .eof ∉ kinds)
    (hn : c.tokens.length ≤ n)
    (h : RuleSet.readRules ⟨source, signatures⟩ n c s = (.ok (), t)) :
    ∃ rs, Declares signatures kinds rs ∧ (∀ r ∈ rs, r.source = source) ∧ s.Accepts rs ∧
      t = rs.foldl RuleSet.store s := by
  induction n generalizing kinds c s with
  | zero =>
      have := congrArg List.length hc
      simp only [List.length_map, List.length_append, List.length_singleton] at this
      omega
  | succ n ih =>
      unfold RuleSet.readRules at h
      split at h
      · next hend =>
        cases h
        cases kinds with
        | nil => exact ⟨[], declares_nil, List.forall_mem_nil _, RuleSet.accepts_nil, rfl⟩
        | cons k rest =>
            rw [Cursor.kind_peek hc] at hend
            exact absurd (hend ▸ List.mem_cons_self ..) hinner
      · split at h
        · cases h
        · next r c' hr =>
          obtain ⟨hsource, left, hleft, hinner', hless, hdeclares⟩ := declares_rule hc hinner hr
          split at h
          · cases h
          · next u i hu =>
            obtain ⟨hfree, rfl⟩ := RuleSet.of_insert hu
            have hlength : c'.tokens.length ≤ n := by
              have := congrArg List.length hc
              have := congrArg List.length hleft
              simp only [List.length_map, List.length_append, List.length_singleton] at *
              omega
            obtain ⟨rs, hrs, hsources, haccepts, rfl⟩ := ih hleft hinner' hlength h
            exact ⟨r :: rs, hdeclares rs hrs, List.forall_mem_cons.2 ⟨hsource, hsources⟩,
              RuleSet.accepts_cons.2 ⟨hfree, haccepts⟩, rfl⟩

namespace RuleSet

variable {text text' : String} {tokens : List Token}

/-- A source that can be read consists of tokens that declare rules with free ids. -/
theorem declares_of_readSource (h : s.readSource signatures source text = (.ok (), t)) :
    ∃ tokens kinds rs, tokenize text = .ok tokens ∧ tokens.map Token.kind = kinds ++ [.eof] ∧
      Declares signatures kinds rs ∧ (∀ r ∈ rs, r.source = source) ∧ s.Accepts rs ∧
      t = rs.foldl store s := by
  unfold readSource at h
  split at h
  · cases h
  · next tokens htokens =>
    obtain ⟨kinds, hkinds, hinner⟩ := (tokensFrom_eq_ok_iff.1 htokens).exists_kinds
    obtain ⟨rs, hrs⟩ :=
      declares_of_readRules (c := ⟨tokens, 0⟩) hkinds hinner (Nat.le_refl _) h
    exact ⟨tokens, kinds, rs, htokens, hkinds, hrs⟩

/-- Declared rules with free ids are read and stored. -/
theorem readSource_of_declares (source : String) (htokens : tokenize text = .ok tokens)
    (hkinds : tokens.map Token.kind = kinds ++ [.eof]) (h : Declares signatures kinds rs)
    (haccepts : s.Accepts rs) :
    s.readSource signatures source text =
      (.ok (), (rs.map (·.withSource source)).foldl store s) := by
  obtain ⟨n, c, hc, -, hread⟩ :=
    h.reads ⟨_, _, rfl, .inl rfl⟩ source (c := ⟨tokens, 0⟩) hkinds (Nat.le_refl _) haccepts
  unfold readSource
  rw [htokens]
  exact hread.trans (readRules_nil _ _ (Cursor.kind_peek hc))

/--
**How rules are spread over sources does not matter.**  Two sources that can each be read, and that
do not declare an id both, can be read as a single source, with a line break between them.  This
gives the rules of the first source followed by those of the second one, as reading the two sources
one after the other does, and only the names of the sources differ.  So both sets are linked in the
same way, or cannot be linked for the same reason.
-/
theorem readSource_join {source₁ source₂ : String} {A B : RuleSet}
    (hA : readSource ∅ signatures source₁ text = (.ok (), A))
    (hB : readSource ∅ signatures source₂ text' = (.ok (), B))
    (hdisjoint : ∀ r ∈ A.rules, ∀ q ∈ B.rules, r.id ≠ q.id) (source : String) :
    ∃ C D, readSource ∅ signatures source (text ++ "\n" ++ text') = (.ok (), C) ∧
      A.readSource signatures source₂ text' = (.ok (), D) ∧
      C.rules = (A.rules ++ B.rules).map (·.withSource source) ∧
      D.rules = A.rules ++ B.rules ∧
      C.linked.map unsourced = D.linked.map unsourced := by
  obtain ⟨tokens, kinds, rs, htokens, hkinds, hrs, -, haccepts, rfl⟩ := declares_of_readSource hA
  obtain ⟨tokens', kinds', qs, htokens', hkinds', hqs, hsources, haccepts', rfl⟩ :=
    declares_of_readSource hB
  have hrules : ∀ rs : List Rule, (rs.foldl store ∅).rules = rs.toArray := fun rs =>
    Array.toList_inj.1 toList_rules_foldl_store
  have hall : (∅ : RuleSet).Accepts (rs ++ qs) := by
    refine ⟨fun id _ => rfl, ?_⟩
    rw [List.map_append, List.nodup_append]
    refine ⟨haccepts.nodup, haccepts'.nodup, fun id hid id' hid' => ?_⟩
    obtain ⟨r, hr, rfl⟩ := List.mem_map.1 hid
    obtain ⟨q, hq, rfl⟩ := List.mem_map.1 hid'
    rw [hrules, hrules] at hdisjoint
    exact hdisjoint r (List.mem_toArray.2 hr) q (List.mem_toArray.2 hq)
  -- the second source is read under its own name, behind the rules of the first one
  have hsame : qs.map (·.withSource source₂) = qs :=
    (List.map_congr_left fun q hq => hsources q hq ▸ rfl).trans (List.map_id qs)
  obtain ⟨joined, hjoined, hkinds''⟩ := tokenize_join htokens htokens' hkinds
  rw [hkinds', ← List.append_assoc] at hkinds''
  have hC := readSource_of_declares source hjoined hkinds'' (hrs.append hqs) hall
  have hD := readSource_of_declares source₂ htokens' hkinds' hqs (accepts_append.1 hall).2
  rw [hsame, ← List.foldl_append] at hD
  refine ⟨_, _, hC, hD, ?_, ?_, ?_⟩
  · rw [hrules, hrules, hrules, List.append_toArray, List.map_toArray]
  · rw [hrules, hrules, hrules, List.append_toArray]
  · rw [← linked_unsourced, ← linked_unsourced, ← unsourced_foldl_store source rfl]

/-- The parent is declared in the second source, and the first one ends within a comment. -/
theorem readSource_join_forwardParent :
    let text := "rule child : base \x7b if true; \x7d // forward"
    let text' := "rule base (kind = 1) \x7b \x7d"
    ∃ A B, readSource ∅ (fun _ => none) "a" text = (.ok (), A) ∧
      readSource ∅ (fun _ => none) "b" text' = (.ok (), B) ∧
      (∀ r ∈ A.rules, ∀ q ∈ B.rules, r.id ≠ q.id) ∧
      ∃ C D, readSource ∅ (fun _ => none) "ab" (text ++ "\n" ++ text') = (.ok (), C) ∧
        A.readSource (fun _ => none) "b" text' = (.ok (), D) ∧
        C.rules = (A.rules ++ B.rules).map (·.withSource "ab") ∧
        D.rules = A.rules ++ B.rules ∧
        C.linked.map unsourced = D.linked.map unsourced := by
  intro text text'
  have hread : ∀ source text, (readSource ∅ (fun _ => none) source text).1.toOption = some () →
      readSource ∅ (fun _ => none) source text =
        (.ok (), (readSource ∅ (fun _ => none) source text).2) :=
    fun _ _ h => Prod.ext (ok_of_toOption h) rfl
  have hA := hread "a" text (by decide +kernel)
  have hB := hread "b" text' (by decide +kernel)
  have hdisjoint : ∀ r ∈ (readSource ∅ (fun _ => none) "a" text).2.rules,
      ∀ q ∈ (readSource ∅ (fun _ => none) "b" text').2.rules, r.id ≠ q.id := by
    decide +kernel
  exact ⟨_, _, hA, hB, hdisjoint, readSource_join hA hB hdisjoint "ab"⟩

end RuleSet

end RuleScan
