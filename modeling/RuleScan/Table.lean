/-!
# Insertion-ordered tables

A `Table` is a finite map that remembers the order in which its keys first
appeared. Storing under a key that is already present replaces the value where it
stands; storing under a new key appends. Rule variables, metadata, scope frames
and the file system are all kept in tables, because the order of their entries is
visible in reports.

The list of entries carries a proof that no key occurs twice, so "the value of a
key" is a function and every operation states its effect through `get?` and `keys`.

## Main results

* `get?_insert` — storing changes the value of one key and of no other.
* `keys_insert` — storing keeps the order of the keys and appends a new one.
* `get?_ofList` — a table of pairs with different keys gives the value beside each key.
* `ofList_entries` — a table is determined by its entries.
* `ext_get?` — a table is determined by its keys and their values.
* `get?_erase` — removing changes the value of one key and of no other.
* `get?_replace` — overwriting changes the value of one key that is present.
* `keys_replace`, `keys_update` — overwriting values never touches the keys.
-/

namespace RuleScan

universe u v w

/-- A finite map whose entries stand in the order their keys were first stored. -/
structure Table (κ : Type u) (α : Type v) where
  entries : List (κ × α)
  nodup : (entries.map Prod.fst).Nodup
  deriving DecidableEq

namespace Table

variable {κ : Type u} {α : Type v} {β : Type w}

/-- The table without entries. -/
def empty : Table κ α := ⟨[], List.nodup_nil⟩

instance : EmptyCollection (Table κ α) := ⟨empty⟩

instance : Inhabited (Table κ α) := ⟨empty⟩

/-- The keys in order. -/
def keys (t : Table κ α) : List κ := t.entries.map Prod.fst

/-- The values in the order of their keys. -/
def values (t : Table κ α) : List α := t.entries.map Prod.snd

/-- The number of entries. -/
def size (t : Table κ α) : Nat := t.entries.length

/-- Whether the table has no entry. -/
def isEmpty (t : Table κ α) : Bool := t.entries.isEmpty

/-- Transforms every value and keeps the keys. -/
def mapValues (f : α → β) (t : Table κ α) : Table κ β where
  entries := t.entries.map fun (k, v) => (k, f v)
  nodup := by simpa [List.map_map, Function.comp_def] using t.nodup

@[simp] theorem keys_empty : (∅ : Table κ α).keys = [] := rfl

@[simp] theorem entries_empty : (∅ : Table κ α).entries = [] := rfl

theorem keys_nodup (t : Table κ α) : t.keys.Nodup := t.nodup

@[simp] theorem keys_mapValues (f : α → β) (t : Table κ α) : (t.mapValues f).keys = t.keys := by
  simp [keys, mapValues, List.map_map, Function.comp_def]

theorem ext_entries {s t : Table κ α} (h : s.entries = t.entries) : s = t := by
  cases s
  cases t
  cases h
  rfl

/-! ## Updating values from the left -/

/--
Replaces the values of a list one after the other and stops at the first that
cannot be replaced; what was replaced before stays replaced.
-/
def updateList {ε : Type w} (f : α → Except ε α) : List (κ × α) → Option ε × List (κ × α)
  | [] => (none, [])
  | (k, v) :: rest =>
    match f v with
    | .error e => (some e, (k, v) :: rest)
    | .ok v' => ((updateList f rest).1, (k, v') :: (updateList f rest).2)

theorem keys_updateList {ε : Type w} (f : α → Except ε α) (entries : List (κ × α)) :
    (updateList f entries).2.map Prod.fst = entries.map Prod.fst := by
  induction entries with
  | nil => rfl
  | cons entry rest ih =>
    obtain ⟨k, v⟩ := entry
    simp only [updateList]
    cases f v <;> simp [ih]

/-- Updates the values in order up to the first failure, which is returned. -/
def update {ε : Type w} (f : α → Except ε α) (t : Table κ α) : Option ε × Table κ α :=
  ((updateList f t.entries).1,
    ⟨(updateList f t.entries).2, by rw [keys_updateList]; exact t.nodup⟩)

@[simp] theorem keys_update {ε : Type w} (f : α → Except ε α) (t : Table κ α) :
    (t.update f).2.keys = t.keys :=
  keys_updateList f t.entries

/-! ## Look-up and storage -/

variable [DecidableEq κ]

/-- The value beside the first occurrence of a key in a list of entries. -/
def findList (key : κ) : List (κ × α) → Option α
  | [] => none
  | (k, v) :: rest => if k = key then some v else findList key rest

/-- The value stored under a key. -/
def get? (t : Table κ α) (key : κ) : Option α := findList key t.entries

/-- Whether a key is present. -/
def contains (t : Table κ α) (key : κ) : Bool := (t.get? key).isSome

/-- Stores into a list of entries: in place when the key is there, else at the end. -/
def insertList (key : κ) (value : α) : List (κ × α) → List (κ × α)
  | [] => [(key, value)]
  | (k, v) :: rest => if k = key then (key, value) :: rest else (k, v) :: insertList key value rest

theorem keys_insertList (key : κ) (value : α) (entries : List (κ × α)) :
    (insertList key value entries).map Prod.fst =
      if key ∈ entries.map Prod.fst then entries.map Prod.fst
      else entries.map Prod.fst ++ [key] := by
  induction entries with
  | nil => simp [insertList]
  | cons entry rest ih =>
    obtain ⟨k, v⟩ := entry
    by_cases h : k = key
    · simp [insertList, h]
    · have h' : ¬ key = k := fun e => h e.symm
      simp only [insertList, h, if_false, List.map_cons, ih, List.mem_cons, h', false_or]
      split <;> simp

theorem nodup_insertList (key : κ) (value : α) {entries : List (κ × α)}
    (h : (entries.map Prod.fst).Nodup) : ((insertList key value entries).map Prod.fst).Nodup := by
  rw [keys_insertList]
  split
  · exact h
  · next hmem =>
    rw [List.nodup_append]
    refine ⟨h, by simp, ?_⟩
    intro a ha b hb hab
    simp only [List.mem_singleton] at hb
    exact hmem (hb ▸ hab ▸ ha)

/-- Stores a value; a present key keeps its place. -/
def insert (t : Table κ α) (key : κ) (value : α) : Table κ α :=
  ⟨insertList key value t.entries, nodup_insertList key value t.nodup⟩

theorem keys_insert (t : Table κ α) (key : κ) (value : α) :
    (t.insert key value).keys = if key ∈ t.keys then t.keys else t.keys ++ [key] :=
  keys_insertList key value t.entries

theorem findList_insertList (key : κ) (value : α) (k : κ) (entries : List (κ × α)) :
    findList k (insertList key value entries) =
      if k = key then some value else findList k entries := by
  induction entries with
  | nil => simp [insertList, findList, eq_comm]
  | cons entry rest ih =>
    obtain ⟨k', v⟩ := entry
    by_cases hk : k' = key
    · subst hk
      by_cases h : k' = k
      · simp [insertList, findList, h]
      · simp [insertList, findList, h, Ne.symm h]
    · by_cases h : k' = k
      · subst h
        simp [insertList, findList, hk]
      · simp [insertList, findList, hk, h, ih]

theorem get?_insert (t : Table κ α) (key : κ) (value : α) (k : κ) :
    (t.insert key value).get? k = if k = key then some value else t.get? k :=
  findList_insertList key value k t.entries

theorem mem_insertList {key : κ} {value : α} {entries : List (κ × α)} {entry : κ × α}
    (h : entry ∈ insertList key value entries) : entry = (key, value) ∨ entry ∈ entries := by
  induction entries with
  | nil => simpa [insertList] using h
  | cons first rest ih =>
    obtain ⟨k, v⟩ := first
    by_cases hk : k = key
    · simp only [insertList, hk, if_true, List.mem_cons] at h
      rcases h with h | h <;> simp [h]
    · simp only [insertList, hk, if_false, List.mem_cons] at h
      rcases h with h | h
      · simp [h]
      · rcases ih h with h | h <;> simp [h]

/-- The values after storing are the new value and values from before. -/
theorem mem_values_insert {t : Table κ α} {key : κ} {value v : α}
    (h : v ∈ (t.insert key value).values) : v = value ∨ v ∈ t.values := by
  obtain ⟨entry, hmem, rfl⟩ := List.mem_map.1 h
  rcases mem_insertList hmem with h | h
  · simp [h]
  · exact Or.inr (List.mem_map.2 ⟨entry, h, rfl⟩)

theorem mem_of_findList {key : κ} {value : α} {entries : List (κ × α)}
    (h : findList key entries = some value) : (key, value) ∈ entries := by
  induction entries with
  | nil => cases h
  | cons entry rest ih =>
    obtain ⟨k, v⟩ := entry
    by_cases hk : k = key
    · simp only [findList, hk, if_true, Option.some.injEq] at h
      simp [hk, h]
    · simp only [findList, hk, if_false] at h
      exact List.mem_cons_of_mem _ (ih h)

/-- What is found under a key is one of the entries. -/
theorem mem_of_get? {t : Table κ α} {key : κ} {value : α} (h : t.get? key = some value) :
    (key, value) ∈ t.entries :=
  mem_of_findList h

theorem findList_of_mem {key : κ} {value : α} {entries : List (κ × α)}
    (h : (entries.map Prod.fst).Nodup) (hmem : (key, value) ∈ entries) :
    findList key entries = some value := by
  induction entries with
  | nil => cases hmem
  | cons entry rest ih =>
    obtain ⟨k, v⟩ := entry
    rw [List.map_cons, List.nodup_cons] at h
    rcases List.mem_cons.1 hmem with heq | hrest
    · simp only [Prod.mk.injEq] at heq
      simp [findList, heq.1, heq.2]
    · have hne : k ≠ key := by
        rintro rfl
        exact h.1 (List.mem_map.2 ⟨(k, value), hrest, rfl⟩)
      simp [findList, hne, ih h.2 hrest]

/-- An entry is what is found under its key. -/
theorem get?_of_mem {t : Table κ α} {key : κ} {value : α} (h : (key, value) ∈ t.entries) :
    t.get? key = some value :=
  findList_of_mem t.nodup h

theorem findList_map (f : α → β) (k : κ) (entries : List (κ × α)) :
    findList k (entries.map fun (k, v) => (k, f v)) = (findList k entries).map f := by
  induction entries with
  | nil => rfl
  | cons entry rest ih =>
    obtain ⟨k', v⟩ := entry
    by_cases hk : k' = k <;> simp [findList, hk, ih]

theorem findList_eq_none_iff {key : κ} {entries : List (κ × α)} :
    findList key entries = none ↔ key ∉ entries.map Prod.fst := by
  induction entries with
  | nil => simp [findList]
  | cons entry rest ih =>
    obtain ⟨k, v⟩ := entry
    by_cases hk : k = key
    · simp [findList, hk]
    · simp [findList, hk, ih, Ne.symm hk]

theorem get?_eq_none_iff {t : Table κ α} {key : κ} : t.get? key = none ↔ key ∉ t.keys :=
  findList_eq_none_iff

@[simp] theorem get?_empty (k : κ) : (∅ : Table κ α).get? k = none := rfl

/-- Stores a sequence of pairs, later ones over earlier ones. -/
def ofList (pairs : List (κ × α)) : Table κ α :=
  pairs.foldl (fun t (k, v) => t.insert k v) ∅

/-- Pairs with different keys that are stored one after the other cover what was there. -/
theorem get?_foldl_insert {pairs : List (κ × α)} (h : (pairs.map Prod.fst).Nodup)
    (t : Table κ α) (k : κ) :
    (pairs.foldl (fun t (k, v) => t.insert k v) t).get? k = (findList k pairs).or (t.get? k) := by
  induction pairs generalizing t with
  | nil => rfl
  | cons pair rest ih =>
    obtain ⟨k', v⟩ := pair
    rw [List.map_cons, List.nodup_cons] at h
    rw [List.foldl_cons, ih h.2, get?_insert]
    by_cases hk : k' = k
    · subst hk
      simp [findList, findList_eq_none_iff.2 h.1]
    · simp [findList, hk, Ne.symm hk]

theorem get?_ofList {pairs : List (κ × α)} (h : (pairs.map Prod.fst).Nodup) (k : κ) :
    (ofList pairs).get? k = findList k pairs := by
  unfold ofList
  rw [get?_foldl_insert h, get?_empty, Option.or_none]

theorem insertList_of_notMem {key : κ} {value : α} {entries : List (κ × α)}
    (h : key ∉ entries.map Prod.fst) :
    insertList key value entries = entries ++ [(key, value)] := by
  induction entries with
  | nil => rfl
  | cons entry rest ih =>
    simp only [List.map_cons, List.mem_cons, not_or] at h
    rw [insertList, if_neg (Ne.symm h.1), ih h.2, List.cons_append]

/-- Entries with different new keys are stored behind those that are there. -/
theorem entries_foldl_insert {pairs : List (κ × α)} {t : Table κ α}
    (h : ((t.entries ++ pairs).map Prod.fst).Nodup) :
    (pairs.foldl (fun t (k, v) => t.insert k v) t).entries = t.entries ++ pairs := by
  induction pairs generalizing t with
  | nil => rw [List.foldl_nil, List.append_nil]
  | cons pair rest ih =>
    have hnew : pair.1 ∉ t.entries.map Prod.fst := by
      rw [List.map_append, List.nodup_append] at h
      exact fun hmem => h.2.2 _ hmem _ (List.mem_cons_self ..) rfl
    have hinsert : (t.insert pair.1 pair.2).entries = t.entries ++ [pair] :=
      insertList_of_notMem hnew
    rw [List.foldl_cons, ih, hinsert, List.append_assoc, List.singleton_append]
    rwa [hinsert, List.append_assoc, List.singleton_append]

/-- A table is put together again from its entries. -/
theorem ofList_entries (t : Table κ α) : ofList t.entries = t := by
  have hentries : (ofList t.entries).entries = t.entries :=
    entries_foldl_insert (t := ∅) t.nodup
  exact ext_entries hentries

/-- Storing pairs with different keys keeps the order of the keys and appends the new ones. -/
theorem keys_foldl_insert {pairs : List (κ × α)} (h : (pairs.map Prod.fst).Nodup)
    (t : Table κ α) :
    (pairs.foldl (fun t (k, v) => t.insert k v) t).keys =
      t.keys ++ (pairs.map Prod.fst).filter fun k => decide (k ∉ t.keys) := by
  induction pairs generalizing t with
  | nil => rw [List.foldl_nil, List.map_nil, List.filter_nil, List.append_nil]
  | cons pair rest ih =>
    obtain ⟨k, v⟩ := pair
    rw [List.map_cons, List.nodup_cons] at h
    rw [List.foldl_cons, ih h.2, keys_insert, List.map_cons]
    by_cases hk : k ∈ t.keys
    · simp [hk]
    · have hrest : (rest.map Prod.fst).filter (fun x => decide (x ∉ t.keys ++ [k])) =
          (rest.map Prod.fst).filter fun x => decide (x ∉ t.keys) := by
        refine List.filter_congr fun x hx => ?_
        have hne : x ≠ k := by
          rintro rfl
          exact h.1 hx
        simp [hne]
      rw [if_neg hk, hrest, List.append_assoc, List.filter_cons_of_pos (by simpa using hk),
        List.singleton_append]

/-- Tables with the same keys in the same order and the same values are the same. -/
theorem ext_get? {s t : Table κ α} (hkeys : s.keys = t.keys)
    (hget : ∀ k, s.get? k = t.get? k) : s = t := by
  have hlength : s.entries.length = t.entries.length := by
    simpa [keys] using congrArg List.length hkeys
  have hentries : s.entries = t.entries := by
    refine List.ext_getElem hlength fun i hs ht => ?_
    have hkey : s.entries[i].1 = t.entries[i].1 := by
      have h := congrArg (·[i]?) hkeys
      simpa [keys, List.getElem?_map, hs, ht] using h
    have hvalue : s.get? s.entries[i].1 = some s.entries[i].2 :=
      get?_of_mem (List.getElem_mem hs)
    have hvalue' : t.get? t.entries[i].1 = some t.entries[i].2 :=
      get?_of_mem (List.getElem_mem ht)
    rw [hget, hkey, hvalue', Option.some.injEq] at hvalue
    exact Prod.ext hkey hvalue.symm
  exact ext_entries hentries

/-- Overwrites the value of a key that is present; otherwise nothing changes. -/
def replace (t : Table κ α) (key : κ) (value : α) : Table κ α where
  entries := t.entries.map fun (k, v) => if k = key then (k, value) else (k, v)
  nodup := by
    have h : ((t.entries.map fun (k, v) => if k = key then (k, value) else (k, v)).map Prod.fst)
        = t.entries.map Prod.fst := by
      rw [List.map_map]
      apply List.map_congr_left
      rintro ⟨k, v⟩ _
      simp only [Function.comp_apply]
      split <;> rfl
    rw [h]
    exact t.nodup

@[simp] theorem keys_replace (t : Table κ α) (key : κ) (value : α) :
    (t.replace key value).keys = t.keys := by
  simp only [keys, replace, List.map_map]
  apply List.map_congr_left
  rintro ⟨k, v⟩ _
  simp only [Function.comp_apply]
  split <;> rfl

theorem findList_map_replace (key : κ) (value : α) (k : κ) (entries : List (κ × α)) :
    findList k (entries.map fun (k', v) => if k' = key then (k', value) else (k', v)) =
      (findList k entries).map fun v => if k = key then value else v := by
  induction entries with
  | nil => rfl
  | cons entry rest ih =>
    obtain ⟨k', v⟩ := entry
    by_cases hk : k' = k
    · subst hk
      by_cases h : k' = key <;> simp [findList, h]
    · by_cases h : k' = key
      · subst h
        simpa [findList, hk] using ih
      · simpa [findList, hk, h] using ih

theorem get?_replace (t : Table κ α) (key : κ) (value : α) (k : κ) :
    (t.replace key value).get? k = (t.get? k).map fun v => if k = key then value else v :=
  findList_map_replace key value k t.entries

/-- Removes a key. -/
def erase (t : Table κ α) (key : κ) : Table κ α where
  entries := t.entries.filter fun entry => decide (entry.1 ≠ key)
  nodup := by
    have h := t.nodup
    exact h.sublist (List.filter_sublist.map Prod.fst)

theorem findList_filter_ne (key k : κ) (entries : List (κ × α)) :
    findList k (entries.filter fun entry => decide (entry.1 ≠ key)) =
      if k = key then none else findList k entries := by
  induction entries with
  | nil => simp [findList]
  | cons entry rest ih =>
    obtain ⟨k', v⟩ := entry
    rw [List.filter_cons, findList]
    by_cases hk : k' = key
    · subst hk
      rw [if_neg (by simp), ih]
      by_cases h : k = k'
      · simp [h]
      · simp [h, Ne.symm h]
    · rw [if_pos (by simpa using hk), findList, ih]
      by_cases h : k' = k
      · subst h
        simp [hk]
      · simp [h]

theorem get?_erase (t : Table κ α) (key k : κ) :
    (t.erase key).get? k = if k = key then none else t.get? k :=
  findList_filter_ne key k t.entries

/-- Whether two tables hold the same values under the same keys, in whatever order. -/
def sameEntries [DecidableEq α] (s t : Table κ α) : Bool :=
  s.size == t.size && s.entries.all fun (k, v) => decide (t.get? k = some v)

end Table

end RuleScan
