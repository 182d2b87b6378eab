import DesignTokens.OrderedMap
import Mathlib.Data.List.Nodup
import Mathlib.Data.List.Perm.Basic

/-!
What look-up sees of a map that is put together key by key.

A map whose keys are distinct is determined by its look-ups: an entry stands in it if and only if
looking up its key gives its value.  All the operations keep the keys distinct.
-/

namespace DesignTokens
namespace OrderedMap

variable {α β : Type} [DecidableEq α]

/-- No key stands in the map twice. -/
def Distinct (m : OrderedMap α β) : Prop :=
  m.keys.Nodup

omit [DecidableEq α] in
theorem distinct_empty : (empty : OrderedMap α β).Distinct :=
  List.nodup_nil

/-! ## Entries and look-up -/

theorem mem_of_find_eq_some {key : α} {value : β} {entries : List (α × β)}
    (h : find key entries = some value) : (key, value) ∈ entries := by
  induction entries with
  | nil => simp [find] at h
  | cons e es ih =>
      obtain ⟨k, v⟩ := e
      simp only [find] at h
      split at h
      · next hk => cases h; simp [hk]
      · exact List.mem_cons_of_mem _ (ih h)

theorem find_eq_none_iff {key : α} {entries : List (α × β)} :
    find key entries = none ↔ key ∉ entries.map Prod.fst := by
  induction entries with
  | nil => simp [find]
  | cons e es ih =>
      obtain ⟨k, v⟩ := e
      by_cases hk : k = key
      · simp [find, hk]
      · simp [find, hk, ih, Ne.symm hk]

theorem find_eq_some_iff {key : α} {value : β} {entries : List (α × β)}
    (hn : (entries.map Prod.fst).Nodup) :
    find key entries = some value ↔ (key, value) ∈ entries := by
  refine ⟨mem_of_find_eq_some, ?_⟩
  induction entries with
  | nil => simp
  | cons e es ih =>
      obtain ⟨k, v⟩ := e
      rw [List.map_cons, List.nodup_cons] at hn
      intro hm
      rcases List.mem_cons.mp hm with he | he
      · cases he
        simp [find]
      · have hk : k ≠ key := by
          rintro rfl
          exact hn.1 (List.mem_map.mpr ⟨_, he, rfl⟩)
        simp only [find, if_neg hk]
        exact ih hn.2 he

theorem get?_eq_none_iff {m : OrderedMap α β} {key : α} : m.get? key = none ↔ key ∉ m.keys :=
  find_eq_none_iff

theorem mem_keys_of_get? {m : OrderedMap α β} {key : α} {value : β} (h : m.get? key = some value) :
    key ∈ m.keys :=
  List.mem_map.mpr ⟨_, mem_of_find_eq_some h, rfl⟩

theorem contains_iff {m : OrderedMap α β} {key : α} : m.contains key = true ↔ key ∈ m.keys := by
  rw [contains, Option.isSome_iff_ne_none, ne_eq, get?_eq_none_iff, not_not]

theorem Distinct.mem_entries {m : OrderedMap α β} (h : m.Distinct) {key : α} {value : β} :
    (key, value) ∈ m.entries ↔ m.get? key = some value :=
  (find_eq_some_iff h).symm

omit [DecidableEq α] in
theorem Distinct.nodup_entries {m : OrderedMap α β} (h : m.Distinct) : m.entries.Nodup :=
  List.Nodup.of_map _ h

/-! ## Putting a key -/

theorem keys_put (key : α) (f : Option β → β) (entries : List (α × β)) :
    (put key f entries).map Prod.fst =
      if key ∈ entries.map Prod.fst then entries.map Prod.fst
      else entries.map Prod.fst ++ [key] := by
  induction entries with
  | nil => simp [put]
  | cons e es ih =>
      obtain ⟨k, v⟩ := e
      by_cases hk : k = key
      · simp [put, hk]
      · simp only [put, if_neg hk, List.map_cons, ih, List.mem_cons, Ne.symm hk, false_or]
        split <;> rfl

theorem put_of_not_mem {key : α} {entries : List (α × β)} (h : key ∉ entries.map Prod.fst)
    (f : Option β → β) : put key f entries = entries ++ [(key, f none)] := by
  induction entries with
  | nil => rfl
  | cons e es ih =>
      obtain ⟨k, v⟩ := e
      simp only [List.map_cons, List.mem_cons, not_or] at h
      rw [put, if_neg (Ne.symm h.1), ih h.2, List.cons_append]

theorem nodup_put {entries : List (α × β)} (h : (entries.map Prod.fst).Nodup) (key : α)
    (f : Option β → β) : ((put key f entries).map Prod.fst).Nodup := by
  rw [keys_put]
  split
  · exact h
  · next hk => exact List.nodup_append.mpr ⟨h, List.nodup_singleton key, by
      intro a ha b hb hab
      exact hk (List.mem_singleton.mp hb ▸ hab ▸ ha)⟩

theorem mem_keys_insert {m : OrderedMap α β} {key other : α} {value : β} :
    other ∈ (m.insert key value).keys ↔ other = key ∨ other ∈ m.keys := by
  simp only [insert, keys, keys_put]
  split
  · next h =>
      refine ⟨Or.inr, ?_⟩
      rintro (rfl | ho)
      · exact h
      · exact ho
  · simp [or_comm]

theorem get?_insert (m : OrderedMap α β) (key other : α) (value : β) :
    (m.insert key value).get? other = if other = key then some value else m.get? other := by
  split
  · next h => rw [h, get?_insert_self]
  · next h => exact get?_insert_of_ne m h value

/-- Inserting what a key has already changes nothing. -/
theorem insert_of_get? {m : OrderedMap α β} {key : α} {value : β} (h : m.get? key = some value) :
    m.insert key value = m := by
  suffices hgen : ∀ entries : List (α × β), find key entries = some value →
      put key (fun _ => value) entries = entries from congrArg mk (hgen m.entries h)
  intro entries hfind
  induction entries with
  | nil => cases hfind
  | cons e es ih =>
      obtain ⟨k, v⟩ := e
      by_cases hk : k = key
      · rw [find, if_pos hk, Option.some.injEq] at hfind
        rw [put, if_pos hk, hk, hfind]
      · rw [find, if_neg hk] at hfind
        rw [put, if_neg hk, ih hfind]

theorem get?_extend (m : OrderedMap α (List β)) (key other : α) (values : List β) :
    (m.extend key values).get? other =
      if other = key then some ((m.get? key).getD [] ++ values) else m.get? other := by
  split
  · next h => rw [h]; exact find_put_self key _ m.entries
  · next h => exact find_put_of_ne h _ m.entries

theorem Distinct.insert {m : OrderedMap α β} (h : m.Distinct) (key : α) (value : β) :
    (m.insert key value).Distinct :=
  nodup_put h key _

theorem Distinct.extend {m : OrderedMap α (List β)} (h : m.Distinct) (key : α) (values : List β) :
    (m.extend key values).Distinct :=
  nodup_put h key _

theorem get?_erase (m : OrderedMap α β) (key other : α) :
    (m.erase key).get? other = if other = key then none else m.get? other := by
  obtain ⟨entries⟩ := m
  simp only [erase, get?]
  induction entries with
  | nil => simp [find]
  | cons e es ih =>
      obtain ⟨k, v⟩ := e
      by_cases hk : k = key
      · by_cases ho : other = key
        · simp_all
        · have hne : k ≠ other := fun h => ho (h ▸ hk)
          simp_all [find]
      · by_cases ho : other = key
        · have hne : k ≠ other := fun h => hk (h.trans ho)
          simp_all [find]
        · by_cases hko : k = other <;> simp_all [find]

/-! ## Whole maps at once -/

omit [DecidableEq α] in
theorem keys_mapValues {γ : Type} (m : OrderedMap α β) (f : β → γ) :
    (m.mapValues f).keys = m.keys := by
  simp [mapValues, keys]

theorem get?_mapValues {γ : Type} (m : OrderedMap α β) (f : β → γ) (key : α) :
    (m.mapValues f).get? key = (m.get? key).map f := by
  obtain ⟨entries⟩ := m
  simp only [mapValues, get?]
  induction entries with
  | nil => rfl
  | cons e es ih =>
      obtain ⟨k, v⟩ := e
      by_cases hk : k = key
      · simp [find, hk]
      · simp only [List.map_cons, find, if_neg hk, ih]

/-- Sets the values of all keys of another map. -/
def insertAll (m more : OrderedMap α β) : OrderedMap α β :=
  more.entries.foldl (fun m (k, v) => m.insert k v) m

theorem Distinct.insertAll {m : OrderedMap α β} (h : m.Distinct) (more : OrderedMap α β) :
    (m.insertAll more).Distinct := by
  obtain ⟨entries⟩ := more
  simp only [OrderedMap.insertAll]
  induction entries generalizing m with
  | nil => exact h
  | cons e es ih => exact ih (h.insert e.1 e.2)

theorem get?_insertAll (m : OrderedMap α β) {more : OrderedMap α β} (h : more.Distinct) (key : α) :
    (m.insertAll more).get? key = (more.get? key).or (m.get? key) := by
  obtain ⟨entries⟩ := more
  simp only [insertAll, get?, Distinct, keys] at h ⊢
  induction entries generalizing m with
  | nil => simp [find]
  | cons e es ih =>
      obtain ⟨k, v⟩ := e
      rw [List.map_cons, List.nodup_cons] at h
      rw [List.foldl_cons, ih (m.insert k v) h.2]
      by_cases hk : k = key
      · subst hk
        have hnone : find k es = none := find_eq_none_iff.mpr h.1
        have hself : find k (m.insert k v).entries = some v := get?_insert_self m k v
        simp [find, hnone, hself]
      · have hother : find key (m.insert k v).entries = find key m.entries :=
          get?_insert_of_ne m (Ne.symm hk) v
        simp [find, hk, hother]

theorem distinct_ofList (entries : List (α × β)) : (ofList entries).Distinct :=
  distinct_empty.insertAll ⟨entries⟩

theorem get?_ofList {entries : List (α × β)} (h : (entries.map Prod.fst).Nodup) (key : α) :
    (ofList entries).get? key = find key entries := by
  have hdistinct : (⟨entries⟩ : OrderedMap α β).Distinct := h
  have hall := get?_insertAll (empty : OrderedMap α β) hdistinct key
  have hempty : (empty : OrderedMap α β).get? key = none := rfl
  rw [hempty, Option.or_none] at hall
  exact hall

/-- Entries that have different keys stay as they are. -/
theorem entries_ofList {entries : List (α × β)} (h : (entries.map Prod.fst).Nodup) :
    (ofList entries).entries = entries := by
  suffices hgen : ∀ m : OrderedMap α β, (m.entries.map Prod.fst ++ entries.map Prod.fst).Nodup →
      (entries.foldl (fun m (k, v) => m.insert k v) m).entries = m.entries ++ entries from
    hgen empty (by simpa [empty] using h)
  clear h
  induction entries with
  | nil => simp
  | cons e es ih =>
      intro m hm
      have hfresh : e.1 ∉ m.entries.map Prod.fst := fun hmem =>
        (List.nodup_append.mp hm).2.2 _ hmem _ List.mem_cons_self rfl
      have hput : (m.insert e.1 e.2).entries = m.entries ++ [(e.1, e.2)] :=
        put_of_not_mem hfresh _
      rw [List.foldl_cons, ih, hput, List.append_assoc, List.singleton_append]
      rw [hput, List.map_append, List.append_assoc]
      exact hm

/-- Keys that are all given the same value. -/
theorem get?_ofList_const (keys : List α) (value : β) (key : α) :
    (ofList (keys.map (·, value))).get? key = if key ∈ keys then some value else none := by
  suffices hgen : ∀ m : OrderedMap α β,
      ((keys.map (·, value)).foldl (fun m (k, v) => m.insert k v) m).get? key =
        if key ∈ keys then some value else m.get? key by
    simpa [ofList, empty, get?, find] using hgen empty
  induction keys with
  | nil => simp
  | cons k ks ih =>
      intro m
      rw [List.map_cons, List.foldl_cons, ih, get?_insert]
      by_cases hks : key ∈ ks <;> by_cases hk : key = k <;> simp [hks, hk]

theorem Distinct.extendAll {m : OrderedMap α (List β)} (h : m.Distinct)
    (more : OrderedMap α (List β)) : (m.extendAll more).Distinct := by
  obtain ⟨entries⟩ := more
  simp only [OrderedMap.extendAll]
  induction entries generalizing m with
  | nil => exact h
  | cons e es ih => exact ih (h.extend e.1 e.2)

theorem get?_extendAll (m : OrderedMap α (List β)) {more : OrderedMap α (List β)}
    (h : more.Distinct) (key : α) :
    (m.extendAll more).get? key =
      ((more.get? key).map ((m.get? key).getD [] ++ ·)).or (m.get? key) := by
  obtain ⟨entries⟩ := more
  simp only [extendAll, get?, Distinct, keys] at h ⊢
  induction entries generalizing m with
  | nil => simp [find]
  | cons e es ih =>
      obtain ⟨k, vs⟩ := e
      rw [List.map_cons, List.nodup_cons] at h
      rw [List.foldl_cons, ih (m.extend k vs) h.2]
      have hext : find key (m.extend k vs).entries =
          if key = k then some ((find k m.entries).getD [] ++ vs) else find key m.entries :=
        get?_extend m k key vs
      by_cases hk : k = key
      · subst hk
        have hnone : find k es = none := find_eq_none_iff.mpr h.1
        simp [find, hnone, hext]
      · simp [find, hk, hext, Ne.symm hk]

end OrderedMap
end DesignTokens
