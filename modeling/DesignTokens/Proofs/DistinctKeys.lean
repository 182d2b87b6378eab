import DesignTokens.Document
import DesignTokens.Proofs.WalkOrder
import Mathlib.Data.List.Nodup

/-!
No string is a key of a mapping twice.

A text in which a key is repeated has no value, so in a value that was read every mapping has
distinct keys (`Value.ofText_wellKeyed`).  The items of a document are such mappings, and an entry
under a string key is found by looking up the string.
-/

namespace DesignTokens
namespace Yaml

/-- The keys that are strings. -/
def stringKeys (entries : List (Value × Value)) : List String :=
  entries.filterMap fun entry =>
    match entry.1 with
    | .string s => some s
    | _ => none

theorem mem_stringKeys {s : String} {entries : List (Value × Value)} :
    s ∈ stringKeys entries ↔ ∃ v, (.string s, v) ∈ entries := by
  simp only [stringKeys, List.mem_filterMap]
  constructor
  · rintro ⟨⟨k, v⟩, hmem, hk⟩
    cases k <;> simp at hk
    subst hk
    exact ⟨v, hmem⟩
  · rintro ⟨v, hmem⟩
    exact ⟨_, hmem, rfl⟩

/-- The value and all values inside it are mappings without a string key twice, or no mappings. -/
inductive WellKeyed : Value → Prop
  | null : WellKeyed .null
  | bool {b : Bool} : WellKeyed (.bool b)
  | number {n : Number} : WellKeyed (.number n)
  | string {s : String} : WellKeyed (.string s)
  | sequence {items : List Value} : (∀ v ∈ items, WellKeyed v) → WellKeyed (.sequence items)
  | mapping {entries : List (Value × Value)} : (stringKeys entries).Nodup →
      (∀ entry ∈ entries, WellKeyed entry.2) → WellKeyed (.mapping entries)
  | tagged {tag : String} {v : Value} : WellKeyed v → WellKeyed (.tagged tag v)

theorem WellKeyed.nodup {entries : List (Value × Value)} (h : WellKeyed (.mapping entries)) :
    (stringKeys entries).Nodup := by
  cases h with
  | mapping hnodup _ => exact hnodup

theorem WellKeyed.entry {entries : List (Value × Value)} (h : WellKeyed (.mapping entries))
    {key v : Value} (hmem : (key, v) ∈ entries) : WellKeyed v := by
  cases h with
  | mapping _ hentries => exact hentries _ hmem

theorem WellKeyed.of_tagged {tag : String} {v : Value} (h : WellKeyed (.tagged tag v)) :
    WellKeyed v := by
  cases h with
  | tagged h => exact h

/-! ## Scalars -/

theorem Scalar.integer?_wellKeyed {n : Except Fault Int} {v : Value}
    (h : (n.map fun n => Value.number (.int n)) = .ok v) : WellKeyed v := by
  cases n with
  | error fault => cases h
  | ok n =>
      cases h
      exact .number

theorem Scalar.plain_wellKeyed {cs : List Char} {v : Value} (h : Scalar.plain cs = .ok v) :
    WellKeyed v := by
  rw [Scalar.plain] at h
  split at h
  · cases h
    exact .null
  · split at h
    · cases h
      exact .bool
    · split at h
      · exact Scalar.integer?_wellKeyed h
      · split at h
        · cases h
          exact .number
        · cases h
          exact .string

theorem Scalar.tagged_wellKeyed {tag : String} {cs : List Char} {v : Value}
    (h : Scalar.tagged tag cs = .ok v) : WellKeyed v := by
  simp only [Scalar.tagged] at h
  split at h
  · cases hb : Scalar.bool? cs with
    | none => simp [hb] at h
    | some b =>
        simp only [hb, Option.map_some, Except.ok.injEq] at h
        exact h ▸ .bool
  · split at h
    · split at h
      · exact Scalar.integer?_wellKeyed h
      · cases h
    · split at h
      · cases hx : Scalar.float? cs with
        | none => simp [hx] at h
        | some x =>
            simp only [hx, Option.map_some, Except.ok.injEq] at h
            exact h ▸ .number
      · split at h
        · split at h
          · next found hfound =>
              cases h
              rw [Option.ite_none_right_eq_some] at hfound
              cases hfound.2
              exact .null
          · cases h
        · cases h
          exact .string

namespace Anchors

theorem scalarValue_wellKeyed {tag : Option TagText} {s : ScalarText} {v : Value}
    (h : scalarValue tag s = .ok v) : WellKeyed v := by
  rw [scalarValue] at h
  split at h
  · split at h
    · exact Scalar.tagged_wellKeyed h
    · cases h
      exact .string
  · split at h
    · exact Scalar.plain_wellKeyed h
    · cases h
      exact .string

theorem wrap_wellKeyed {tag : Option TagText} {v : Value} (h : WellKeyed v) :
    WellKeyed (wrap tag v) := by
  rw [wrap]
  split
  · exact .tagged h
  · exact h

/-! ## Collections -/

theorem step_bind {α β : Type} {x : Step α} {f : α → Step β} {count : Nat} {r : β × Nat} :
    (x >>= f) count = .ok r ↔ ∃ a next, x count = .ok (a, next) ∧ f a next = .ok r := by
  cases hx : x count with
  | error fault => simp [bind, StateT.bind, Except.bind, hx]
  | ok found =>
      obtain ⟨a, next⟩ := found
      simp [bind, StateT.bind, Except.bind, hx]

theorem step_pure {α : Type} {a : α} {count : Nat} {r : α × Nat} :
    (pure a : Step α) count = .ok r ↔ (a, count) = r := by
  have hrun : (pure a : Step α) count = .ok (a, count) := rfl
  rw [hrun, Except.ok.injEq]

/-- The step gives only values with distinct keys. -/
def GivesWellKeyed (x : Step Value) : Prop :=
  ∀ {count r}, x count = .ok r → WellKeyed r.1

theorem isTaken_of_mem_stringKeys {s : String} {entries : List (Value × Value)}
    (h : s ∈ stringKeys entries) : isTaken (.string s) entries = true := by
  obtain ⟨v, hmem⟩ := mem_stringKeys.mp h
  exact List.any_eq_true.mpr ⟨_, hmem, by simp [Value.same]⟩

/-- A key is compared with those before it, so the keys stay distinct. -/
theorem stringKeys_concat {key v : Value} {before : List (Value × Value)}
    (hbefore : (stringKeys before).Nodup) (hkey : isTaken key before = false) :
    (stringKeys (before ++ [(key, v)])).Nodup := by
  cases key with
  | string s =>
      have hfresh : s ∉ stringKeys before := fun hmem => by
        rw [isTaken_of_mem_stringKeys hmem] at hkey
        cases hkey
      have hkeys : stringKeys (before ++ [(.string s, v)]) = stringKeys before ++ [s] := by
        simp [stringKeys]
      rw [hkeys]
      exact List.nodup_append.mpr ⟨hbefore, List.nodup_singleton s, by
        rintro t ht _ hs rfl
        exact hfresh (List.mem_singleton.mp hs ▸ ht)⟩
  | _ => simpa [stringKeys] using hbefore

theorem entries_wellKeyed {build : Node → Step Value} (hbuild : ∀ n, GivesWellKeyed (build n))
    {rest : List (Node × Node)} {before : List (Value × Value)}
    (hbefore : WellKeyed (.mapping before)) {count : Nat} {r : List (Value × Value) × Nat}
    (h : entries build before rest count = .ok r) : WellKeyed (.mapping r.1) := by
  induction rest generalizing before count with
  | nil =>
      rw [entries, step_pure] at h
      exact h ▸ hbefore
  | cons entry rest ih =>
      obtain ⟨k, n⟩ := entry
      simp only [entries, step_bind] at h
      obtain ⟨key, next, -, h⟩ := h
      split at h
      · cases h
      · next hfresh =>
          rw [step_bind] at h
          obtain ⟨v, next', hv, h⟩ := h
          refine ih ?_ h
          cases hbefore with
          | mapping hnodup hentries =>
              refine .mapping (stringKeys_concat hnodup (Bool.not_eq_true _ ▸ hfresh)) ?_
              rw [List.forall_mem_append, List.forall_mem_singleton]
              exact ⟨hentries, hbuild n hv⟩

theorem mapM_wellKeyed {build : Node → Step Value} (hbuild : ∀ n, GivesWellKeyed (build n))
    {items : List Node} {count : Nat} {r : List Value × Nat}
    (h : items.mapM build count = .ok r) : ∀ v ∈ r.1, WellKeyed v := by
  induction items generalizing count r with
  | nil =>
      rw [List.mapM_nil, step_pure] at h
      rw [← h]
      simp
  | cons n items ih =>
      simp only [List.mapM_cons, step_bind, step_pure] at h
      obtain ⟨v, next, hv, vs, next', hvs, rfl⟩ := h
      exact List.forall_mem_cons.mpr ⟨hbuild n hv, ih hvs⟩

theorem scalar_wellKeyed {p : Properties} {s : ScalarText} :
    GivesWellKeyed (do pure (wrap p.tag (← scalarValue p.tag s))) := by
  intro count r h
  rw [step_bind] at h
  obtain ⟨v, next, hv, h⟩ := h
  rw [step_pure] at h
  cases hscalar : scalarValue p.tag s with
  | error fault => simp [hscalar, liftM, monadLift, MonadLift.monadLift, StateT.lift, bind,
      Except.bind] at hv
  | ok found =>
      simp only [hscalar, liftM, monadLift, MonadLift.monadLift, StateT.lift, bind, Except.bind,
        pure, Except.pure, Except.ok.injEq, Prod.mk.injEq] at hv
      rw [← h, ← hv.1]
      exact wrap_wellKeyed (scalarValue_wellKeyed hscalar)

/-- A value that is built has distinct keys, however deep the collections may be nested. -/
theorem value_wellKeyed (anchors : Anchors) (depth : Nat) (n : Node) :
    GivesWellKeyed (anchors.value depth n) := by
  -- An alias may lead to any node, so the induction is on the depth that is left, not on the node.
  induction depth generalizing n with
  | zero =>
      intro count r h
      rw [value, step_bind] at h
      obtain ⟨found, next, -, h⟩ := h
      cases found with
      | scalar p s => exact scalar_wellKeyed h
      | _ => cases h
  | succ depth ih =>
      intro count r h
      rw [value, step_bind] at h
      obtain ⟨found, next, -, h⟩ := h
      cases found with
      | scalar p s => exact scalar_wellKeyed h
      | sequence p items =>
          simp only [step_bind, step_pure] at h
          obtain ⟨vs, next', hvs, rfl⟩ := h
          exact wrap_wellKeyed (.sequence (mapM_wellKeyed ih hvs))
      | mapping p es =>
          simp only [step_bind, step_pure] at h
          obtain ⟨vs, next', hvs, rfl⟩ := h
          have hempty : WellKeyed (.mapping []) := .mapping (by simp [stringKeys]) (by simp)
          exact wrap_wellKeyed (entries_wellKeyed ih hempty hvs)
      | _ => cases h

end Anchors

/-- A value that is read from a text has distinct keys. -/
theorem Value.ofText_wellKeyed {text : List Char} {v : Value} (h : Value.ofText text = .ok v) :
    WellKeyed v := by
  rw [Value.ofText] at h
  split at h
  · cases h
    exact .null
  · next draft _ =>
      simp only [Draft.value, Analysis.bind_eq_ok] at h
      obtain ⟨found, hfound, h⟩ := h
      split at h
      · cases h
      · cases h
        simp only [StateT.run', Functor.map, Except.map] at hfound
        split at hfound
        · cases hfound
        · next r hr =>
            cases hfound
            exact Anchors.value_wellKeyed _ _ _ hr

/-! ## Looking up a key -/

theorem isString_iff {key : String} {k : Value} : k.isString key = true ↔ k = .string key := by
  cases k <;> simp [Value.isString]

theorem mem_of_get?_eq_some {key : String} {entries : List (Value × Value)} {v : Value}
    (h : get? key entries = some v) : (.string key, v) ∈ entries := by
  obtain ⟨⟨k, found⟩, hfind, rfl⟩ := Option.map_eq_some_iff.mp h
  have hfound : k.isString key = true := by simpa using List.find?_some hfind
  rw [← isString_iff.mp hfound]
  exact List.mem_of_find?_eq_some hfind

/-- Under distinct keys, an entry is what looking up its key gives. -/
theorem get?_eq_some_iff {entries : List (Value × Value)} (h : (stringKeys entries).Nodup)
    {key : String} {v : Value} : get? key entries = some v ↔ (.string key, v) ∈ entries := by
  refine ⟨mem_of_get?_eq_some, fun hmem => ?_⟩
  induction entries with
  | nil => cases hmem
  | cons entry entries ih =>
      obtain ⟨k, w⟩ := entry
      by_cases hk : k = .string key
      · subst hk
        have hfresh : key ∉ stringKeys entries := by
          simp only [stringKeys, List.filterMap_cons] at h
          exact (List.nodup_cons.mp h).1
        rcases List.mem_cons.mp hmem with heq | hmem
        · cases heq
          simp [get?, Value.isString]
        · exact absurd (mem_stringKeys.mpr ⟨v, hmem⟩) hfresh
      · have hrest : (stringKeys entries).Nodup := by
          cases k with
          | string s =>
              simp only [stringKeys, List.filterMap_cons] at h
              exact (List.nodup_cons.mp h).2
          | _ => simpa [stringKeys] using h
        have hne : k.isString key = false := Bool.eq_false_iff.mpr fun hs => hk (isString_iff.mp hs)
        rcases List.mem_cons.mp hmem with heq | hmem
        · cases heq
          exact absurd rfl hk
        · rw [← ih hrest hmem]
          simp [get?, hne]

/-- An entry whose key is no string is found by no look-up. -/
theorem get?_append_cons {before after : List (Value × Value)} {k v : Value}
    (h : ∀ s, k ≠ .string s) (key : String) :
    get? key (before ++ (k, v) :: after) = get? key (before ++ after) := by
  have hne : k.isString key = false := Bool.eq_false_iff.mpr fun hs => h key (isString_iff.mp hs)
  simp [get?, List.find?_append, hne]

end Yaml

/-! ## The items of a document -/

namespace Analysis

mutual

theorem wellKeyed_of_mem_nodeItems (path : ItemPath) (v : Yaml.Value) (hv : Yaml.WellKeyed v)
    {subject : ItemPath × Item} (h : subject ∈ nodeItems path (Node.ofValue v)) :
    Yaml.WellKeyed (.mapping subject.2.entries) := by
  cases v with
  | mapping entries =>
      rw [Node.ofValue] at h
      split at h
      · rw [nodeItems, List.mem_singleton] at h
        rw [h]
        exact hv
      · rw [nodeItems] at h
        exact wellKeyed_of_mem_memberItems path entries (fun entry hmem => hv.entry hmem) h
  | tagged tag v =>
      rw [Node.ofValue] at h
      exact wellKeyed_of_mem_nodeItems path v hv.of_tagged h
  | _ => simp [Node.ofValue, nodeItems, memberItems] at h

theorem wellKeyed_of_mem_memberItems (path : ItemPath) (entries : List (Yaml.Value × Yaml.Value))
    (hentries : ∀ entry ∈ entries, Yaml.WellKeyed entry.2) {subject : ItemPath × Item}
    (h : subject ∈ memberItems path (Node.membersOf entries)) :
    Yaml.WellKeyed (.mapping subject.2.entries) := by
  match entries with
  | [] => simp [Node.membersOf, memberItems] at h
  | (k, v) :: entries =>
      rw [List.forall_mem_cons] at hentries
      rw [Node.membersOf] at h
      split at h
      · exact wellKeyed_of_mem_memberItems path entries hentries.2 h
      · split at h
        · rw [memberItems] at h
          exact wellKeyed_of_mem_memberItems path entries hentries.2 h
        · split at h
          · exact wellKeyed_of_mem_memberItems path entries hentries.2 h
          · rw [memberItems, List.mem_append] at h
            rcases h with h | h
            · exact wellKeyed_of_mem_nodeItems _ v hentries.1 h
            · exact wellKeyed_of_mem_memberItems path entries hentries.2 h

end

theorem wellKeyed_of_subtree? {key : String} {entries : List (Yaml.Value × Yaml.Value)}
    (hentries : Yaml.WellKeyed (.mapping entries)) {path : ItemPath} {subject : ItemPath × Item}
    (h : subject ∈ sectionItems path (Document.subtree? key entries)) :
    Yaml.WellKeyed (.mapping subject.2.entries) := by
  cases hvalue : (Yaml.get? key entries).filter (!·.isNull) with
  | none => simp [Document.subtree?, hvalue, sectionItems] at h
  | some v =>
      simp only [Document.subtree?, hvalue, Option.map_some, sectionItems, Option.getD_some] at h
      have hget := (Option.filter_eq_some_iff.mp hvalue).1
      exact wellKeyed_of_mem_nodeItems path v
        (hentries.entry (Yaml.mem_of_get?_eq_some hget)) h

/-- Every item of a document that was read is a mapping with distinct keys. -/
theorem wellKeyed_of_mem_walkOrder {text : List Char} {document : Document}
    (hread : Document.ofText text = .ok document) {themes : Themes} {subject : ItemPath × Item}
    (h : subject ∈ walkOrder themes document) :
    Yaml.WellKeyed (.mapping subject.2.entries) := by
  rw [Document.ofText] at hread
  split at hread
  · cases hread
    simp [walkOrder, Document.empty, themedSection, sectionItems] at h
  · cases hvalue : Yaml.Value.ofText text with
    | error fault => simp [hvalue, Except.map] at hread
    | ok value =>
        simp only [hvalue, Except.map, Except.ok.injEq] at hread
        subst hread
        have hkeyed := Yaml.Value.ofText_wellKeyed hvalue
        cases value with
        | mapping entries =>
            rw [walkOrder, List.mem_append] at h
            rcases h with h | h
            · exact wellKeyed_of_subtree? hkeyed h
            · rw [themedSection] at h
              split at h
              · simp [sectionItems] at h
              · exact wellKeyed_of_subtree? hkeyed h
        | _ => simp [walkOrder, Document.ofValue, Document.empty, themedSection, sectionItems] at h

end Analysis
end DesignTokens
