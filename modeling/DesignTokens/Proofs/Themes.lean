import DesignTokens.Proofs.OrderedMap
import DesignTokens.Proofs.Pass

/-!
The themes that a list of declarations registers.

A name is registered once, and an alias only for a theme that is registered before it.  So every
theme that a look-up follows an alias to is itself a theme of the document.
-/

namespace DesignTokens
namespace Themes

/-- The names are distinct, and the target of an alias stands before the alias. -/
structure Ordered (themes : Themes) : Prop where
  distinct : themes.targets.Distinct
  earlier : ∀ {before name target after},
    themes.targets.entries = before ++ (name, some target) :: after → target ∈ before.map Prod.fst

theorem empty_ordered : empty.Ordered :=
  ⟨OrderedMap.distinct_empty, fun h => by simp [empty, OrderedMap.empty] at h⟩

theorem Ordered.insert {themes : Themes} (h : themes.Ordered) {name : String}
    (hname : name ∉ themes.names) {target : Option String}
    (htarget : ∀ t, target = some t → t ∈ themes.names) :
    Ordered ⟨themes.targets.insert name target⟩ := by
  refine ⟨h.distinct.insert name target, ?_⟩
  intro before other t after heq
  simp only [OrderedMap.insert] at heq
  rw [OrderedMap.put_of_not_mem hname] at heq
  rcases List.eq_nil_or_concat after with rfl | ⟨after, last, rfl⟩
  · -- The alias is the one that was just registered.
    obtain ⟨hbefore, hlast⟩ := List.append_inj' heq rfl
    cases hlast
    rw [← hbefore]
    exact htarget t rfl
  · rw [List.concat_eq_append, ← List.cons_append, ← List.append_assoc] at heq
    obtain ⟨hbefore, -⟩ := List.append_inj' heq rfl
    exact h.earlier hbefore

/-- The places belong to the registered themes. -/
structure Declared.InStep (d : Declared) : Prop where
  ordered : d.themes.Ordered
  places : ∀ name, d.places.get? name = none ↔ name ∉ d.themes.names

theorem Declared.InStep.declare {anchor : Span} {d : Declared} (h : d.InStep) (value : Yaml.Value) :
    (d.declare anchor value).InStep := by
  simp only [Declared.declare]
  cases Declaration.ofValue? value with
  | none => exact ⟨h.ordered, h.places⟩
  | some declaration =>
      simp only [Declared.find]
      split
      · exact ⟨h.ordered, h.places⟩
      · exact ⟨h.ordered, h.places⟩
      · next hplace htarget =>
          have hname : declaration.name ∉ d.themes.names := (h.places _).mp hplace
          refine ⟨h.ordered.insert hname ?_, fun name => ?_⟩
          · intro t ht
            rw [ht, Option.filter_eq_none_iff] at htarget
            have hcontains := htarget t rfl
            rw [Bool.not_eq_true', Bool.not_eq_false] at hcontains
            exact OrderedMap.contains_iff.mp hcontains
          · simp only [OrderedMap.get?_insert, names, OrderedMap.mem_keys_insert]
            split
            · next heq => simp [heq]
            · next hne =>
                rw [h.places name, names]
                simp [hne]

theorem build_ordered (text : List Char) (anchor : Span) (values : List Yaml.Value) :
    (build text anchor values).1.Ordered := by
  suffices hgen : ∀ d : Declared, d.InStep → (values.foldl (Declared.declare anchor) d).InStep from
    (hgen _ ⟨empty_ordered, fun _ => by simp [empty, names, OrderedMap.empty, OrderedMap.keys,
      OrderedMap.get?, OrderedMap.find]⟩).ordered
  induction values with
  | nil => exact fun d hd => hd
  | cons value values ih => exact fun d hd => ih _ (hd.declare value)

/-! ## Following aliases -/

theorem Ordered.mem_of_aliasOf? {themes : Themes} (h : themes.Ordered) {name target : String}
    (htarget : themes.aliasOf? name = some target) : target ∈ themes.names := by
  rw [aliasOf?, Option.join_eq_some_iff] at htarget
  obtain ⟨before, after, hsplit⟩ := List.append_of_mem (OrderedMap.mem_of_find_eq_some htarget)
  have hmem := h.earlier hsplit
  rw [names, OrderedMap.keys, hsplit, List.map_append]
  exact List.mem_append_left _ hmem

theorem Ordered.mem_of_mem_follow {themes : Themes} (h : themes.Ordered) {steps : Nat}
    {name target : String} (htarget : target ∈ themes.follow steps name) :
    target ∈ themes.names := by
  induction steps generalizing name with
  | zero => simp [follow] at htarget
  | succ steps ih =>
      rw [follow] at htarget
      split at htarget
      · simp at htarget
      · next next hnext =>
          rcases List.mem_cons.mp htarget with rfl | htarget
          · exact h.mem_of_aliasOf? hnext
          · exact ih htarget

theorem default?_mem {themes : Themes} {name : String} (h : themes.default? = some name) :
    name ∈ themes.names :=
  List.mem_of_mem_head? h

end Themes

namespace Analysis

theorem readThemes_ordered {text : List Char} {document : Document} {themes : Themes}
    {diagnostics : List Diagnostic} (h : readThemes text document = .ok (themes, diagnostics)) :
    themes.Ordered := by
  simp only [readThemes] at h
  split at h
  · cases h
    exact Themes.empty_ordered
  · next values _ =>
      simp only [bind_eq_ok, pure_eq_ok] at h
      obtain ⟨anchor, -, h⟩ := h
      have hbuilt := Themes.build_ordered text anchor values
      rw [h] at hbuilt
      exact hbuilt

/-- The entry that a theme uses is written in the item, under a theme of the document. -/
theorem ItemContext.rawEntry?_eq_some {c : ItemContext}
    (h : c.setting.themes.Ordered) {theme under : String} {entry : Yaml.Value}
    (htheme : theme ∈ c.setting.themes.names) (hraw : c.rawEntry? theme = some (entry, under)) :
    under ∈ c.setting.themes.names ∧ c.item.entry? under = some entry := by
  unfold ItemContext.rawEntry? at hraw
  obtain ⟨name, hname, hentry⟩ := List.exists_of_findSome?_eq_some hraw
  obtain ⟨found, hfound, heq⟩ := Option.map_eq_some_iff.mp hentry
  cases heq
  refine ⟨?_, hfound⟩
  rcases List.mem_append.mp hname with hname | hname
  · rcases List.mem_cons.mp hname with rfl | hname
    · exact htheme
    · exact h.mem_of_mem_follow hname
  · exact Themes.default?_mem (Option.mem_toList.mp hname)

end Analysis
end DesignTokens
