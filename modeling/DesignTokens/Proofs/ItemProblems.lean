import DesignTokens.Proofs.Problems
import DesignTokens.Proofs.RegistryTypes
import DesignTokens.Proofs.ThemeEntries

/-!
The problems of items, section by section.

A themed item is checked for the default theme, for keys that are no themes and for its type; a
shared item for its type and, if this is known, for its value.  What a pass reports about items is
the concatenation of these problems over the items in walk order, and an item is registered unless
its type is among its problems.

A key is reported by its text.  So a key that has none, such as a null, is not reported although it
is no theme: the reports are complete exactly if all keys of the themed items have a text.
-/

namespace DesignTokens

def Problem.isUnknownType : Problem → Bool
  | .unknownType _ => true
  | _ => false

/-- Every key of the item has a text. -/
def Item.KeysHaveText (item : Item) : Prop :=
  ∀ entry ∈ item.entries, (keyText? entry.1).isSome = true

namespace Analysis

/-- The problems of a document with its items, the shared ones first.  Without a theme the themed
ones are passed over. -/
def structureProblems (themes : Themes) (document : Document) : List Problem :=
  (sectionItems .shared document.shared).flatMap (fun (path, item) => sharedProblems path item) ++
    (sectionItems .themed (themedSection themes document)).flatMap
      (fun (_, item) => themedProblems themes item)

/-! ## Items whose type is not known -/

theorem any_sharedProblems (path : ItemPath) (item : Item) :
    (sharedProblems path item).any Problem.isUnknownType = !item.type.isOk := by
  rw [sharedProblems]
  cases item.type with
  | error marker => rfl
  | ok type => cases item.entry? Keyword.value <;> rfl

theorem any_themedProblems (themes : Themes) (item : Item) :
    (themedProblems themes item).any Problem.isUnknownType = !item.type.isOk := by
  have hkeys : (keyProblems themes item).any Problem.isUnknownType = false := by
    rw [List.any_eq_false]
    intro p hp
    rcases List.mem_append.mp hp with hp | hp
    · obtain ⟨name, -, rfl⟩ := Option.map_eq_some_iff.mp (Option.mem_toList.mp hp)
      exact Bool.false_ne_true
    · obtain ⟨name, -, rfl⟩ := List.mem_map.mp hp
      exact Bool.false_ne_true
  rw [themedProblems, List.any_append, hkeys, Bool.false_or, typeProblems]
  cases item.type <;> rfl

/-! ## Keys without a text -/

/-- The problem of a key of a themed item that is neither reserved nor a theme, be it a key without
a text.  The key is named as messages show it. -/
def unknownKey? (themes : Themes) (k : Yaml.Value) : Option Problem :=
  if isReservedKey k || (keyText? k).any themes.contains then none
  else some (.unknownTheme k.render)

/-- The problems of a themed item, those of keys without a text among them. -/
def fullThemedProblems (themes : Themes) (item : Item) : List Problem :=
  (defaultProblem? themes item).toList ++
    item.entries.filterMap (fun (k, _) => unknownKey? themes k) ++ typeProblems item

def fullProblems (themes : Themes) (document : Document) : List Problem :=
  (sectionItems .shared document.shared).flatMap (fun (path, item) => sharedProblems path item) ++
    (sectionItems .themed (themedSection themes document)).flatMap
      (fun (_, item) => fullThemedProblems themes item)

theorem render_of_keyText? {k : Yaml.Value} {name : String} (h : keyText? k = some name) :
    k.render = name := by
  cases k <;> first | exact Option.some.inj h | cases h

/-- The keys that are reported are those of the entries whose key has a text. -/
theorem map_unknownTheme_themeKeys (themes : Themes) (item : Item) :
    (item.themeKeys.filter (!themes.contains ·)).map Problem.unknownTheme =
      (item.entries.filter fun (k, _) => (keyText? k).isSome).filterMap
        (fun (k, _) => unknownKey? themes k) := by
  rw [Item.themeKeys, Item.keys]
  induction item.entries with
  | nil => rfl
  | cons entry entries ih =>
      obtain ⟨k, v⟩ := entry
      cases hname : keyText? k with
      | none => simpa [hname] using ih
      | some name =>
          have hrender := render_of_keyText? hname
          by_cases hreserved : isReserved name = true
          · simpa [hname, unknownKey?, isReservedKey, hreserved] using ih
          · by_cases htheme : themes.contains name = true
            · simpa [hname, unknownKey?, isReservedKey, hreserved, htheme] using ih
            · simpa [hname, unknownKey?, isReservedKey, hreserved, htheme, hrender] using ih

theorem isSome_unknownKey? {themes : Themes} {k : Yaml.Value} (h : keyText? k = none) :
    (unknownKey? themes k).isSome = true := by
  simp [unknownKey?, isReservedKey, h]

theorem filterMap_filter_eq_iff {α β : Type} {f : α → Option β} {keep : α → Bool} {xs : List α}
    (h : ∀ x ∈ xs, keep x = false → (f x).isSome = true) :
    (xs.filter keep).filterMap f = xs.filterMap f ↔ ∀ x ∈ xs, keep x = true := by
  constructor
  · intro heq x hx
    by_contra hkeep
    have hkeep : keep x = false := Bool.not_eq_true _ ▸ hkeep
    -- Without the element, the filtered list is shorter.
    obtain ⟨before, after, rfl⟩ := List.append_of_mem hx
    obtain ⟨y, hy⟩ := Option.isSome_iff_exists.mp (h x hx hkeep)
    have hbefore := (List.filter_sublist (p := keep) (l := before)).filterMap f
    have hafter := (List.filter_sublist (p := keep) (l := after)).filterMap f
    have hlength := congrArg List.length heq
    simp only [List.filter_append, List.filter_cons, hkeep, Bool.false_eq_true, if_false,
      List.filterMap_append, List.filterMap_cons, hy, List.length_append, List.length_cons]
      at hlength
    have hle := hbefore.length_le
    have hle' := hafter.length_le
    omega
  · intro hkeep
    rw [List.filter_eq_self.mpr hkeep]

theorem themedProblems_sublist (themes : Themes) (item : Item) :
    (themedProblems themes item).Sublist (fullThemedProblems themes item) := by
  rw [themedProblems, fullThemedProblems, keyProblems, map_unknownTheme_themeKeys]
  exact (((List.Sublist.refl _).append (List.filter_sublist.filterMap _))).append (.refl _)

theorem themedProblems_eq_iff (themes : Themes) (item : Item) :
    themedProblems themes item = fullThemedProblems themes item ↔ item.KeysHaveText := by
  rw [themedProblems, fullThemedProblems, keyProblems, map_unknownTheme_themeKeys,
    List.append_cancel_right_eq, List.append_cancel_left_eq]
  refine filterMap_filter_eq_iff fun entry _ htext => isSome_unknownKey? ?_
  simpa using htext

theorem flatMap_eq_iff_of_sublist {α β : Type} {f g : α → List β}
    (h : ∀ x, (f x).Sublist (g x)) (xs : List α) :
    xs.flatMap f = xs.flatMap g ↔ ∀ x ∈ xs, f x = g x := by
  -- No part is longer than its counterpart, so none can make up for one that is shorter.
  have hall : ∀ ys : List α, (ys.flatMap f).length ≤ (ys.flatMap g).length := by
    intro ys
    induction ys with
    | nil => exact Nat.le_refl _
    | cons y ys ih =>
        have hy := (h y).length_le
        simp only [List.flatMap_cons, List.length_append]
        omega
  constructor
  · induction xs with
    | nil => simp
    | cons x xs ih =>
        intro heq
        rw [List.flatMap_cons, List.flatMap_cons] at heq
        have hlength := congrArg List.length heq
        have hx := (h x).length_le
        have hxs := hall xs
        simp only [List.length_append] at hlength
        have hhead : f x = g x := (h x).eq_of_length (by omega)
        rw [hhead] at heq
        exact List.forall_mem_cons.mpr ⟨hhead, ih (List.append_cancel_left heq)⟩
  · exact List.flatMap_congr

theorem structureProblems_eq_iff (themes : Themes) (document : Document) :
    structureProblems themes document = fullProblems themes document ↔
      ∀ subject ∈ sectionItems .themed (themedSection themes document),
        subject.2.KeysHaveText := by
  have hparts := flatMap_eq_iff_of_sublist
    (fun subject : ItemPath × Item => themedProblems_sublist themes subject.2)
    (sectionItems .themed (themedSection themes document))
  rw [structureProblems, fullProblems, List.append_cancel_left_eq]
  exact hparts.trans (forall₂_congr fun subject _ => themedProblems_eq_iff themes subject.2)

/-! ## The theorem -/

def Visit.itemProblems (themes : Themes) : Visit → List Problem
  | .platforms _ _ _ => []
  | .item content _ path => Analysis.itemProblems themes path content

theorem flatMap_itemProblems (themes : Themes) (visits : List Visit) :
    visits.flatMap (Visit.itemProblems themes) =
      (visits.filterMap Visit.subject?).flatMap
        fun (path, item) => itemProblems themes path item := by
  induction visits with
  | nil => rfl
  | cons visit visits ih =>
      cases visit with
      | platforms own inherited path =>
          rw [List.flatMap_cons, Visit.itemProblems, List.nil_append, ih,
            List.filterMap_cons_none rfl]
      | item content inherited path =>
          have hsubject :
              Visit.subject? (.item content inherited path) = some (path, content) := rfl
          rw [List.flatMap_cons, Visit.itemProblems, ih, List.filterMap_cons_some hsubject,
            List.flatMap_cons]

theorem documentVisits_structureProblems {text : List Char} {document : Document}
    (hread : Document.ofText text = .ok document) (themes : Themes) :
    (documentVisits themes document).flatMap (Visit.itemProblems themes) =
      structureProblems themes document := by
  rw [flatMap_itemProblems, documentVisits_subjects, walkOrder, List.flatMap_append,
    structureProblems]
  congr 1
  · refine List.flatMap_congr fun subject hmem => ?_
    rw [← sectionVisits_subjects []] at hmem
    exact if_pos (isShared_of_mem_shared hmem)
  · refine List.flatMap_congr fun subject hmem => ?_
    rw [← sectionVisits_subjects []] at hmem
    exact if_neg (by simp [isShared_of_mem_sectionVisits hread hmem])

/-- What a pass reports about items is, item by item, what their keys, types and missing values give
rise to.  Nothing is left out exactly if all keys of themed items have a text.  Without a theme, the
themed items are passed over.  An item is registered unless its type is not known. -/
theorem item_reports_exact {options : Options} {text : List Char} {document : Document}
    {a : Analysis} (hread : Document.ofText text = .ok document)
    (ha : ofText options text = .ok a) :
    Reported (structureProblems a.themes document) (about .items a.diagnostics) ∧
    (structureProblems a.themes document = fullProblems a.themes document ↔
      ∀ subject ∈ sectionItems .themed (themedSection a.themes document),
        subject.2.KeysHaveText) ∧
    (a.themes.isEmpty = true →
      walkOrder a.themes document = sectionItems .shared document.shared) ∧
    ∃ log, documentLog (settingOf options text document a.themes) document = .ok log ∧
      log.visits.map ItemVisit.subject = walkOrder a.themes document ∧
      a.registry = .ofList (log.visits.filterMap ItemVisit.entry?) ∧
      (∀ v ∈ log.shared, v.entry?.isSome =
        !(sharedProblems v.context.path v.context.item).any Problem.isUnknownType) ∧
      ∀ v ∈ log.themed, v.entry?.isSome =
        !(themedProblems a.themes v.context.item).any Problem.isUnknownType := by
  obtain ⟨read, hsame, hdocument⟩ := ofText_eq_ok.mp ha
  cases hread.symm.trans hsame
  refine ⟨?_, structureProblems_eq_iff a.themes document, fun hempty => ?_, ?_⟩
  · rw [← documentVisits_structureProblems hread]
    refine ofDocument_about hdocument (by decide) (fun hcheck => ?_) fun _ hreport =>
      ItemContext.report_items hreport
    rw [about_other (by decide) (Platforms.check_isAbout hcheck)]
    exact .nil
  · rw [walkOrder, themedSection, if_pos hempty]
    exact List.append_nil _
  · obtain ⟨log, hlog⟩ := exists_isLog hread ha
    have hentry : ∀ v ∈ log.visits, v.entry?.isSome = v.context.item.type.isOk := fun v hv => by
      rw [ItemVisit.entry?, Option.isSome_map]
      exact ItemVisit.isSome_bundle (hlog.tells.report_eq v hv)
    refine ⟨log, hlog.made, hlog.tells.subjects, hlog.tells.registry, fun v hv => ?_,
      fun v hv => ?_⟩
    · rw [any_sharedProblems, Bool.not_not]
      exact hentry v (List.mem_append_left _ hv)
    · rw [any_themedProblems, Bool.not_not]
      exact hentry v (List.mem_append_right _ hv)

/-- An item with an entry under a null key. -/
def nullKeyText : List Char :=
  ".themes: [light]\n.themed:\n  a:\n    .type: int\n    light: 1\n    null: 2\n".toList

theorem nullKeyText_unreported : ∃ document a, Document.ofText nullKeyText = .ok document ∧
    ofText .default nullKeyText = .ok a ∧ a.diagnostics = [] ∧
    fullProblems a.themes document = [.unknownTheme "null"] ∧
    structureProblems a.themes document ≠ fullProblems a.themes document := by
  have hpasses : passes .default nullKeyText (fun document a =>
      decide (a.diagnostics.isEmpty = true ∧
        fullProblems a.themes document = [.unknownTheme "null"])) = true := by
    decide +kernel
  obtain ⟨document, a, hread, ha, htest⟩ := passes_iff.mp hpasses
  obtain ⟨hempty, hfull⟩ := of_decide_eq_true htest
  obtain ⟨hreported, -⟩ := item_reports_exact hread ha
  rw [List.isEmpty_iff] at hempty
  refine ⟨document, a, hread, ha, hempty, hfull, fun heq => ?_⟩
  rw [heq, hfull, hempty] at hreported
  cases hreported

end Analysis
end DesignTokens
