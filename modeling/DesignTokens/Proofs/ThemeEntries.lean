import DesignTokens.Proofs.DistinctKeys
import DesignTokens.Proofs.Equality
import DesignTokens.Proofs.Imports
import DesignTokens.Proofs.Problems

/-!
Which entries of a themed item are used.

The keys of an item are checked by their texts, but an entry is looked up under a string.  So an
entry is either used by its theme or reported, unless its key is no string and has no text, or the
text of a theme.  Such an entry is overlooked: the item is the same without it.
-/

namespace DesignTokens
namespace Analysis

/-! ## The entries that an item has of its own -/

namespace ItemContext

variable {c : ItemContext}

/-- The keys under which the values of the item are written. -/
def ownKeys (c : ItemContext) : List String :=
  if c.path.isShared then [Keyword.value] else c.setting.themes.names

/-- The entry under an own key is found in the text, and the item has for the key what it resolves
to. -/
theorem resolve_own (hordered : c.setting.themes.Ordered) {type : ItemType} {bundle : Bundle}
    {diagnostics : List Diagnostic} (h : c.resolve type = .ok (bundle, diagnostics)) {key : String}
    (hkey : key ∈ c.ownKeys) {entry : Yaml.Value} (hentry : c.item.entry? key = some entry) :
    ∃ origin, c.body.key key = .ok origin ∧ ∀ w, bundle.valueFor key = some w ↔
      (c.entryContext type).resolve entry key origin = .ok w := by
  rw [ownKeys] at hkey
  split at hkey
  · next hshared =>
      rw [List.mem_singleton] at hkey
      subst hkey
      simp only [resolve, hshared, if_true, resolveShared, hentry, bind_eq_ok, pure_eq_ok] at h
      obtain ⟨origin, horigin, h⟩ := h
      cases h
      refine ⟨origin, horigin, fun w => ?_⟩
      cases (c.entryContext type).resolve entry Keyword.value origin with
      | ok w' => simp [settle, Bundle.valueFor]
      | error fault => simp [settle, Bundle.valueFor]
  · next hshared =>
      obtain ⟨values, hvalues, rfl⟩ := resolve_themed (Bool.not_eq_true _ ▸ hshared) h
      have hraw := rawEntry?_own hentry
      obtain ⟨origin, horigin, -⟩ := resolveThemes_site hvalues hkey hraw
      refine ⟨origin, horigin, fun w => ?_⟩
      rw [valueFor_themed hordered hvalues, mem_resolveThemes hvalues]
      constructor
      · rintro ⟨-, entry', under, origin', hraw', horigin', hw⟩
        cases hraw.symm.trans hraw'
        cases horigin.symm.trans horigin'
        exact hw
      · intro hw
        exact ⟨hkey, entry, key, origin, hraw, horigin, hw⟩

end ItemContext

/-! ## Entries that are overlooked -/

def isReservedKey (k : Yaml.Value) : Bool :=
  (keyText? k).any isReserved

/-- The key is no string, and has no text or the text of a theme. -/
def isOverlooked (themes : Themes) : Yaml.Value → Bool
  | .string _ => false
  | k => (keyText? k).all themes.contains

theorem ne_string_of_isOverlooked {themes : Themes} {k : Yaml.Value}
    (h : isOverlooked themes k = true) (s : String) : k ≠ .string s := by
  rintro rfl
  cases h

theorem contains_of_isOverlooked {themes : Themes} {k : Yaml.Value}
    (h : isOverlooked themes k = true) : (keyText? k).all themes.contains = true := by
  cases k with
  | string s => cases h
  | _ => exact h

/-- A key that is not overlooked has a text, and is a string if this is a theme. -/
theorem keyText?_of_not_isOverlooked {themes : Themes} {k : Yaml.Value}
    (h : isOverlooked themes k = false) : ∃ name, keyText? k = some name ∧
      (themes.contains name = true → k = .string name) := by
  cases hname : keyText? k with
  | none => cases k <;> simp_all [isOverlooked, keyText?]
  | some name =>
      refine ⟨name, rfl, fun htheme => ?_⟩
      cases k <;> simp_all [isOverlooked, keyText?]

namespace ItemContext

variable {c : ItemContext}

def withEntries (c : ItemContext) (entries : List (Yaml.Value × Yaml.Value)) : ItemContext :=
  { c with item := ⟨entries⟩ }

section Overlooked

variable {before after : List (Yaml.Value × Yaml.Value)} {k value : Yaml.Value}
  (hentries : c.item.entries = before ++ (k, value) :: after)
  (h : isOverlooked c.setting.themes k = true)
include hentries h

theorem entry?_of_isOverlooked (name : String) :
    c.item.entry? name = Item.entry? ⟨before ++ after⟩ name := by
  unfold Item.entry?
  rw [hentries, Yaml.get?_append_cons (ne_string_of_isOverlooked h)]

theorem rawEntry?_of_isOverlooked (theme : String) :
    c.rawEntry? theme = rawEntry? (c.withEntries (before ++ after)) theme := by
  simp only [entry?_of_isOverlooked hentries h, rawEntry?]
  rfl

theorem resolveThemes_of_isOverlooked (type : ItemType) (themes : List String) :
    c.resolveThemes type themes = (c.withEntries (before ++ after)).resolveThemes type themes := by
  induction themes with
  | nil => rfl
  | cons theme themes ih =>
      rw [resolveThemes, resolveThemes, ← rawEntry?_of_isOverlooked hentries h, ih]
      rfl

theorem missingDefault?_of_isOverlooked :
    c.missingDefault? = (c.withEntries (before ++ after)).missingDefault? := by
  simp only [missingDefault?, entry?_of_isOverlooked hentries h]
  rfl

theorem unknownThemes_of_isOverlooked :
    c.unknownThemes = (c.withEntries (before ++ after)).unknownThemes := by
  have hnames : (c.item.themeKeys.filter (!c.setting.themes.contains ·)) =
      ((c.withEntries (before ++ after)).item.themeKeys.filter (!c.setting.themes.contains ·)) := by
    have hk := contains_of_isOverlooked h
    simp only [Item.themeKeys, Item.keys, hentries, withEntries, List.filterMap_append,
      List.filterMap_cons, List.filter_append]
    cases hname : keyText? k with
    | none => rfl
    | some name =>
        rw [hname, Option.all_some] at hk
        by_cases hreserved : isReserved name
        · simp [hreserved]
        · simp [hreserved, hk]
  rw [unknownThemes, hnames]
  rfl

end Overlooked

/-! ## Entries that are not overlooked -/

theorem unknownTheme_mem {problems : List Diagnostic} (h : c.themeProblems = .ok problems)
    (hshared : c.path.isShared = false) {name : String} (hmem : name ∈ c.item.themeKeys)
    (htheme : c.setting.themes.contains name = false) :
    ∃ span, c.body.key name = .ok span ∧
      (Problem.unknownTheme name).placedAt span ∈ problems := by
  simp only [themeProblems, hshared, Bool.false_eq_true, if_false, bind_eq_ok, pure_eq_ok] at h
  obtain ⟨unknown, hunknown, rfl⟩ := h
  have hfilter : name ∈ c.item.themeKeys.filter (!c.setting.themes.contains ·) :=
    List.mem_filter.mpr ⟨hmem, by simp [htheme]⟩
  obtain ⟨d, hd, hname⟩ := exists_mem_mapM hunknown hfilter
  simp only [bind_eq_ok, pure_eq_ok] at hname
  obtain ⟨span, hspan, rfl⟩ := hname
  exact ⟨span, hspan, List.mem_append_right _ hd⟩

theorem mem_themeKeys {k value : Yaml.Value} (hmem : (k, value) ∈ c.item.entries) {name : String}
    (hname : keyText? k = some name) (hreserved : isReservedKey k = false) :
    name ∈ c.item.themeKeys := by
  rw [isReservedKey, hname, Option.any_some] at hreserved
  refine List.mem_filter.mpr ⟨List.mem_filterMap.mpr ⟨_, hmem, hname⟩, ?_⟩
  simp [hreserved]

end ItemContext

/-- The theme uses the value, which is written under its name, and what the item has for the theme
is what the value resolves to. -/
structure UsedBy (v : ItemVisit) (type : ItemType) (theme : String) (value : Yaml.Value) :
    Prop where
  registered : theme ∈ v.context.setting.themes.names
  raw : v.context.rawEntry? theme = some (value, theme)
  resolved : ∃ bundle origin, v.report.bundle = some bundle ∧
    v.context.body.key theme = .ok origin ∧ ∀ w, bundle.valueFor theme = some w ↔
      (v.context.entryContext type).resolve value theme origin = .ok w

/-- The key is reported not to be a theme, or its theme uses the value. -/
def Accounted (v : ItemVisit) (type : ItemType) (k value : Yaml.Value) : Prop :=
  ∃ name, keyText? k = some name ∧
    ((∃ span, v.context.body.key name = .ok span ∧
        (Problem.unknownTheme name).placedAt span ∈ v.report.diagnostics) ∨
      UsedBy v type name value)

/-- The entry between `before` and `after` makes no difference: every theme uses the same entry
without it, the values are the same, and so are the reports of keys that are no themes. -/
structure Ignored (c : ItemContext) (before after : List (Yaml.Value × Yaml.Value)) : Prop where
  raw : ∀ theme,
    c.rawEntry? theme = ItemContext.rawEntry? (c.withEntries (before ++ after)) theme
  values : ∀ type themes,
    c.resolveThemes type themes = (c.withEntries (before ++ after)).resolveThemes type themes
  problems : c.themeProblems = (c.withEntries (before ++ after)).themeProblems

theorem accounted_of_not_isOverlooked {v : ItemVisit}
    (hreport : v.context.report v.inherited = .ok v.report)
    (hordered : v.context.setting.themes.Ordered) (hshared : v.context.path.isShared = false)
    (hkeyed : Yaml.WellKeyed (.mapping v.context.item.entries)) {type : ItemType}
    (htype : v.context.item.type = .ok type) {k value : Yaml.Value}
    (hmem : (k, value) ∈ v.context.item.entries) (hvalue : value.isNull = false)
    (hreserved : isReservedKey k = false)
    (h : isOverlooked v.context.setting.themes k = false) : Accounted v type k value := by
  obtain ⟨name, hname, hstring⟩ := keyText?_of_not_isOverlooked h
  rcases (ItemContext.report_cases hreport).2 with ⟨marker, hr⟩ | ⟨type', bundle, hr⟩
  · cases htype.symm.trans hr.type_eq
  · cases htype.symm.trans hr.type_eq
    obtain ⟨platforms, themes, values, hchecked, hresolve, hdiagnostics⟩ := hr.diagnostics_eq
    refine ⟨name, hname, ?_⟩
    -- A text that is no theme is reported; one that is belongs to a string, which is looked up.
    cases htheme : v.context.setting.themes.contains name with
    | false =>
        obtain ⟨span, hspan, hproblem⟩ := ItemContext.unknownTheme_mem hchecked.2 hshared
          (ItemContext.mem_themeKeys hmem hname hreserved) htheme
        refine .inl ⟨span, hspan, ?_⟩
        rw [hdiagnostics]
        exact List.mem_append_left _ (List.mem_append_right _ hproblem)
    | true =>
        rw [hstring htheme] at hmem
        have hentry : v.context.item.entry? name = some value := by
          unfold Item.entry?
          rw [(Yaml.get?_eq_some_iff hkeyed.nodup).mpr hmem]
          simp [hvalue]
        have hregistered : name ∈ v.context.setting.themes.names :=
          OrderedMap.contains_iff.mp htheme
        have hown : name ∈ v.context.ownKeys := by
          simpa [ItemContext.ownKeys, hshared] using hregistered
        obtain ⟨origin, horigin, hvalueFor⟩ := ItemContext.resolve_own hordered hresolve hown hentry
        exact .inr ⟨hregistered, ItemContext.rawEntry?_own hentry, bundle, origin, hr.bundle_eq,
          horigin, hvalueFor⟩

theorem ignored_of_isOverlooked {c : ItemContext}
    {before after : List (Yaml.Value × Yaml.Value)} {k value : Yaml.Value}
    (hentries : c.item.entries = before ++ (k, value) :: after)
    (h : isOverlooked c.setting.themes k = true) : Ignored c before after where
  raw := ItemContext.rawEntry?_of_isOverlooked hentries h
  values := ItemContext.resolveThemes_of_isOverlooked hentries h
  problems := by
    rw [ItemContext.themeProblems, ItemContext.themeProblems,
      ItemContext.unknownThemes_of_isOverlooked hentries h,
      ItemContext.missingDefault?_of_isOverlooked hentries h]
    rfl

/-! ## The theorem -/

/-- Every entry of a themed item whose key is not reserved and whose value is not null is reported
or used by its theme, unless it is overlooked, and then the item is treated as if it did not have
the entry. -/
theorem themed_entry_reported_or_used {options : Options} {text : List Char} {document : Document}
    {a : Analysis} (hread : Document.ofText text = .ok document)
    (ha : ofText options text = .ok a) :
    ∃ log, documentLog (settingOf options text document a.themes) document = .ok log ∧
      log.themed.map ItemVisit.subject = sectionItems .themed (themedSection a.themes document) ∧
      ∀ v ∈ log.themed, v.report.diagnostics ⊆ a.diagnostics ∧
        v.context.setting.themes = a.themes ∧
        ∀ type, v.context.item.type = .ok type → ∀ before k value after,
          v.context.item.entries = before ++ (k, value) :: after → value.isNull = false →
          isReservedKey k = false →
          (isOverlooked a.themes k = false → Accounted v type k value) ∧
            (isOverlooked a.themes k = true → Ignored v.context before after) := by
  obtain ⟨log, hlog⟩ := exists_isLog hread ha
  refine ⟨log, hlog.made, hlog.themed, fun v hv => ?_⟩
  have hvisit : v ∈ log.visits := List.mem_append_right _ hv
  have hsetting : v.context.setting.themes = a.themes :=
    congrArg Setting.themes (hlog.tells.setting_eq v hvisit)
  refine ⟨hlog.tells.told v hvisit, hsetting,
    fun type htype before k value after hentries hvalue hreserved => ?_⟩
  rw [← hsetting]
  refine ⟨fun hnot => ?_, fun hoverlooked => ignored_of_isOverlooked hentries hoverlooked⟩
  have hsubject : v.subject ∈ walkOrder a.themes document :=
    hlog.tells.subjects ▸ List.mem_map_of_mem hvisit
  exact accounted_of_not_isOverlooked (hlog.tells.report_eq v hvisit)
    (hsetting ▸ hlog.ordered) (hlog.isShared_of_mem_themed hread hv)
    (wellKeyed_of_mem_walkOrder hread hsubject) htype (hentries ▸ by simp) hvalue hreserved hnot

/-- A theme `1`, and an item with an entry under the number. -/
def numberKeyText : List Char :=
  ".themes: [light, '1']\n.themed:\n  a:\n    .type: int\n    light: 1\n    1: 2\n".toList

def numberKeyEntries : List (Yaml.Value × Yaml.Value) :=
  [(.string ".type", .string "int"), (.string "light", .number (.int 1))]

/-- The theme `1` has the value of the light one, as if the last entry were not written. -/
theorem numberKeyText_ignored : ∃ document a, ∃ v : ItemVisit,
    Document.ofText numberKeyText = .ok document ∧ ofText .default numberKeyText = .ok a ∧
    a.diagnostics = [] ∧ a.shownAt "a" "1" = some "1" ∧
    v.subject = (⟨["a"]⟩, ⟨numberKeyEntries ++ [(.number (.int 1), .number (.int 2))]⟩) ∧
    Ignored v.context numberKeyEntries [] := by
  have hpasses : passes .default numberKeyText (fun document a =>
      decide (sectionItems .themed (themedSection a.themes document) =
          [(⟨["a"]⟩, ⟨numberKeyEntries ++ [(.number (.int 1), .number (.int 2))]⟩)] ∧
        a.diagnostics.isEmpty = true ∧ a.shownAt "a" "1" = some "1" ∧
        isOverlooked a.themes (.number (.int 1)) = true)) = true := by
    decide +kernel
  obtain ⟨document, a, hread, ha, htest⟩ := passes_iff.mp hpasses
  obtain ⟨hitems, hempty, hshown, hoverlooked⟩ := of_decide_eq_true htest
  obtain ⟨log, -, hthemed, hlog⟩ := themed_entry_reported_or_used hread ha
  rw [hitems] at hthemed
  obtain ⟨v, rest, hlist, hsubject, -⟩ := List.map_eq_cons_iff.mp hthemed
  obtain ⟨-, -, hentry⟩ := hlog v (hlist ▸ List.mem_cons_self)
  have hitem : v.context.item = ⟨numberKeyEntries ++ [(.number (.int 1), .number (.int 2))]⟩ :=
    congrArg Prod.snd hsubject
  have htype : v.context.item.type = .ok .int := by
    rw [hitem]
    rfl
  exact ⟨document, a, v, hread, ha, List.isEmpty_iff.mp hempty, hshown, hsubject,
    (hentry .int htype numberKeyEntries (.number (.int 1)) (.number (.int 2)) [] (by rw [hitem])
      rfl (by decide +kernel)).2 hoverlooked⟩

end Analysis
end DesignTokens
