import DesignTokens.Proofs.Imports

/-!
Themes that no item is written for.

A theme without an entry of its own takes over the entry of the theme it is an alias of, or else of
the default theme, but looks up imports and imported opacities for itself.  If no item has an entry
for the theme, then these look-ups too find what the other theme finds: the registry of every moment
has the same values for both (`Registry.Copies`), item by item along the pass.
-/

namespace DesignTokens

/-! ## Alias chains -/

namespace Themes

variable {themes : Themes}

/-- The theme whose entries are taken over first: the target of an alias, or else the default. -/
def fallback? (themes : Themes) (name : String) : Option String :=
  (themes.aliasOf? name).or themes.default?

theorem Ordered.mem_of_fallback? (h : themes.Ordered) {name target : String}
    (htarget : themes.fallback? name = some target) : target ∈ themes.names := by
  rcases Option.or_eq_some_iff.mp htarget with htarget | ⟨-, htarget⟩
  · exact h.mem_of_aliasOf? htarget
  · exact default?_mem htarget

theorem exists_fallback? {name : String} (h : name ∈ themes.names) :
    ∃ target, themes.fallback? name = some target := by
  have hdefault : themes.default?.isSome = true := by
    rw [default?, List.isSome_head?]
    exact List.ne_nil_of_mem h
  rw [← Option.isSome_iff_exists, fallback?, Option.isSome_or, hdefault, Bool.or_true]

theorem Ordered.split_of_aliasOf? (h : themes.Ordered) {name target : String}
    (htarget : themes.aliasOf? name = some target)
    {before after : List (String × Option String)} {declared : Option String}
    (hsplit : themes.targets.entries = before ++ (name, declared) :: after) :
    ∃ first link rest, before = first ++ (target, link) :: rest := by
  have hget : themes.targets.get? name = some declared :=
    h.distinct.mem_entries.mp (hsplit ▸ by simp)
  rw [aliasOf?, hget, Option.join_some] at htarget
  subst htarget
  obtain ⟨⟨_, link⟩, hmem, rfl⟩ := List.mem_map.mp (h.earlier hsplit)
  obtain ⟨first, rest, rfl⟩ := List.append_of_mem hmem
  exact ⟨first, link, rest, rfl⟩

theorem Ordered.aliasOf?_first (h : themes.Ordered) {name : String} {declared : Option String}
    {after : List (String × Option String)}
    (hsplit : themes.targets.entries = [] ++ (name, declared) :: after) :
    themes.aliasOf? name = none := by
  rw [Option.eq_none_iff_forall_ne_some]
  intro target htarget
  obtain ⟨first, link, rest, hnil⟩ := h.split_of_aliasOf? htarget hsplit
  simp at hnil

/-- As many steps as there are themes before a name follow its aliases to the end. -/
theorem Ordered.follow_succ (h : themes.Ordered) {steps : Nat} {name : String}
    {before after : List (String × Option String)} {declared : Option String}
    (hsplit : themes.targets.entries = before ++ (name, declared) :: after)
    (hsteps : before.length ≤ steps) :
    themes.follow (steps + 1) name = themes.follow steps name := by
  induction steps generalizing name before after declared with
  | zero =>
      obtain rfl := List.eq_nil_of_length_eq_zero (Nat.le_zero.mp hsteps)
      simp only [follow, h.aliasOf?_first hsplit]
  | succ steps ih =>
      rw [follow, follow]
      cases htarget : themes.aliasOf? name with
      | none => rfl
      | some target =>
          obtain ⟨first, link, rest, rfl⟩ := h.split_of_aliasOf? htarget hsplit
          rw [List.append_assoc, List.cons_append] at hsplit
          rw [List.length_append, List.length_cons] at hsteps
          simp only [ih hsplit (by omega)]

theorem Ordered.chain_of_aliasOf? (h : themes.Ordered) {name target : String}
    (htarget : themes.aliasOf? name = some target) :
    themes.chain name = target :: themes.chain target := by
  have hget := Option.join_eq_some_iff.mp htarget
  obtain ⟨before, after, hsplit⟩ := List.append_of_mem (OrderedMap.mem_of_find_eq_some hget)
  obtain ⟨first, link, rest, rfl⟩ := h.split_of_aliasOf? htarget hsplit
  have hsize : themes.targets.size = first.length + rest.length + after.length + 1 + 1 := by
    simp only [OrderedMap.size, hsplit, List.length_append, List.length_cons]
    omega
  rw [List.append_assoc, List.cons_append] at hsplit
  rw [chain, chain, hsize, h.follow_succ hsplit (by omega), follow, htarget]

theorem chain_of_aliasOf?_none {name : String} (h : themes.aliasOf? name = none) :
    themes.chain name = [] := by
  rw [chain]
  cases themes.targets.size with
  | zero => rfl
  | succ steps => rw [follow, h]

theorem Ordered.aliasOf?_default (h : themes.Ordered) {name : String}
    (hdefault : themes.default? = some name) : themes.aliasOf? name = none := by
  rw [default?, names, OrderedMap.keys, List.head?_map, Option.map_eq_some_iff] at hdefault
  obtain ⟨⟨_, declared⟩, hhead, rfl⟩ := hdefault
  obtain ⟨after, hsplit⟩ := List.head?_eq_some_iff.mp hhead
  exact h.aliasOf?_first hsplit

end Themes

/-! ## Entries seen by two themes -/

namespace Registry

/-- Every bundle has the same value for both keys. -/
structure Copies (registry : Registry) (key other : String) : Prop where
  valueFor_eq : ∀ {path bundle}, registry.get? path = some bundle →
    bundle.valueFor key = bundle.valueFor other

theorem empty_copies (key other : String) : Copies OrderedMap.empty key other :=
  ⟨fun h => by cases h⟩

theorem Copies.symm {registry : Registry} {key other : String} (h : registry.Copies key other) :
    registry.Copies other key :=
  ⟨fun hbundle => (h.valueFor_eq hbundle).symm⟩

theorem Copies.register {registry : Registry} {key other : String}
    (h : registry.Copies key other) (path : ItemPath) {bundle : Bundle}
    (hbundle : bundle.valueFor key = bundle.valueFor other) :
    (registry.register path bundle).Copies key other :=
  ⟨forall_get?_register h.valueFor_eq path hbundle⟩

end Registry

namespace Analysis
namespace EntryContext

variable {c : EntryContext} {key other : String}

theorem importValue_of_copies (h : c.registry.Copies key other) (path : String)
    (expected : ItemType) : c.importValue path expected key = c.importValue path expected other := by
  rw [importValue, importValue]
  cases hbundle : c.registry.get? path with
  | none => rfl
  | some bundle => simp only [h.valueFor_eq hbundle]

theorem base_of_copies (h : c.registry.Copies key other)
    (parts : List (Yaml.Value × Yaml.Value)) (origin : Span) :
    c.base parts key origin = c.base parts other origin := by
  simp only [base, importValue_of_copies h]

/-- A fault names the theme, so only the colors are compared. -/
theorem fade_of_copies (h : c.registry.Copies key other) {color faded : Color}
    {opacity : Yaml.Value} (hfade : c.fade color opacity key = .ok faded) :
    c.fade color opacity other = .ok faded := by
  rw [fade] at hfade ⊢
  cases hnumber : opacity.number? with
  | some n => simpa only [hnumber] using hfade
  | none =>
      cases hpath : opacity.mapping?.bind (Yaml.get? Keyword.importKey) with
      | none => simp [hnumber, hpath] at hfade
      | some path =>
          simp only [hnumber, hpath, importValue_of_copies h, bind_eq_ok] at hfade ⊢
          obtain ⟨v, himport, hfade⟩ := hfade
          refine ⟨v, himport, ?_⟩
          cases hx : v.double? with
          | none => simp [hx] at hfade
          | some x =>
              simp only [hx] at hfade ⊢
              cases hcolor : color.withOpacity x with
              | error error => simp [hcolor] at hfade
              | ok result => simpa only [hcolor] using hfade

theorem shade_of_copies (h : c.registry.Copies key other)
    {parts : List (Yaml.Value × Yaml.Value)} {v shaded : Value}
    (hshade : c.shade parts key v = .ok shaded) : c.shade parts other v = .ok shaded := by
  rw [shade] at hshade ⊢
  split at hshade
  · next opacity htype hopacity =>
      cases hcolor : v.color? with
      | none => simp [hcolor] at hshade
      | some color =>
          simp only [hcolor] at hshade ⊢
          cases hfade : c.fade color opacity key with
          | error fault => simp [hfade, Except.map] at hshade
          | ok faded =>
              rw [hfade] at hshade
              rw [fade_of_copies h hfade]
              exact hshade
  · exact hshade

theorem resolve_of_copies (h : c.registry.Copies key other) {entry : Yaml.Value} {origin : Span}
    {v : Value} (hresolve : c.resolve entry key origin = .ok v) :
    c.resolve entry other origin = .ok v := by
  cases entry with
  | mapping parts =>
      rw [resolve_mapping, bind_eq_ok] at hresolve ⊢
      obtain ⟨start, hbase, hshade⟩ := hresolve
      exact ⟨start, base_of_copies h parts origin ▸ hbase, shade_of_copies h hshade⟩
  | _ => exact hresolve

end EntryContext

namespace ItemContext

variable {c : ItemContext} {theme fallback : String}

/-- A theme without an entry of its own uses the entry of the theme it falls back to. -/
theorem rawEntry?_of_fallback? (hordered : c.setting.themes.Ordered)
    (hfallback : c.setting.themes.fallback? theme = some fallback)
    (hentry : c.item.entry? theme = none) : c.rawEntry? theme = c.rawEntry? fallback := by
  simp only [List.cons_append, rawEntry?, List.findSome?_cons, hentry, Option.map_none]
  rcases Option.or_eq_some_iff.mp hfallback with htarget | ⟨hnone, hdefault⟩
  · rw [hordered.chain_of_aliasOf? htarget, List.cons_append, List.findSome?_cons]
  · -- The chain of the default theme is empty, and its entry is looked up twice.
    rw [Themes.chain_of_aliasOf?_none hnone,
      Themes.chain_of_aliasOf?_none (hordered.aliasOf?_default hdefault), hdefault]
    simp only [List.nil_append, Option.toList_some, List.findSome?_cons, List.findSome?_nil]
    cases c.item.entry? fallback <;> rfl

/-- The step: an item without an entry for the theme has for it the value of the other theme. -/
theorem valueFor_of_copies (hordered : c.setting.themes.Ordered)
    (htheme : theme ∈ c.setting.themes.names)
    (hfallback : c.setting.themes.fallback? theme = some fallback)
    (hcopies : c.registry.Copies theme fallback)
    (hentry : c.path.isShared = false → c.item.entry? theme = none) {type : ItemType}
    {bundle : Bundle} {diagnostics : List Diagnostic}
    (h : c.resolve type = .ok (bundle, diagnostics)) :
    bundle.valueFor theme = bundle.valueFor fallback := by
  cases hshared : c.path.isShared with
  | true =>
      obtain ⟨value, rfl⟩ := resolve_shared hshared h
      rfl
  | false =>
      obtain ⟨values, hvalues, rfl⟩ := resolve_themed hshared h
      have hmem := hordered.mem_of_fallback? hfallback
      have hraw := rawEntry?_of_fallback? hordered hfallback (hentry hshared)
      refine Option.ext fun v => ?_
      simp only [valueFor_themed hordered hvalues, mem_resolveThemes hvalues, htheme, hmem, hraw,
        true_and]
      constructor
      · rintro ⟨entry, under, origin, hentry, horigin, hv⟩
        exact ⟨entry, under, origin, hentry, horigin, EntryContext.resolve_of_copies hcopies hv⟩
      · rintro ⟨entry, under, origin, hentry, horigin, hv⟩
        exact ⟨entry, under, origin, hentry, horigin,
          EntryContext.resolve_of_copies hcopies.symm hv⟩

end ItemContext

/-! ## The pass -/

/-- An item that is visited outside the shared section is one of the themed section. -/
theorem mem_themed_of_mem_documentVisits {themes : Themes} {document : Document} {content : Item}
    {inherited : List String} {path : ItemPath}
    (h : Visit.item content inherited path ∈ documentVisits themes document)
    (hpath : path.isShared = false) :
    (path, content) ∈ sectionItems .themed (themedSection themes document) := by
  rcases List.mem_append.mp h with h | h
  · have hsubject : (path, content) ∈ (sectionVisits (document.platforms.getD []) .shared
        document.shared).filterMap Visit.subject? := List.mem_filterMap.mpr ⟨_, h, rfl⟩
    rw [isShared_of_mem_shared hsubject] at hpath
    cases hpath
  · rw [← sectionVisits_subjects (document.platforms.getD [])]
    exact List.mem_filterMap.mpr ⟨_, h, rfl⟩

/-- The run: if no item of the themed section has an entry for the theme, the registry has for it
the values of the theme it falls back to. -/
theorem Run.copies {setting : Setting} {document : Document} {f f' : Findings}
    {theme fallback : String}
    (hrun : Run setting (documentVisits setting.themes document) f f')
    (hordered : setting.themes.Ordered) (htheme : theme ∈ setting.themes.names)
    (hfallback : setting.themes.fallback? theme = some fallback)
    (hentries : ∀ path item, (path, item) ∈ sectionItems .themed document.themed →
      item.entry? theme = none)
    (hf : f.registry.Copies theme fallback) : f'.registry.Copies theme fallback := by
  refine hrun.inv (P := fun g => g.registry.Copies theme fallback) (fun _ _ hg => hg) ?_ hf
  intro content inherited path key report g hvisit hreport hg
  have hentry : path.isShared = false → content.entry? theme = none := by
    intro hpath
    have hmem := mem_themed_of_mem_documentVisits hvisit hpath
    rw [themedSection] at hmem
    split at hmem
    · simp [sectionItems] at hmem
    · exact hentries path content hmem
  rcases (ItemContext.report_cases hreport).2 with ⟨marker, huntyped⟩ | ⟨type, bundle, htyped⟩
  · rw [Findings.addItem, huntyped.bundle_eq]
    exact hg
  · rw [Findings.addItem, htyped.bundle_eq]
    obtain ⟨platforms, themes, values, -, hresolve, -⟩ := htyped.diagnostics_eq
    exact hg.register path
      (ItemContext.valueFor_of_copies hordered htheme hfallback hg hentry hresolve)

/-- A theme that no themed item is written for has in every bundle the value of the theme that it is
an alias of, or else of the default theme. -/
theorem unwritten_theme_copies_fallback {options : Options} {text : List Char}
    {document : Document} {a : Analysis} (hread : Document.ofText text = .ok document)
    (ha : ofText options text = .ok a) {theme : String} (htheme : theme ∈ a.themes.names)
    (hentries : ∀ path item, (path, item) ∈ sectionItems .themed document.themed →
      item.entry? theme = none) :
    ∃ fallback, a.themes.fallback? theme = some fallback ∧ fallback ∈ a.themes.names ∧
      ∀ path bundle, a.registry.get? path = some bundle →
        bundle.valueFor theme = bundle.valueFor fallback := by
  obtain ⟨read, hsame, hdocument⟩ := ofText_eq_ok.mp ha
  cases hread.symm.trans hsame
  obtain ⟨diagnostics, hthemes, -, hrun⟩ := ofDocument_run hdocument
  have hordered := readThemes_ordered hthemes
  obtain ⟨fallback, hfallback⟩ := Themes.exists_fallback? htheme
  have hcopies := hrun.copies hordered htheme hfallback hentries
    (Registry.empty_copies theme fallback)
  exact ⟨fallback, hfallback, hordered.mem_of_fallback? hfallback,
    fun path bundle hbundle => hcopies.valueFor_eq hbundle⟩

/-- An alias of an alias, with nothing but a null written for it.  Each theme looks up the imported
color and the imported opacity for itself. -/
def aliasText : List Char :=
  (".themes: [l, \x7bd: \x7bimport: l\x7d\x7d, \x7bn: \x7baliasOf: d\x7d\x7d]\n.themed:\n"
    ++ " o:\n  .type: double\n  l: 1\n g:\n  .type: color\n  l: ffffffff\n  d: ff102030\n  n: ~\n"
    ++ " v:\n  .type: color\n  l: \x7bimport: g, withOpacity: \x7bimport: o\x7d\x7d\n").toList

theorem aliasText_copies_fallback : ∃ document a, Document.ofText aliasText = .ok document ∧
    ofText .default aliasText = .ok a ∧ a.themes.fallback? "n" = some "d" ∧
    a.shownAt "g" "d" = some "ff102030" ∧ (a.shownAt "v" "d").isSome = true ∧
    ∀ path bundle, a.registry.get? path = some bundle →
      bundle.valueFor "n" = bundle.valueFor "d" := by
  have hpasses : passes .default aliasText (fun document a =>
      decide ("n" ∈ a.themes.names ∧ a.themes.fallback? "n" = some "d" ∧
        a.shownAt "g" "d" = some "ff102030" ∧ (a.shownAt "v" "d").isSome = true ∧
        (sectionItems .themed document.themed).all
          (fun (_, item) => (item.entry? "n").isNone) = true)) = true := by
    decide +kernel
  obtain ⟨document, a, hread, ha, htest⟩ := passes_iff.mp hpasses
  obtain ⟨htheme, hd, hground, hveil, hentries⟩ := of_decide_eq_true htest
  obtain ⟨fallback, hfallback, -, hcopies⟩ :=
    unwritten_theme_copies_fallback hread ha htheme fun path item hmem =>
      Option.isNone_iff_eq_none.mp (List.all_eq_true.mp hentries (path, item) hmem)
  cases hd.symm.trans hfallback
  exact ⟨document, a, hread, ha, hd, hground, hveil, hcopies⟩

end Analysis
end DesignTokens
