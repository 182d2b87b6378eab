import DesignTokens.Proofs.EntryReports
import DesignTokens.Proofs.Places
import DesignTokens.Proofs.RegistryTypes

/-!
Swatches show what entries resolve to.

The color of a swatch is not taken from the resolved value: the entry is read a second time, with
imports looked up in the same registry but without their types, and without the opacity.  So the two
readings are compared entry by entry (`swatch?_of_resolve`).  The places are found by a search of
their own too, key behind key (`located`), and filed under the color; what is filed stays filed to
the end of the pass (`Run.filed`).
-/

namespace DesignTokens

namespace Color

/-- The colors differ at most in their alpha. -/
def SameHue (c d : Color) : Prop :=
  c.red = d.red ∧ c.green = d.green ∧ c.blue = d.blue

theorem sameHue_withOpacity {c faded : Color} {x : Float} (h : c.withOpacity x = .ok faded) :
    c.SameHue faded := by
  rw [withOpacity] at h
  split at h
  · cases h
    exact ⟨rfl, rfl, rfl⟩
  · cases h

end Color

namespace Decorations

def placesOf (d : Decorations) (color : Color) : List Span :=
  (d.single.get? color).getD []

theorem placesOf_addSingle (d : Decorations) (shown color : Color) (span : Span) :
    (d.addSingle shown span).placesOf color =
      d.placesOf color ++ if shown = color then [span] else [] := by
  simp only [placesOf, addSingle, OrderedMap.get?_extend]
  by_cases h : color = shown
  · rw [if_pos h, if_pos h.symm, h]
    rfl
  · rw [if_neg h, if_neg (Ne.symm h), List.append_nil]

end Decorations

namespace Locate

theorem exists_literal? {text rest : List Char} {offset : Nat} {word : String}
    (h : Text.Reads text offset rest) (hword : word ≠ "") (hoccurs : word.toList <:+: rest) :
    ∃ span, literal? text offset word = some span ∧ offset ≤ span.start ∧
      span.Marks text word.toList := by
  have hne : word.toList ≠ [] := by
    intro hnil
    exact hword (String.toList_eq_nil_iff.mp hnil)
  obtain ⟨gap, after, rfl⟩ := hoccurs
  rw [List.append_assoc] at h
  obtain ⟨before, after', -, hfind, -⟩ := Text.exists_find_le hne gap after
  have hfound := literal?_eq h hne hfind
  exact ⟨_, hfound, Nat.le_add_right _ _, literal?_marks hfound⟩

end Locate

namespace Analysis

/-! ## One entry, read twice -/

/-- The text that is marked for an entry: the path it imports, or its literal. -/
def entryWord? : Yaml.Value → Option String
  | .mapping parts =>
      match Yaml.get? Keyword.importKey parts with
      | some path => some path.render
      | none => (EntryContext.written? parts Keyword.literal).map Yaml.Value.render
  | literal => some literal.render

def hasOpacity : Yaml.Value → Bool
  | .mapping parts => (EntryContext.written? parts Keyword.opacity).isSome
  | _ => false

theorem literalText_string (text : List Char) (s : String) (origin : Option Span) :
    literalText text (.string s) origin = s := by
  cases origin <;> rfl

/-- A color that is not written as a number is written as a string, wherever it stands. -/
theorem castColor_eq_some {literal : Yaml.Value} {written : String} {color : Color}
    (hnumber : ∀ n, literal ≠ .number n) (h : castColor literal written = some color) :
    ∃ hex, literal = .string hex ∧ Color.ofText? hex = some color := by
  cases literal with
  | string hex => exact ⟨hex, rfl, h⟩
  | number n => exact absurd rfl (hnumber n)
  | _ => cases h

namespace EntryContext

variable {c : EntryContext} {key : String} {origin : Span}

theorem cast_color {literal : Yaml.Value} {place : Option Span} {v : Value}
    (htype : c.type = .color) (hnumber : ∀ n, literal ≠ .number n)
    (h : c.cast literal place = .ok v) :
    ∃ hex color, literal = .string hex ∧ Color.ofText? hex = some color ∧ v = .color color := by
  simp only [cast, htype, castLiteral] at h
  split at h
  · next found hfound =>
      cases h
      obtain ⟨color, hcolor, rfl⟩ := Option.map_eq_some_iff.mp hfound
      obtain ⟨hex, rfl, hhex⟩ := castColor_eq_some hnumber hcolor
      exact ⟨hex, color, rfl, hhex, rfl⟩
  · cases h

theorem fade_sameHue {color faded : Color} {opacity : Yaml.Value}
    (h : c.fade color opacity key = .ok faded) : color.SameHue faded := by
  rw [fade] at h
  split at h
  · split at h
    · next hwith =>
        cases h
        exact Color.sameHue_withOpacity hwith
    · cases h
  · split at h
    · cases h
    · rw [bind_eq_ok] at h
      obtain ⟨v, -, h⟩ := h
      split at h
      · cases h
      · split at h
        · next hwith =>
            cases h
            exact Color.sameHue_withOpacity hwith
        · cases h

/-- The color that a mapping starts from has the hue of the color it ends with, and is that color if
no opacity is written. -/
theorem shade_color {parts : List (Yaml.Value × Yaml.Value)} {v : Value} {color : Color}
    (h : c.shade parts key v = .ok (.color color)) :
    ∃ start, v.color? = some start ∧ start.SameHue color ∧
      (hasOpacity (.mapping parts) = false → start = color) := by
  rw [shade] at h
  split at h
  · next opacity _ hopacity =>
      split at h
      · next start hstart =>
          refine ⟨start, hstart, ?_, fun hnone => ?_⟩
          · cases hfade : c.fade start opacity key with
            | error fault =>
                rw [hfade] at h
                cases h
            | ok faded =>
                rw [hfade] at h
                cases h
                exact fade_sameHue hfade
          · rw [hasOpacity, hopacity] at hnone
            cases hnone
      · cases h
  · cases h
    exact ⟨color, rfl, ⟨rfl, rfl, rfl⟩, fun _ => rfl⟩

end EntryContext

namespace ItemContext

open EntryContext

variable {c : ItemContext} {key : String} {origin : Span}

theorem swatch?_of_base {parts : List (Yaml.Value × Yaml.Value)}
    (hnumber : ∀ n, heldLiteral? (.mapping parts) ≠ some (.number n)) {v : Value} {start : Color}
    (hbase : (c.entryContext .color).base parts key origin = .ok v)
    (hstart : v.color? = some start) : ∃ word, entryWord? (.mapping parts) = some word ∧
      ∀ site, c.swatch? (.mapping parts) key site = some (word, start) := by
  rw [base] at hbase
  cases himport : Yaml.get? Keyword.importKey parts with
  | some path =>
      simp only [himport] at hbase
      obtain ⟨bundle, hbundle, -, hvalue⟩ := importValue_eq_ok.mp hbase
      have hregistry : c.registry.get? path.render = some bundle := hbundle
      refine ⟨path.render, by simp only [entryWord?, himport], fun site => ?_⟩
      simp [swatch?, Yaml.Value.mapping?, Yaml.Value.untagged, himport, hregistry, hvalue, hstart]
  | none =>
      cases hliteral : written? parts Keyword.literal with
      | none =>
          simp only [himport, hliteral] at hbase
          cases hbase
      | some literal =>
          simp only [himport, hliteral] at hbase
          have hnot : ∀ n, literal ≠ .number n := by
            rintro n rfl
            exact hnumber n (by simp [heldLiteral?, himport, hliteral])
          obtain ⟨hex, color, rfl, hhex, rfl⟩ := cast_color rfl hnot hbase
          cases hstart
          have hget : Yaml.get? Keyword.literal parts = some (.string hex) :=
            (Option.filter_eq_some_iff.mp hliteral).1
          refine ⟨hex, by simp [entryWord?, himport, hliteral, Yaml.Value.render], fun site => ?_⟩
          simp [swatch?, Yaml.Value.mapping?, Yaml.Value.untagged, himport, hget, literalText_string,
            castColor, hhex]

/-- An entry that resolves to a color has a swatch of the same hue at any site, unless its literal is
a number, which is read from the text. -/
theorem swatch?_of_resolve {entry : Yaml.Value}
    (hnumber : ∀ n, heldLiteral? entry ≠ some (.number n)) {color : Color}
    (h : (c.entryContext .color).resolve entry key origin = .ok (.color color)) :
    ∃ word shown, entryWord? entry = some word ∧ shown.SameHue color ∧
      (hasOpacity entry = false → shown = color) ∧
      ∀ site, c.swatch? entry key site = some (word, shown) := by
  by_cases hmapping : ∃ parts, entry = .mapping parts
  · obtain ⟨parts, rfl⟩ := hmapping
    rw [resolve_mapping, bind_eq_ok] at h
    obtain ⟨v, hbase, hshade⟩ := h
    obtain ⟨start, hstart, hhue, hsame⟩ := shade_color hshade
    obtain ⟨word, hword, hswatch⟩ := swatch?_of_base hnumber hbase hstart
    exact ⟨word, start, hword, hhue, hsame, hswatch⟩
  · have hcast : (c.entryContext .color).cast entry (some origin) = .ok (.color color) := by
      cases entry with
      | mapping parts => exact absurd ⟨parts, rfl⟩ hmapping
      | _ => exact h
    have hnot : ∀ n, entry ≠ .number n := by
      rintro n rfl
      exact hnumber n rfl
    obtain ⟨hex, shown, rfl, hhex, hsame⟩ := cast_color rfl hnot hcast
    cases hsame
    refine ⟨hex, color, rfl, ⟨rfl, rfl, rfl⟩, fun _ => rfl, fun site => ?_⟩
    simp [swatch?, Yaml.Value.mapping?, Yaml.Value.untagged, literalText_string, castColor, hhex]

/-! ## The places of swatches -/

/-- The keys that have entries and where they are found, each behind the one before. -/
def located (c : ItemContext) :
    Cursor → List String → Except LocateError (List (String × Span))
  | _, [] => .ok []
  | cursor, key :: keys =>
      match c.item.entry? key with
      | none => c.located cursor keys
      | some _ => do
          let site ← cursor.key key
          let rest ← c.located (cursor.advanceTo site.stop) keys
          pure ((key, site) :: rest)

/-- The swatch of the entry under a key at a site, at the first occurrence of its text. -/
def swatchAt? (c : ItemContext) (key : String) (site : Span) : Option (Color × Span) := do
  let entry ← c.item.entry? key
  let (word, color) ← c.swatch? entry key site
  let span ← Locate.literal? c.setting.text site.stop word
  pure (color, span)

theorem swatches_eq_ok {cursor : Cursor} {keys : List String} {swatches : List (Color × Span)}
    (h : c.swatches cursor keys = .ok swatches) : ∃ sites, c.located cursor keys = .ok sites ∧
      swatches = sites.flatMap fun place => (c.swatchAt? place.1 place.2).toList := by
  induction keys generalizing cursor swatches with
  | nil =>
      cases h
      exact ⟨[], rfl, rfl⟩
  | cons key keys ih =>
      rw [ItemContext.swatches] at h
      cases hentry : c.item.entry? key with
      | none =>
          simp only [hentry] at h
          simp only [located, hentry]
          exact ih h
      | some entry =>
          simp only [hentry, bind_eq_ok, pure_eq_ok] at h
          obtain ⟨site, hsite, rest, hrest, rfl⟩ := h
          obtain ⟨sites, hsites, rfl⟩ := ih hrest
          refine ⟨(key, site) :: sites, ?_, ?_⟩
          · simp only [located, hentry, bind_eq_ok, pure_eq_ok]
            exact ⟨site, hsite, sites, hsites, rfl⟩
          · simp only [List.flatMap_cons, swatchAt?, hentry]
            rfl

theorem exists_site {cursor : Cursor} {keys : List String} {sites : List (String × Span)}
    (h : c.located cursor keys = .ok sites) (hkey : key ∈ keys)
    (hentry : (c.item.entry? key).isSome = true) : ∃ site, (key, site) ∈ sites := by
  induction keys generalizing cursor sites with
  | nil => cases hkey
  | cons other keys ih =>
      rw [located] at h
      cases hother : c.item.entry? other with
      | none =>
          simp only [hother] at h
          rcases List.mem_cons.mp hkey with rfl | hkey
          · rw [hother] at hentry
            cases hentry
          · exact ih h hkey
      | some entry =>
          simp only [hother, bind_eq_ok, pure_eq_ok] at h
          obtain ⟨site, hsite, rest, hrest, rfl⟩ := h
          rcases List.mem_cons.mp hkey with rfl | hkey
          · exact ⟨site, List.mem_cons_self⟩
          · obtain ⟨site, hmem⟩ := ih hrest hkey
            exact ⟨site, List.mem_cons_of_mem _ hmem⟩

/-- Swatches are shown for the own keys, but in the themed section not for reserved ones. -/
theorem mem_swatchKeys (hown : key ∈ c.ownKeys) {entry : Yaml.Value}
    (hentry : c.item.entry? key = some entry)
    (hshown : c.path.isShared = true ∨ isReserved key = false) : key ∈ c.swatchKeys := by
  cases hshared : c.path.isShared with
  | true => simpa [swatchKeys, ownKeys, hshared] using hown
  | false =>
      rw [hshared] at hshown
      have hreserved : isReserved key = false := hshown.resolve_left Bool.false_ne_true
      have hmem : (.string key, entry) ∈ c.item.entries :=
        Yaml.mem_of_get?_eq_some (Option.filter_eq_some_iff.mp hentry).1
      have htheme := mem_themeKeys (c := c) hmem rfl hreserved
      simpa [swatchKeys, hshared] using htheme

end ItemContext

/-! ## What is filed -/

def ItemReport.placesOf (r : ItemReport) (color : Color) : List Span :=
  (r.swatches.filter (·.1 = color)).map Prod.snd

theorem placesOf_foldl (swatches : List (Color × Span)) (d : Decorations) (color : Color) :
    (swatches.foldl (fun d (color, span) => d.addSingle color span) d).placesOf color =
      d.placesOf color ++ (swatches.filter (·.1 = color)).map Prod.snd := by
  induction swatches generalizing d with
  | nil => simp
  | cons swatch rest ih =>
      rw [List.foldl_cons, ih, Decorations.placesOf_addSingle, List.append_assoc, List.filter_cons]
      by_cases h : swatch.1 = color
      · simp [h]
      · simp [h]

theorem placesOf_decorate (d : Decorations) (r : ItemReport) (color : Color) :
    (Findings.decorate d r).placesOf color = d.placesOf color ++ r.placesOf color := by
  rw [ItemReport.placesOf, ← placesOf_foldl, Findings.decorate]
  cases r.hover <;> rfl

theorem ItemContext.exists_located {c : ItemContext} {inherited : List String} {r : ItemReport}
    (h : c.report inherited = .ok r) (htype : c.item.type = .ok .color)
    (hdecorate : c.setting.options.decorateColors = true) :
    ∃ sites, c.located c.body c.swatchKeys = .ok sites ∧
      ∀ {key site color span}, (key, site) ∈ sites →
        c.swatchAt? key site = some (color, span) → span ∈ r.placesOf color := by
  rcases (ItemContext.report_cases h).2 with ⟨marker, hr⟩ | ⟨type, bundle, hr⟩
  · cases htype.symm.trans hr.type_eq
  · cases htype.symm.trans hr.type_eq
    have hswatches := hr.swatches_eq
    rw [if_pos ⟨rfl, hdecorate⟩] at hswatches
    obtain ⟨sites, hsites, hall⟩ := ItemContext.swatches_eq_ok hswatches
    refine ⟨sites, hsites, fun {key site color span} hsite hat => ?_⟩
    have hmem : (color, span) ∈ r.swatches := by
      rw [hall]
      exact List.mem_flatMap.mpr ⟨(key, site), hsite, by simp [hat]⟩
    exact List.mem_map.mpr ⟨(color, span), List.mem_filter.mpr ⟨hmem, by simp⟩, rfl⟩

/-- The visits tell of the findings, and what they show is filed. -/
structure Filed (setting : Setting) (items : List (ItemPath × Item)) (visits : List ItemVisit)
    (f f' : Findings) : Prop extends Tells setting items visits f f' where
  places : ∀ color, f'.decorations.placesOf color =
    f.decorations.placesOf color ++ visits.flatMap (·.report.placesOf color)

namespace Filed

variable {setting : Setting} {items others : List (ItemPath × Item)}
  {first second : List ItemVisit} {f g h : Findings}

theorem nil (f : Findings) : Filed setting [] [] f f :=
  ⟨.nil f, fun color => by simp⟩

theorem addDiagnostics (f : Findings) (diagnostics : List Diagnostic) :
    Filed setting [] [] f (f.addDiagnostics diagnostics) :=
  ⟨.addDiagnostics f diagnostics, fun color => by simp [Findings.addDiagnostics]⟩

theorem item {content : Item} {path : ItemPath} {key : Span} {inherited : List String}
    {report : ItemReport}
    (h : ItemContext.report ⟨setting, f.registry, content, path, key⟩ inherited = .ok report) :
    Filed setting [(path, content)] [⟨⟨setting, f.registry, content, path, key⟩, inherited, report⟩]
      f (f.addItem path report) := by
  refine ⟨.item h, fun color => ?_⟩
  rw [List.flatMap_singleton]
  exact placesOf_decorate f.decorations report color

theorem append (hfirst : Filed setting items first f g) (hsecond : Filed setting others second g h) :
    Filed setting (items ++ others) (first ++ second) f h := by
  refine ⟨hfirst.toTells.append hsecond.toTells, fun color => ?_⟩
  rw [hsecond.places, hfirst.places, List.flatMap_append, List.append_assoc]

theorem mem_places (h : Filed setting items first f g) {v : ItemVisit} (hv : v ∈ first)
    (color : Color) : v.report.placesOf color ⊆ g.decorations.placesOf color := by
  intro span hspan
  rw [h.places]
  exact List.mem_append_right _ (List.mem_flatMap.mpr ⟨v, hv, hspan⟩)

end Filed

theorem Run.filed {setting : Setting} {visits : List Visit} {f f' : Findings}
    (hrun : Run setting visits f f') :
    ∃ log, Filed setting (visits.filterMap Visit.subject?) log f f' := by
  induction hrun with
  | nil => exact ⟨[], .nil _⟩
  | @platforms own inherited path cursor after diagnostics visits f f' _ _ _ ih =>
      obtain ⟨log, hlog⟩ := ih
      exact ⟨log, (Filed.addDiagnostics f diagnostics).append hlog⟩
  | item hreport _ ih =>
      obtain ⟨log, hlog⟩ := ih
      exact ⟨_, (Filed.item hreport).append hlog⟩

/-- The swatches of an item agree with its values: an own entry whose literal is no number has a
swatch of the hue of its value, which is filed where the text of the entry occurs behind its key. -/
def ItemVisit.Agrees (v : ItemVisit) (d : Decorations) : Prop :=
  ∀ bundle, v.report.bundle = some bundle → v.context.item.type = .ok .color →
    ∀ key ∈ v.context.ownKeys, ∀ entry, v.context.item.entry? key = some entry →
      (∀ n, EntryContext.heldLiteral? entry ≠ some (.number n)) →
      ∀ color, bundle.valueFor key = some (.color color) →
        ∃ word shown, entryWord? entry = some word ∧ shown.SameHue color ∧
          (hasOpacity entry = false → shown = color) ∧
          (∀ site, v.context.swatch? entry key site = some (word, shown)) ∧
          (v.context.path.isShared = true ∨ isReserved key = false →
            ∃ sites, v.context.located v.context.body v.context.swatchKeys = .ok sites ∧
              (∃ site, (key, site) ∈ sites) ∧
              ∀ site, (key, site) ∈ sites → word ≠ "" →
                ∀ rest, Text.Reads v.context.setting.text site.stop rest →
                  word.toList <:+: rest → ∃ span ∈ d.placesOf shown, site.stop ≤ span.start ∧
                    span.Marks v.context.setting.text word.toList)

/-- The step: the report on an item is enough. -/
theorem agrees_of_report {v : ItemVisit} (hordered : v.context.setting.themes.Ordered)
    (hdecorate : v.context.setting.options.decorateColors = true)
    (hreport : v.context.report v.inherited = .ok v.report) {d : Decorations}
    (hfiled : ∀ color, v.report.placesOf color ⊆ d.placesOf color) : v.Agrees d := by
  intro bundle hbundle htype key hown entry hentry hnumber color hcolor
  rcases (ItemContext.report_cases hreport).2 with ⟨marker, hr⟩ | ⟨type, found, hr⟩
  · cases htype.symm.trans hr.type_eq
  · cases htype.symm.trans hr.type_eq
    cases hbundle.symm.trans hr.bundle_eq
    obtain ⟨platforms, themes, values, -, hresolve, -⟩ := hr.diagnostics_eq
    obtain ⟨origin, -, hvalue⟩ := ItemContext.resolve_own hordered hresolve hown hentry
    obtain ⟨word, shown, hword, hhue, hsame, hswatch⟩ :=
      ItemContext.swatch?_of_resolve hnumber ((hvalue _).mp hcolor)
    refine ⟨word, shown, hword, hhue, hsame, hswatch, fun hshown => ?_⟩
    obtain ⟨sites, hsites, hshows⟩ := ItemContext.exists_located hreport htype hdecorate
    have hkey := ItemContext.mem_swatchKeys hown hentry hshown
    refine ⟨sites, hsites, ItemContext.exists_site hsites hkey (by rw [hentry]; rfl), ?_⟩
    intro site hsite hne rest hrest hoccurs
    obtain ⟨span, hspan, hle, hmarks⟩ := Locate.exists_literal? hrest hne hoccurs
    have hat : v.context.swatchAt? key site = some (shown, span) := by
      simp [ItemContext.swatchAt?, hentry, hswatch site, hspan]
    exact ⟨span, hfiled shown (hshows hsite hat), hle, hmarks⟩

theorem Run.agrees {options : Options} {text : List Char} {document : Document} {themes : Themes}
    {diagnostics : List Diagnostic} {visits : List Visit} {f : Findings}
    (hthemes : readThemes text document = .ok (themes, diagnostics))
    (hdecorate : options.decorateColors = true)
    (hrun : Run (settingOf options text document themes) visits
      (Findings.empty.addDiagnostics diagnostics) f) :
    ∃ log, Tells (settingOf options text document themes) (visits.filterMap Visit.subject?) log
      .empty f ∧ ∀ v ∈ log, v.Agrees f.decorations := by
  obtain ⟨log, hlog⟩ := hrun.filed
  refine ⟨log, (Tells.addDiagnostics .empty diagnostics).append hlog.toTells, fun v hv => ?_⟩
  have hsetting := hlog.setting_eq v hv
  refine agrees_of_report ?_ ?_ (hlog.report_eq v hv) (hlog.mem_places hv)
  · rw [hsetting]
    exact readThemes_ordered hthemes
  · rw [hsetting]
    exact hdecorate

/-! ## The theorem -/

/-- In every state of a pass that collects swatches, those of the items visited so far agree with
the values that the items resolved to; if the pass succeeds, these are all its items. -/
theorem swatches_agree_with_values {options : Options} (hdecorate : options.decorateColors = true)
    (text : List Char) (document : Document) :
    (∀ f ∈ (tracedPass options text document).states, ∃ themes diagnostics items visits,
      readThemes text document = .ok (themes, diagnostics) ∧ items <+: walkOrder themes document ∧
      Tells (settingOf options text document themes) items visits .empty f ∧
      ∀ v ∈ visits, v.Agrees f.decorations) ∧
    ∀ a, ofDocument options text document = .ok a → ∃ visits,
      Tells (settingOf options text document a.themes) (walkOrder a.themes document) visits .empty
        ⟨a.registry, a.diagnostics, a.decorations, a.hovers⟩ ∧
      ∀ v ∈ visits, v.Agrees a.decorations := by
  constructor
  · intro f hf
    obtain ⟨themes, diagnostics, hthemes, visits, hvisits, hrun⟩ := reaches_of_mem_tracedPass hf
    obtain ⟨log, htells, hagrees⟩ := hrun.agrees hthemes hdecorate
    refine ⟨themes, diagnostics, _, log, hthemes, ?_, htells, hagrees⟩
    rw [← documentVisits_subjects]
    exact hvisits.filterMap Visit.subject?
  · intro a ha
    obtain ⟨diagnostics, hthemes, -, hrun⟩ := ofDocument_run ha
    obtain ⟨log, htells, hagrees⟩ := Run.agrees hthemes hdecorate hrun
    rw [documentVisits_subjects] at htells
    exact ⟨log, htells, hagrees⟩

def paletteText : List Char :=
  (".themes: [light]\n.themed:\n  a:\n    .type: color\n    light: ff102030\n"
    ++ "  b:\n    .type: color\n    light: \x7bimport: a\x7d\n").toList

/-- Both show the same color, the second one at the path. -/
theorem paletteText_agrees : ∃ document a, ∃ visits : List ItemVisit,
    Document.ofText paletteText = .ok document ∧
    ofText .default paletteText = .ok a ∧
    visits.map ItemVisit.subject = walkOrder a.themes document ∧
    (walkOrder a.themes document).map (·.1.text) = ["a", "b"] ∧
    a.decorations.placesOf ⟨255, 16, 32, 48⟩ = [⟨59, 67⟩, ⟨110, 111⟩] ∧
    ∀ v ∈ visits, v.Agrees a.decorations := by
  have hpasses : passes .default paletteText (fun document a =>
      decide ((walkOrder a.themes document).map (·.1.text) = ["a", "b"] ∧
        a.decorations.placesOf ⟨255, 16, 32, 48⟩ = [⟨59, 67⟩, ⟨110, 111⟩])) = true := by
    decide +kernel
  obtain ⟨document, a, hread, ha, htest⟩ := passes_iff.mp hpasses
  obtain ⟨hitems, hplaces⟩ := of_decide_eq_true htest
  obtain ⟨read, hsame, hdocument⟩ := ofText_eq_ok.mp ha
  cases hread.symm.trans hsame
  have hdecorate : Options.default.decorateColors = true := rfl
  obtain ⟨visits, htells, hagrees⟩ :=
    (swatches_agree_with_values hdecorate paletteText document).2 a hdocument
  exact ⟨document, a, visits, hread, ha, htells.subjects, hitems, hplaces, hagrees⟩

/-- A theme that has the name of the key of shared values. -/
def dottedThemeText : List Char :=
  (".themes: [light, .value]\n.themed:\n  a:\n    .type: color\n    light: ff102030\n"
    ++ "    .value: ff405060\n").toList

/-- An item with the empty path, which another one imports. -/
def emptyPathText : List Char :=
  (".themes: [light]\n.themed:\n  '':\n    .type: color\n    light: ff102030\n"
    ++ "  b:\n    .type: color\n    light: \x7bimport: ''\x7d\n").toList

/-- Two entries that resolve to colors and have no swatch: the one under a reserved key of a themed
item, and the one that imports the empty path. -/
theorem swatches_left_out :
    (∃ a, ofText .default dottedThemeText = .ok a ∧ a.diagnostics = [] ∧
      a.shownAt "a" ".value" = some "ff405060" ∧
      a.decorations.placesOf ⟨255, 64, 80, 96⟩ = []) ∧
    ∃ a, ofText .default emptyPathText = .ok a ∧ a.diagnostics = [] ∧
      a.shownAt "b" "light" = some "ff102030" ∧
      a.decorations.placesOf ⟨255, 16, 32, 48⟩ = [⟨60, 68⟩] := by
  have hdotted : passes .default dottedThemeText (fun _ a =>
      decide (a.diagnostics = [] ∧ a.shownAt "a" ".value" = some "ff405060" ∧
        a.decorations.placesOf ⟨255, 64, 80, 96⟩ = [])) = true := by
    decide +kernel
  have hempty : passes .default emptyPathText (fun _ a =>
      decide (a.diagnostics = [] ∧ a.shownAt "b" "light" = some "ff102030" ∧
        a.decorations.placesOf ⟨255, 16, 32, 48⟩ = [⟨60, 68⟩])) = true := by
    decide +kernel
  obtain ⟨-, first, -, hfirst, hdotted⟩ := passes_iff.mp hdotted
  obtain ⟨-, second, -, hsecond, hempty⟩ := passes_iff.mp hempty
  exact ⟨⟨first, hfirst, of_decide_eq_true hdotted⟩, second, hsecond, of_decide_eq_true hempty⟩

end Analysis
end DesignTokens
