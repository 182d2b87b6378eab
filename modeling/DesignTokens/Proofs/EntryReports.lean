import DesignTokens.Proofs.ThemeEntries

/-!
Which faults of an entry are reported.

Resolution takes an entry through up to three functions, any of which can fail: the value that the
entry starts from, the opacity, and an import for either.  `EntryContext.Fails` lists the faults with
the condition of each, so that what is said about reports is a look at this list.  A fault has at most
one report, at the key where the entry is written, and none if it is the fault of another item, if
nothing is written, or if literals are not to be checked (`EntryContext.Silent`).
-/

namespace DesignTokens
namespace Analysis
namespace EntryContext

variable {c : EntryContext} {entry : Yaml.Value} {key : String} {origin : Span} {fault : EntryFault}

/-! ## The faults of an entry -/

def heldLiteral? : Yaml.Value → Option Yaml.Value
  | .mapping parts =>
      match Yaml.get? Keyword.importKey parts with
      | some _ => none
      | none => written? parts Keyword.literal
  | literal => some literal

def literalKey? (c : EntryContext) (entry : Yaml.Value) (origin : Span) : Option Span :=
  match entry with
  | .mapping _ => Locate.literal? c.text origin.stop Keyword.literal
  | _ => some origin

/-- The literal as the type of the item asks for it, at the place where it is written. -/
def castHeld? (c : EntryContext) (entry literal : Yaml.Value) (origin : Span) : Option Value :=
  castLiteral literal (literalText c.text literal (c.literalKey? entry origin)) c.type

def opacityPath? (opacity : Yaml.Value) : Option Yaml.Value :=
  opacity.mapping?.bind (Yaml.get? Keyword.importKey)

/-- A color that the entry starts from is to be given the opacity. -/
def Dims (c : EntryContext) (entry : Yaml.Value) (key : String) (origin : Span)
    (opacity : Yaml.Value) : Prop :=
  ∃ parts v, entry = .mapping parts ∧ c.type = .color ∧ c.base parts key origin = .ok v ∧
    written? parts Keyword.opacity = some opacity

/-- The item above with the path has the type, but no value for the key. -/
def Unanswered (c : EntryContext) (path : Yaml.Value) (expected : ItemType) (key : String) : Prop :=
  ∃ bundle, c.registry.get? path.render = some bundle ∧ bundle.type = expected ∧
    bundle.valueFor key = none

inductive ImportFails (c : EntryContext) (path : Yaml.Value) (expected : ItemType) (key : String) :
    EntryFault → Prop
  | missing : c.registry.get? path.render = none →
      ImportFails c path expected key (.missingImport path.render)
  | type {bundle : Bundle} : c.registry.get? path.render = some bundle → bundle.type ≠ expected →
      ImportFails c path expected key (.importType path.render expected bundle.type)
  | unanswered : c.Unanswered path expected key →
      ImportFails c path expected key .unresolvedImport

inductive FadeFails (c : EntryContext) (opacity : Yaml.Value) (key : String) : EntryFault → Prop
  | range {n : Yaml.Number} : opacity.number? = some n → Color.isOpacity n.toFloat = false →
      FadeFails c opacity key (.opacityRange n.toFloat)
  | literal : opacity.number? = none → opacityPath? opacity = none →
      FadeFails c opacity key (.invalidLiteral opacity.render .double)
  | imported {path : Yaml.Value} {fault : EntryFault} : opacityPath? opacity = some path →
      c.ImportFails path .double key fault → FadeFails c opacity key fault
  | importedRange {path : Yaml.Value} {x : Float} : opacityPath? opacity = some path →
      c.importValue path.render .double key = .ok (.double x) → Color.isOpacity x = false →
      FadeFails c opacity key
        (.importedOpacityRange path.render (if c.isShared then none else some key) x)

inductive BaseFails (c : EntryContext) (entry : Yaml.Value) (key : String) (origin : Span) :
    EntryFault → Prop
  | nothing : hasBase entry = false → BaseFails c entry key origin .nothingWritten
  | literal {literal : Yaml.Value} : heldLiteral? entry = some literal →
      c.castHeld? entry literal origin = none →
      BaseFails c entry key origin
        (.invalidLiteral (literalText c.text literal (c.literalKey? entry origin)) c.type)
  | imported {parts : List (Yaml.Value × Yaml.Value)} {path : Yaml.Value} {fault : EntryFault} :
      entry = .mapping parts → Yaml.get? Keyword.importKey parts = some path →
      c.ImportFails path c.type key fault → BaseFails c entry key origin fault

/-- The faults of an entry, each with the condition under which it is the one that is found. -/
inductive Fails (c : EntryContext) (entry : Yaml.Value) (key : String) (origin : Span) :
    EntryFault → Prop
  | base {fault : EntryFault} : c.BaseFails entry key origin fault → Fails c entry key origin fault
  | opacity {opacity : Yaml.Value} {fault : EntryFault} : c.Dims entry key origin opacity →
      c.FadeFails opacity key fault → Fails c entry key origin fault

theorem importValue_eq_error {path : Yaml.Value} {expected : ItemType} :
    c.importValue path.render expected key = .error fault ↔
      c.ImportFails path expected key fault := by
  rw [importValue]
  constructor
  · intro h
    cases hbundle : c.registry.get? path.render with
    | none =>
        rw [hbundle] at h
        cases h
        exact .missing hbundle
    | some bundle =>
        simp only [hbundle] at h
        by_cases htype : bundle.type = expected
        · rw [if_pos htype] at h
          cases hvalue : bundle.valueFor key with
          | some v =>
              rw [hvalue] at h
              cases h
          | none =>
              rw [hvalue] at h
              cases h
              exact .unanswered ⟨bundle, hbundle, htype, hvalue⟩
        · rw [if_neg htype] at h
          cases h
          exact .type hbundle htype
  · intro h
    cases h with
    | missing hbundle => rw [hbundle]
    | type hbundle htype => simp only [hbundle, if_neg htype]
    | unanswered h =>
        obtain ⟨bundle, hbundle, htype, hvalue⟩ := h
        simp only [hbundle, if_pos htype, hvalue]

theorem cast_eq_error {literal : Yaml.Value} {place : Option Span} :
    c.cast literal place = .error fault ↔
      castLiteral literal (literalText c.text literal place) c.type = none ∧
        fault = .invalidLiteral (literalText c.text literal place) c.type := by
  simp only [cast]
  cases castLiteral literal (literalText c.text literal place) c.type with
  | some v => simp
  | none => simp [eq_comm]

/-- An import that succeeds gives a double, so that the fault of a value of another type is none. -/
theorem fade_eq_error (hregistry : c.registry.Typed) {color : Color} {opacity : Yaml.Value} :
    c.fade color opacity key = .error fault ↔ c.FadeFails opacity key fault := by
  rw [fade, ← opacityPath?]
  constructor
  · intro h
    cases hnumber : opacity.number? with
    | some n =>
        simp only [hnumber, Color.withOpacity] at h
        by_cases hn : Color.isOpacity n.toFloat = true
        · simp [hn] at h
        · simp only [hn, Bool.false_eq_true, if_false] at h
          cases h
          exact .range hnumber (Bool.eq_false_iff.mpr hn)
    | none =>
        cases hpath : opacityPath? opacity with
        | none =>
            simp only [hnumber, hpath] at h
            cases h
            exact .literal hnumber hpath
        | some path =>
            simp only [hnumber, hpath] at h
            cases himport : c.importValue path.render .double key with
            | error other =>
                rw [himport] at h
                cases h
                exact .imported hpath (importValue_eq_error.mp himport)
            | ok v =>
                obtain ⟨x, hx⟩ := double?_of_type (importValue_type hregistry himport)
                have hv : v = .double x := by
                  cases v <;> simp_all [Value.double?]
                subst hv
                simp only [himport, bind, Except.bind, Value.double?, Color.withOpacity] at h
                by_cases hrange : Color.isOpacity x = true
                · simp [hrange] at h
                · simp only [hrange, Bool.false_eq_true, if_false] at h
                  cases h
                  exact .importedRange hpath himport (Bool.eq_false_iff.mpr hrange)
  · intro h
    have hnone : ∀ {path}, opacityPath? opacity = some path → opacity.number? = none := by
      intro path hpath
      obtain ⟨entries, hentries, -⟩ := Option.bind_eq_some_iff.mp hpath
      exact number?_of_mapping? hentries
    cases h with
    | range hnumber hn => simp [hnumber, Color.withOpacity, hn]
    | literal hnumber hpath => simp [hnumber, hpath]
    | imported hpath himport =>
        simp [hnone hpath, hpath, importValue_eq_error.mpr himport, bind, Except.bind]
    | importedRange hpath himport hrange =>
        simp [hnone hpath, hpath, himport, bind, Except.bind, Value.double?,
          Color.withOpacity, hrange]

theorem base_eq_error {parts : List (Yaml.Value × Yaml.Value)} :
    c.base parts key origin = .error fault ↔ c.BaseFails (.mapping parts) key origin fault := by
  rw [base]
  constructor
  · intro h
    cases himport : Yaml.get? Keyword.importKey parts with
    | some path =>
        simp only [himport] at h
        exact .imported rfl himport (importValue_eq_error.mp h)
    | none =>
        cases hliteral : written? parts Keyword.literal with
        | some literal =>
            simp only [himport, hliteral] at h
            obtain ⟨hcast, rfl⟩ := cast_eq_error.mp h
            exact .literal (by simp [heldLiteral?, himport, hliteral]) hcast
        | none =>
            simp only [himport, hliteral] at h
            cases h
            exact .nothing (by simp [hasBase, himport, hliteral])
  · intro h
    cases h with
    | nothing hnothing =>
        simp only [hasBase, Bool.or_eq_false_iff, Option.isSome_eq_false_iff,
          Option.isNone_iff_eq_none] at hnothing
        simp only [hnothing.1, hnothing.2]
    | literal hliteral hcast =>
        simp only [heldLiteral?] at hliteral
        split at hliteral
        · cases hliteral
        · next himport =>
            simp only [himport, hliteral]
            exact cast_eq_error.mpr ⟨hcast, rfl⟩
    | imported hparts himport hfails =>
        cases hparts
        simp only [himport]
        exact importValue_eq_error.mpr hfails

/-- An entry that is no mapping is a literal. -/
theorem cast_eq_error_iff_baseFails (h : ∀ parts, entry ≠ .mapping parts) :
    c.cast entry (some origin) = .error fault ↔ c.BaseFails entry key origin fault := by
  have hkey : c.literalKey? entry origin = some origin := by
    cases entry with
    | mapping parts => exact absurd rfl (h parts)
    | _ => rfl
  have hheld : heldLiteral? entry = some entry := by
    cases entry with
    | mapping parts => exact absurd rfl (h parts)
    | _ => rfl
  rw [cast_eq_error, ← hkey]
  constructor
  · rintro ⟨hcast, rfl⟩
    exact .literal hheld hcast
  · intro hfails
    cases hfails with
    | nothing hnothing =>
        cases entry with
        | mapping parts => exact absurd rfl (h parts)
        | _ => cases hnothing
    | literal hsame hcast =>
        cases hheld.symm.trans hsame
        exact ⟨hcast, rfl⟩
    | imported hparts => exact absurd hparts (h _)

theorem shade_eq_error (hregistry : c.registry.Typed) {parts : List (Yaml.Value × Yaml.Value)}
    {v : Value} (hbase : c.base parts key origin = .ok v) :
    c.shade parts key v = .error fault ↔
      ∃ opacity, c.Dims (.mapping parts) key origin opacity ∧ c.FadeFails opacity key fault := by
  rw [shade]
  split
  · next opacity htype hopacity =>
      obtain ⟨color, hcolor⟩ := color?_of_type ((base_type hregistry hbase).trans htype)
      have hmap : (c.fade color opacity key).map Value.color = .error fault ↔
          c.fade color opacity key = .error fault := by
        cases c.fade color opacity key <;> simp [Except.map]
      simp only [hcolor, hmap, fade_eq_error hregistry]
      constructor
      · intro hfails
        exact ⟨opacity, ⟨parts, v, rfl, htype, hbase, hopacity⟩, hfails⟩
      · rintro ⟨other, ⟨parts', v', hparts, -, -, hother⟩, hfails⟩
        cases hparts
        cases hopacity.symm.trans hother
        exact hfails
  · next hnot =>
      constructor
      · intro h
        cases h
      · rintro ⟨opacity, ⟨parts', v', hparts, htype, -, hopacity⟩, -⟩
        cases hparts
        exact absurd hopacity (hnot opacity htype)

theorem resolve_eq_error (hregistry : c.registry.Typed) :
    c.resolve entry key origin = .error fault ↔ c.Fails entry key origin fault := by
  by_cases hmapping : ∃ parts, entry = .mapping parts
  · obtain ⟨parts, rfl⟩ := hmapping
    rw [resolve_mapping]
    cases hbase : c.base parts key origin with
    | error other =>
        -- Without a value to start from, the opacity is not looked at.
        have hfault : ((Except.error other : Except EntryFault Value) >>= c.shade parts key) =
            .error fault ↔ c.base parts key origin = .error fault := by
          rw [hbase]
          rfl
        rw [hfault, base_eq_error]
        refine ⟨.base, fun hfails => ?_⟩
        cases hfails with
        | base hfails => exact hfails
        | opacity hdims =>
            obtain ⟨parts', v, hparts, -, hv, -⟩ := hdims
            cases hparts
            rw [hbase] at hv
            cases hv
    | ok v =>
        have hok : ((Except.ok v : Except EntryFault Value) >>= c.shade parts key) =
            c.shade parts key v := rfl
        rw [hok, shade_eq_error hregistry hbase]
        constructor
        · rintro ⟨opacity, hdims, hfails⟩
          exact .opacity hdims hfails
        · intro hfails
          cases hfails with
          | base hfails =>
              rw [base_eq_error.mpr hfails] at hbase
              cases hbase
          | opacity hdims hfails => exact ⟨_, hdims, hfails⟩
  · have hnot : ∀ parts, entry ≠ .mapping parts := fun parts h => hmapping ⟨parts, h⟩
    have hcast : c.resolve entry key origin = c.cast entry (some origin) := by
      cases entry with
      | mapping parts => exact absurd rfl (hnot parts)
      | _ => rfl
    rw [hcast, cast_eq_error_iff_baseFails hnot]
    refine ⟨.base, fun hfails => ?_⟩
    cases hfails with
    | base hfails => exact hfails
    | opacity hdims =>
        obtain ⟨parts, v, hparts, -⟩ := hdims
        exact absurd hparts (hnot parts)

/-! ## The faults that are not reported -/

/-- Why an entry has no value although nothing is reported. -/
inductive Silent (c : EntryContext) (options : Options) (entry : Yaml.Value) (key : String)
    (origin : Span) : Prop
  | nothing : hasBase entry = false → Silent c options entry key origin
  | imported {parts : List (Yaml.Value × Yaml.Value)} {path : Yaml.Value} :
      entry = .mapping parts → Yaml.get? Keyword.importKey parts = some path →
      c.Unanswered path c.type key → Silent c options entry key origin
  | literal {literal : Yaml.Value} : options.validateLiterals = false →
      heldLiteral? entry = some literal → c.castHeld? entry literal origin = none →
      Silent c options entry key origin
  | opacityImported {opacity path : Yaml.Value} : c.Dims entry key origin opacity →
      opacityPath? opacity = some path → c.Unanswered path .double key →
      Silent c options entry key origin
  | opacityLiteral {opacity : Yaml.Value} : options.validateLiterals = false →
      c.Dims entry key origin opacity → opacity.number? = none → opacityPath? opacity = none →
      Silent c options entry key origin

/-- The fault is one of those without a report, or a literal that is not to be checked. -/
def IsPassedOver (options : Options) : EntryFault → Prop
  | .nothingWritten => True
  | .unresolvedImport => True
  | .invalidLiteral _ _ => options.validateLiterals = false
  | _ => False

theorem ImportFails.unanswered_of_isPassedOver {options : Options} {path : Yaml.Value}
    {expected : ItemType} (h : c.ImportFails path expected key fault)
    (hfault : IsPassedOver options fault) : c.Unanswered path expected key := by
  cases h with
  | missing => cases hfault
  | type => cases hfault
  | unanswered h => exact h

theorem silent_iff (hregistry : c.registry.Typed) {options : Options} :
    c.Silent options entry key origin ↔
      ∃ fault, c.resolve entry key origin = .error fault ∧ IsPassedOver options fault := by
  simp only [resolve_eq_error hregistry]
  constructor
  · intro h
    cases h with
    | nothing hnothing => exact ⟨_, .base (.nothing hnothing), trivial⟩
    | imported hentry himport h =>
        exact ⟨_, .base (.imported hentry himport (.unanswered h)), trivial⟩
    | literal hvalidate hliteral hcast =>
        exact ⟨_, .base (.literal hliteral hcast), hvalidate⟩
    | opacityImported hdims hpath h =>
        exact ⟨_, .opacity hdims (.imported hpath (.unanswered h)), trivial⟩
    | opacityLiteral hvalidate hdims hnumber hpath =>
        exact ⟨_, .opacity hdims (.literal hnumber hpath), hvalidate⟩
  · rintro ⟨fault, hfails, hfault⟩
    cases hfails with
    | base hfails =>
        cases hfails with
        | nothing hnothing => exact .nothing hnothing
        | literal hliteral hcast => exact .literal hfault hliteral hcast
        | imported hentry himport hfails =>
            exact .imported hentry himport (hfails.unanswered_of_isPassedOver hfault)
    | opacity hdims hfails =>
        cases hfails with
        | range => cases hfault
        | literal hnumber hpath => exact .opacityLiteral hfault hdims hnumber hpath
        | imported hpath hfails =>
            exact .opacityImported hdims hpath (hfails.unanswered_of_isPassedOver hfault)
        | importedRange => cases hfault

end EntryContext

def entryCodes : List Code :=
  [.missingImport, .importType, .opacityRange, .invalidLiteral]

theorem EntryFault.report?_cases (fault : EntryFault) (setting : Setting) (site : Span) :
    EntryContext.IsPassedOver setting.options fault ∧ fault.report? setting site = none ∨
      ¬EntryContext.IsPassedOver setting.options fault ∧
        ∃ d, ∃ code ∈ entryCodes, fault.report? setting site = some d ∧ d.code = some code := by
  cases fault with
  | invalidLiteral written expected =>
      cases hvalidate : setting.options.validateLiterals with
      | false => exact .inl ⟨hvalidate, by simp [report?, isWanted, hvalidate]⟩
      | true =>
          have hnot : ¬EntryContext.IsPassedOver setting.options (.invalidLiteral written expected) := by
            simp [EntryContext.IsPassedOver, hvalidate]
          rw [report?, isWanted, if_pos hvalidate]
          exact .inr ⟨hnot, _, .invalidLiteral, by simp [entryCodes], rfl, rfl⟩
  | missingImport path => exact .inr ⟨id, _, .missingImport, by simp [entryCodes], rfl, rfl⟩
  | importType path expected actual =>
      exact .inr ⟨id, _, .importType, by simp [entryCodes], rfl, rfl⟩
  | opacityRange opacity => exact .inr ⟨id, _, .opacityRange, by simp [entryCodes], rfl, rfl⟩
  | importedOpacityRange path theme opacity =>
      exact .inr ⟨id, _, .opacityRange, by simp [entryCodes], rfl, rfl⟩
  | nothingWritten => exact .inl ⟨trivial, rfl⟩
  | unresolvedImport => exact .inl ⟨trivial, rfl⟩

namespace ItemContext

variable {c : ItemContext}

/-! ## The reports of an item -/

/-- What is reported about the entry that the item has of its own for the key. -/
def ownReports (c : ItemContext) (type : ItemType) (key : String) : List Diagnostic :=
  match c.item.entry? key, c.body.key key with
  | some entry, .ok origin =>
      (c.settle (some origin) ((c.entryContext type).resolve entry key origin)).2
  | _, _ => []

theorem settle_delegated (result : Except EntryFault Value) : (c.settle none result).2 = [] := by
  cases result <;> rfl

/-- The run over the themes: a theme that takes over an entry adds nothing. -/
theorem resolveThemes_reports {type : ItemType} {themes : List String}
    {values : List (String × Value)} {diagnostics : List Diagnostic}
    (h : c.resolveThemes type themes = .ok (values, diagnostics)) :
    diagnostics = themes.flatMap (c.ownReports type) := by
  induction themes generalizing values diagnostics with
  | nil =>
      cases h
      rfl
  | cons theme themes ih =>
      simp only [resolveThemes] at h
      rw [List.flatMap_cons]
      cases hown : c.item.entry? theme with
      | some entry =>
          simp only [rawEntry?_own hown, if_true, bind_eq_ok, pure_eq_ok] at h
          obtain ⟨origin, horigin, ⟨others, rest⟩, hrest, h⟩ := h
          cases h
          rw [← ih hrest]
          simp only [ownReports, hown, horigin]
      | none =>
          have hnone : c.ownReports type theme = [] := by
            simp only [ownReports, hown]
          rw [hnone, List.nil_append]
          split at h
          · exact ih h
          · next entry under hraw =>
              -- The entry is another theme's, so there is no site to report it at.
              have hunder : under ≠ theme := by
                rintro rfl
                obtain ⟨name, -, hname⟩ := List.exists_of_findSome?_eq_some hraw
                obtain ⟨found, hfound, heq⟩ := Option.map_eq_some_iff.mp hname
                cases heq
                rw [hown] at hfound
                cases hfound
              simp only [if_neg hunder, settle_delegated, bind_eq_ok, pure_eq_ok] at h
              obtain ⟨origin, -, ⟨others, rest⟩, hrest, h⟩ := h
              cases h
              exact ih hrest

/-- What is reported about the values of an item: that a shared one has none, and the fault of each
entry once, at the key it is written under. -/
theorem resolve_reports {type : ItemType} {bundle : Bundle} {diagnostics : List Diagnostic}
    (h : c.resolve type = .ok (bundle, diagnostics)) :
    diagnostics = (if c.path.isShared ∧ c.item.entry? Keyword.value = none then [c.missingValue]
      else []) ++ c.ownKeys.flatMap (c.ownReports type) := by
  cases hshared : c.path.isShared with
  | true =>
      simp only [resolve, hshared, if_true, resolveShared] at h
      cases hentry : c.item.entry? Keyword.value with
      | none =>
          simp only [hentry] at h
          cases h
          simp [ownKeys, hshared, ownReports, hentry]
      | some entry =>
          simp only [hentry, bind_eq_ok, pure_eq_ok] at h
          obtain ⟨origin, horigin, h⟩ := h
          cases h
          simp [ownKeys, hshared, ownReports, hentry, horigin]
  | false =>
      simp only [resolve, hshared, Bool.false_eq_true, if_false, bind_eq_ok, pure_eq_ok] at h
      obtain ⟨⟨values, reports⟩, hvalues, h⟩ := h
      cases h
      simpa [ownKeys, hshared] using resolveThemes_reports hvalues

theorem ownReports_subset {inherited : List String} {r : ItemReport}
    (h : c.report inherited = .ok r) {type : ItemType} (htype : c.item.type = .ok type)
    {key : String} (hown : key ∈ c.ownKeys) : c.ownReports type key ⊆ r.diagnostics := by
  intro d hd
  rcases (report_cases h).2 with ⟨marker, hr⟩ | ⟨other, bundle, hr⟩
  · cases htype.symm.trans hr.type_eq
  · cases htype.symm.trans hr.type_eq
    obtain ⟨platforms, themes, values, -, hresolve, hall⟩ := hr.diagnostics_eq
    rw [hall, resolve_reports hresolve]
    have hvalues := List.mem_flatMap.mpr ⟨key, hown, hd⟩
    exact List.mem_append_right _ (List.mem_append_right _ hvalues)

/-! ## The theorem -/

/-- An entry adds at most one report to the findings, and nothing else.  It adds none if it is taken
over from another theme or has a value; if it has no value, it adds one unless it is silent. -/
theorem entry_reported_at_most_once (hregistry : c.registry.Typed) (type : ItemType)
    (entry : Yaml.Value) (key : String) (origin : Span) (site : Option Span) (f : Findings) :
    ∃ value reports f', f' = f.addDiagnostics reports ∧
      c.settle site ((c.entryContext type).resolve entry key origin) = (value, reports) ∧
      f'.registry = f.registry ∧ f'.decorations = f.decorations ∧ f'.hovers = f.hovers ∧
      f'.diagnostics = f.diagnostics ++ reports ∧
      (site = none → reports = []) ∧ (value.isSome = true → reports = []) ∧
      ((c.entryContext type).Silent c.setting.options entry key origin → value = none) ∧
      (site.isSome = true → value = none →
        ((c.entryContext type).Silent c.setting.options entry key origin → reports = []) ∧
        (¬(c.entryContext type).Silent c.setting.options entry key origin →
          ∃ d, ∃ code ∈ entryCodes, reports = [d] ∧ d.code = some code)) := by
  have hsilent : (c.entryContext type).Silent c.setting.options entry key origin ↔
      ∃ fault, (c.entryContext type).resolve entry key origin = .error fault ∧
        EntryContext.IsPassedOver c.setting.options fault :=
    EntryContext.silent_iff hregistry
  cases hresolve : (c.entryContext type).resolve entry key origin with
  | ok v =>
      have hloud : ¬(c.entryContext type).Silent c.setting.options entry key origin := by
        rw [hsilent]
        rintro ⟨fault, hfault, -⟩
        rw [hresolve] at hfault
        cases hfault
      exact ⟨some v, [], _, rfl, rfl, rfl, rfl, rfl, rfl, fun _ => rfl, fun _ => rfl,
        fun h => absurd h hloud, fun _ hnone => nomatch hnone⟩
  | error fault =>
      have hpassed : (c.entryContext type).Silent c.setting.options entry key origin ↔
          EntryContext.IsPassedOver c.setting.options fault := by
        rw [hsilent]
        simp [hresolve]
      refine ⟨none, (site.bind (fault.report? c.setting)).toList, _, rfl, rfl, rfl, rfl, rfl, rfl,
        ?_, (fun hsome => nomatch hsome), fun _ => rfl, fun hsite _ => ?_⟩
      · rintro rfl
        rfl
      · obtain ⟨place, rfl⟩ := Option.isSome_iff_exists.mp hsite
        rw [hpassed, Option.bind_some]
        rcases fault.report?_cases c.setting place with
          ⟨hover, hnone⟩ | ⟨hnot, d, code, hcode, hreport, hd⟩
        · rw [hnone]
          exact ⟨fun _ => rfl, fun hnot => absurd hover hnot⟩
        · rw [hreport]
          exact ⟨fun hover => absurd hover hnot, fun _ => ⟨d, code, hcode, rfl, hd⟩⟩

def dimContext : ItemContext :=
  ⟨⟨[], .default, .empty, []⟩, Registry.register .empty (.child .themed "dim") (.shared .double none),
    ⟨[]⟩, .child .themed "veil", ⟨0, 0⟩⟩

def veilEntry (path : String) : Yaml.Value :=
  .mapping [(.string Keyword.importKey, .string path),
    (.string Keyword.opacity, .mapping [(.string Keyword.importKey, .string "dim")])]

/-- The color does not exist, so the opacity is not looked at, and the entry is reported. -/
theorem veilEntry_reported : dimContext.registry.Typed ∧ ∃ d, ∃ code ∈ entryCodes,
    dimContext.settle (some ⟨0, 0⟩) ((dimContext.entryContext .color).resolve (veilEntry "nope")
      "light" ⟨0, 0⟩) = (none, [d]) ∧ d.code = some code := by
  have htyped : dimContext.registry.Typed :=
    Registry.empty_typed.register _ ⟨fun h => nomatch h⟩
  refine ⟨htyped, ?_⟩
  obtain ⟨value, reports, f', -, hsettle, -, -, -, -, -, -, -, hreported⟩ :=
    entry_reported_at_most_once htyped .color (veilEntry "nope") "light" ⟨0, 0⟩ (some ⟨0, 0⟩) .empty
  have hvalue : value = none := (congrArg Prod.fst hsettle).symm
  have hloud : ¬(dimContext.entryContext .color).Silent dimContext.setting.options
      (veilEntry "nope") "light" ⟨0, 0⟩ := by
    rw [EntryContext.silent_iff htyped]
    rintro ⟨fault, hfault, hpassed⟩
    cases hfault
    exact hpassed
  obtain ⟨d, code, hcode, rfl, hd⟩ := (hreported rfl hvalue).2 hloud
  exact ⟨d, code, hcode, hvalue ▸ hsettle, hd⟩

end ItemContext

/-- A color that does not exist, with an opacity that is neither a number nor an import. -/
def unreadOpacityText : List Char :=
  (".themes: [light]\n.themed:\n  a:\n    .type: color\n"
    ++ "    light: \x7bimport: nope, withOpacity: x\x7d\n").toList

def unreadOpacityItem : Item :=
  ⟨[(.string Keyword.type, .string "color"), (.string "light",
    .mapping [(.string Keyword.importKey, .string "nope"), (.string Keyword.opacity, .string "x")])]⟩

/-- Literals are not to be checked and the opacity is none, but the entry has a report: the color
that it starts from comes first. -/
theorem unreadOpacityText_reported : ∃ document a,
    Document.ofText unreadOpacityText = .ok document ∧
    ofText ⟨false, true⟩ unreadOpacityText = .ok a ∧
    sectionItems .themed document.themed = [(.child .themed "a", unreadOpacityItem)] ∧
    (Yaml.Value.string "x").number? = none ∧
    EntryContext.opacityPath? (.string "x") = none ∧
    (a.registry.get? "a").bind (·.valueFor "light") = none ∧
    a.diagnostics.map Diagnostic.code = [some .missingImport] := by
  have hpasses : passes ⟨false, true⟩ unreadOpacityText (fun document a =>
      decide (sectionItems .themed document.themed = [(.child .themed "a", unreadOpacityItem)] ∧
        ((a.registry.get? "a").bind (·.valueFor "light")).isNone = true ∧
        a.diagnostics.map Diagnostic.code = [some .missingImport])) = true := by
    decide +kernel
  obtain ⟨document, a, hread, ha, htest⟩ := passes_iff.mp hpasses
  obtain ⟨hitems, hnone, hcodes⟩ := of_decide_eq_true htest
  exact ⟨document, a, hread, ha, hitems, rfl, rfl, Option.isNone_iff_eq_none.mp hnone, hcodes⟩

end Analysis
end DesignTokens
