import DesignTokens.Proofs.Resolution

/-!
What an analysis without errors has resolved.

A pass registers items one after another, and each is resolved against those above it.  If nothing
is reported, then an entry has a value for the theme it is written under.  A theme that takes the
entry over from another one has a value too, unless the entry fades out for it: this is the one
fault that need not show where the entry is written, and it is not reported elsewhere.
-/

namespace DesignTokens

/-- None of the problems is an error. -/
def Quiet (diagnostics : List Diagnostic) : Prop :=
  ∀ d ∈ diagnostics, d.isError = false

theorem Quiet.left {first second : List Diagnostic} (h : Quiet (first ++ second)) : Quiet first :=
  fun d hd => h d (List.mem_append_left _ hd)

theorem Quiet.right {first second : List Diagnostic} (h : Quiet (first ++ second)) :
    Quiet second :=
  fun d hd => h d (List.mem_append_right _ hd)

namespace Analysis

open EntryContext

theorem EntryFault.report?_of_not_silent {fault : EntryFault} {setting : Setting}
    (hvalidate : setting.options.validateLiterals = true) (hfault : ¬IsSilent fault)
    (site : Span) : ∃ d, fault.report? setting site = some d ∧ d.isError = true := by
  have hwanted : fault.isWanted setting.options = true := by
    cases fault <;> simp [isWanted, hvalidate]
  rw [report?, if_pos hwanted]
  cases fault with
  | nothingWritten => exact absurd (.inl rfl) hfault
  | unresolvedImport => exact absurd (.inr rfl) hfault
  | _ => exact ⟨_, rfl, rfl⟩

namespace ItemContext

variable {c : ItemContext}

/-- An entry that is settled at the site where it is written, without an error, has a value. -/
theorem settle_quiet (hvalidate : c.setting.options.validateLiterals = true) {site : Span}
    {result : Except EntryFault Value}
    (hfaults : ∀ fault, result = .error fault → ¬IsSilent fault)
    (hquiet : Quiet (c.settle (some site) result).2) : ∃ v, result = .ok v := by
  cases result with
  | ok v => exact ⟨v, rfl⟩
  | error fault =>
      obtain ⟨d, hreport, herror⟩ :=
        EntryFault.report?_of_not_silent hvalidate (hfaults fault rfl) site
      have hmem : d ∈ (c.settle (some site) (.error fault)).2 := by
        simp [settle, hreport]
      rw [hquiet d hmem] at herror
      cases herror

/-! ## The values of one item -/

theorem resolveThemes_keys {type : ItemType} {themes : List String}
    {values : List (String × Value)} {diagnostics : List Diagnostic}
    (h : c.resolveThemes type themes = .ok (values, diagnostics)) :
    (values.map Prod.fst).Sublist themes := by
  induction themes generalizing values diagnostics with
  | nil =>
      cases h
      exact .slnil
  | cons theme themes ih =>
      simp only [resolveThemes] at h
      split at h
      · exact (ih h).cons theme
      · simp only [bind_eq_ok, pure_eq_ok] at h
        obtain ⟨origin, -, ⟨others, rest⟩, hrest, h⟩ := h
        cases h
        cases (c.settle _ _).1 with
        | none => exact (ih hrest).cons theme
        | some v => exact (ih hrest).cons_cons theme

/-- The values of an item are those of the entries that its themes use. -/
theorem mem_resolveThemes {type : ItemType} {themes : List String}
    {values : List (String × Value)} {diagnostics : List Diagnostic}
    (h : c.resolveThemes type themes = .ok (values, diagnostics)) {theme : String} {v : Value} :
    (theme, v) ∈ values ↔ theme ∈ themes ∧ ∃ entry under origin,
      c.rawEntry? theme = some (entry, under) ∧ c.body.key under = .ok origin ∧
        (c.entryContext type).resolve entry theme origin = .ok v := by
  induction themes generalizing values diagnostics with
  | nil =>
      cases h
      simp
  | cons name themes ih =>
      simp only [resolveThemes] at h
      split at h
      · next hraw =>
          rw [ih h, List.mem_cons]
          constructor
          · rintro ⟨hmem, hentry⟩
            exact ⟨.inr hmem, hentry⟩
          · rintro ⟨rfl | hmem, hentry⟩
            · obtain ⟨entry, under, origin, hsome, -⟩ := hentry
              simp [hraw] at hsome
            · exact ⟨hmem, hentry⟩
      · next entry under hraw =>
          simp only [bind_eq_ok, pure_eq_ok] at h
          obtain ⟨origin, horigin, ⟨others, rest⟩, hrest, h⟩ := h
          cases h
          rw [List.mem_append, ih hrest, List.mem_cons]
          have hhere : (theme, v) ∈ ((c.settle (if under = name then some origin else none)
              ((c.entryContext type).resolve entry name origin)).1.toList.map (name, ·)) ↔
              theme = name ∧ (c.entryContext type).resolve entry name origin = .ok v := by
            cases (c.entryContext type).resolve entry name origin with
            | ok v' => simp [settle, eq_comm]
            | error fault => simp [settle]
          rw [hhere]
          constructor
          · rintro (⟨rfl, hv⟩ | ⟨hmem, hentry⟩)
            · exact ⟨.inl rfl, entry, under, origin, hraw, horigin, hv⟩
            · exact ⟨.inr hmem, hentry⟩
          · rintro ⟨rfl | hmem, hentry⟩
            · obtain ⟨entry', under', origin', hraw', horigin', hv⟩ := hentry
              cases hraw.symm.trans hraw'
              cases horigin.symm.trans horigin'
              exact .inl ⟨rfl, hv⟩
            · exact .inr ⟨hmem, hentry⟩

/-- Every theme looks its entry up at a key of the text, and there the faults are reported of an
entry that the theme has of its own. -/
theorem resolveThemes_site {type : ItemType} {themes : List String}
    {values : List (String × Value)} {diagnostics : List Diagnostic}
    (h : c.resolveThemes type themes = .ok (values, diagnostics)) {theme under : String}
    {entry : Yaml.Value} (htheme : theme ∈ themes) (hraw : c.rawEntry? theme = some (entry, under)) :
    ∃ origin, c.body.key under = .ok origin ∧
      ∀ d ∈ (c.settle (if under = theme then some origin else none)
        ((c.entryContext type).resolve entry theme origin)).2, d ∈ diagnostics := by
  induction themes generalizing values diagnostics with
  | nil => cases htheme
  | cons name themes ih =>
      simp only [resolveThemes] at h
      rcases List.mem_cons.mp htheme with rfl | htheme
      · simp only [hraw, bind_eq_ok, pure_eq_ok] at h
        obtain ⟨origin, horigin, ⟨others, rest⟩, -, h⟩ := h
        cases h
        exact ⟨origin, horigin, fun d hd => List.mem_append_left _ hd⟩
      · split at h
        · exact ih h htheme
        · simp only [bind_eq_ok, pure_eq_ok] at h
          obtain ⟨_, -, ⟨others, rest⟩, hrest, h⟩ := h
          cases h
          obtain ⟨origin, horigin, hmem⟩ := ih hrest htheme
          exact ⟨origin, horigin, fun d hd => List.mem_append_right _ (hmem d hd)⟩

theorem resolveThemes_nodup (hordered : c.setting.themes.Ordered) {type : ItemType}
    {values : List (String × Value)} {diagnostics : List Diagnostic}
    (h : c.resolveThemes type c.setting.themes.names = .ok (values, diagnostics)) :
    (values.map Prod.fst).Nodup :=
  (resolveThemes_keys h).nodup hordered.distinct

theorem valueFor_themed (hordered : c.setting.themes.Ordered) {type : ItemType}
    {values : List (String × Value)} {diagnostics : List Diagnostic}
    (h : c.resolveThemes type c.setting.themes.names = .ok (values, diagnostics)) (theme : String)
    (v : Value) : (Bundle.themed type (.ofList values)).valueFor theme = some v ↔
      (theme, v) ∈ values := by
  have hnodup := resolveThemes_nodup hordered h
  rw [Bundle.valueFor, OrderedMap.get?_ofList hnodup, OrderedMap.find_eq_some_iff hnodup]

/-- The values that an item resolves to belong to its type. -/
theorem resolve_typed (hordered : c.setting.themes.Ordered) (hregistry : c.registry.Typed)
    {type : ItemType} {bundle : Bundle} {diagnostics : List Diagnostic}
    (h : c.resolve type = .ok (bundle, diagnostics)) : bundle.Typed := by
  refine ⟨fun {key v} hv => ?_⟩
  rw [resolve] at h
  split at h
  · rw [resolveShared] at h
    split at h
    · cases h
      cases hv
    · next entry _ =>
        simp only [bind_eq_ok, pure_eq_ok] at h
        obtain ⟨site, -, h⟩ := h
        cases h
        cases hvalue : (c.entryContext type).resolve entry Keyword.value site with
        | error fault => simp [Bundle.valueFor, settle, hvalue] at hv
        | ok v' =>
            simp only [Bundle.valueFor, settle, hvalue, Option.some.injEq] at hv
            subst hv
            exact resolve_type hregistry hvalue
  · simp only [bind_eq_ok, pure_eq_ok] at h
    obtain ⟨⟨values, problems⟩, hvalues, h⟩ := h
    cases h
    rw [valueFor_themed hordered hvalues, mem_resolveThemes hvalues] at hv
    obtain ⟨-, entry, under, origin, -, -, hresolve⟩ := hv
    exact resolve_type hregistry hresolve

/-- The mappings among the entries that resolution looks at say which value they start from. -/
def HasBases (c : ItemContext) : Prop :=
  ∀ key ∈ Keyword.value :: c.setting.themes.names, ∀ entry ∈ c.item.entry? key,
    hasBase entry = true

theorem resolveShared_quiet (hvalidate : c.setting.options.validateLiterals = true)
    (hregistry : c.registry.Typed) (hanswers : c.registry.Answers Keyword.value)
    (hbases : c.HasBases) {type : ItemType} {bundle : Bundle} {diagnostics : List Diagnostic}
    (h : c.resolveShared type = .ok (bundle, diagnostics)) (hquiet : Quiet diagnostics) :
    ∃ v, bundle = .shared type (some v) := by
  rw [resolveShared] at h
  split at h
  · cases h
    have herror := hquiet c.missingValue List.mem_cons_self
    cases herror
  · next entry hentry =>
      simp only [bind_eq_ok, pure_eq_ok] at h
      obtain ⟨site, -, h⟩ := h
      cases h
      have hbase : hasBase entry = true := hbases _ List.mem_cons_self entry hentry
      obtain ⟨v, hv⟩ := settle_quiet hvalidate
        (fun fault => resolve_not_silent hregistry hbase hanswers) hquiet
      exact ⟨v, by rw [hv]; rfl⟩

/-- Every theme has an entry to use if the default theme has one. -/
theorem rawEntry?_isSome {problems : List Diagnostic} (hproblems : c.themeProblems = .ok problems)
    (hquiet : Quiet problems) (hshared : c.path.isShared = false) {theme : String}
    (htheme : theme ∈ c.setting.themes.names) : ∃ entry under,
      c.rawEntry? theme = some (entry, under) := by
  obtain ⟨name, hname⟩ : ∃ name, c.setting.themes.default? = some name := by
    rw [Themes.default?]
    cases hnames : c.setting.themes.names with
    | nil => simp [hnames] at htheme
    | cons name names => exact ⟨name, rfl⟩
  have hdefault : (c.item.entry? name).isSome = true := by
    simp only [themeProblems, hshared, Bool.false_eq_true, if_false, bind_eq_ok, pure_eq_ok]
      at hproblems
    obtain ⟨unknown, -, rfl⟩ := hproblems
    rw [← Bool.not_eq_false]
    intro habsent
    simp only [missingDefault?, hname] at hquiet
    simp only [bind, Option.bind, habsent] at hquiet
    have herror := hquiet _ (List.mem_append_left _ (List.mem_singleton.mpr rfl))
    cases herror
  obtain ⟨entry, hentry⟩ := Option.isSome_iff_exists.mp hdefault
  have hsome : (c.rawEntry? theme).isSome = true := by
    simp only [List.findSome?_isSome_iff, rawEntry?, hname]
    exact ⟨name, by simp, by simp [hentry]⟩
  obtain ⟨⟨entry, under⟩, hraw⟩ := Option.isSome_iff_exists.mp hsome
  exact ⟨entry, under, hraw⟩

theorem rawEntry?_own {theme : String} {entry : Yaml.Value}
    (h : c.item.entry? theme = some entry) : c.rawEntry? theme = some (entry, theme) := by
  simp [h, rawEntry?]

/-- The theme takes an entry over from another theme, and the entry fades out for it. -/
def FadesOut (c : ItemContext) (type : ItemType) (theme : String) : Prop :=
  c.path.isShared = false ∧ ∃ entry under, c.rawEntry? theme = some (entry, under) ∧
    under ≠ theme ∧ (c.entryContext type).FadesOut entry theme

/-- A themed item that is resolved without an error has a value for exactly the themes for which it
does not fade out. -/
theorem resolveThemes_quiet (hvalidate : c.setting.options.validateLiterals = true)
    (hordered : c.setting.themes.Ordered) (hregistry : c.registry.Typed)
    (hanswers : ∀ theme ∈ c.setting.themes.names, c.registry.Answers theme) (hbases : c.HasBases)
    (hshared : c.path.isShared = false) {problems : List Diagnostic}
    (hproblems : c.themeProblems = .ok problems) (hquiet : Quiet problems) {type : ItemType}
    {values : List (String × Value)} {diagnostics : List Diagnostic}
    (h : c.resolveThemes type c.setting.themes.names = .ok (values, diagnostics))
    (hquiet' : Quiet diagnostics) {theme : String} (htheme : theme ∈ c.setting.themes.names) :
    (∃ v, (theme, v) ∈ values) ↔ ¬c.FadesOut type theme := by
  obtain ⟨entry, under, hraw⟩ := rawEntry?_isSome hproblems hquiet hshared htheme
  obtain ⟨hunder, hentry⟩ := rawEntry?_eq_some hordered htheme hraw
  have hbase : hasBase entry = true := hbases _ (List.mem_cons_of_mem _ hunder) entry hentry
  -- Under its own theme the entry has a value, for else it would have been reported there.
  obtain ⟨origin, horigin, hreported⟩ := resolveThemes_site h hunder (rawEntry?_own hentry)
  rw [if_pos rfl] at hreported
  obtain ⟨v, hv⟩ := settle_quiet hvalidate
    (fun fault => resolve_not_silent hregistry hbase (hanswers under hunder))
    (fun d hd => hquiet' d (hreported d hd))
  constructor
  · rintro ⟨v', hv'⟩ ⟨-, entry', under', hraw', -, hfades⟩
    cases hraw.symm.trans hraw'
    obtain ⟨-, entry', under', origin', hraw', -, hresolve⟩ := (mem_resolveThemes h).mp hv'
    cases hraw.symm.trans hraw'
    exact resolve_of_fadesOut hfades origin' v' hresolve
  · intro hnot
    by_cases hsame : under = theme
    · subst hsame
      exact ⟨v, (mem_resolveThemes h).mpr ⟨htheme, entry, under, origin, hraw, horigin, hv⟩⟩
    · obtain ⟨v', hv'⟩ := resolve_of_resolve hregistry hv (hanswers theme htheme)
        (fun hfades => hnot ⟨hshared, entry, under, hraw, hsame, hfades⟩)
      exact ⟨v', (mem_resolveThemes h).mpr ⟨htheme, entry, under, origin, hraw, horigin, hv'⟩⟩

end ItemContext

/-! ## The registrations of a pass -/

structure Registration where
  context : ItemContext
  type : ItemType
  bundle : Bundle
  diagnostics : List Diagnostic
  type_eq : context.item.type = .ok type
  resolve_eq : context.resolve type = .ok (bundle, diagnostics)

namespace Registration

def isShared (g : Registration) : Bool :=
  g.context.path.isShared

/-- The theme takes over an entry that fades out for it. -/
def FadesOut (g : Registration) (theme : String) : Prop :=
  g.context.FadesOut g.type theme

def Complete (g : Registration) : Prop :=
  ∀ theme ∈ g.context.setting.themes.names, (g.bundle.valueFor theme).isSome

def Clean (g : Registration) : Prop :=
  Quiet g.diagnostics ∧ ∃ problems, g.context.themeProblems = .ok problems ∧ Quiet problems

end Registration

/-- The registrations take one registry to another, and each item is resolved against the registry
that those before it have left. -/
inductive Registers (setting : Setting) : Registry → List Registration → Registry → Prop
  | nil {registry : Registry} : Registers setting registry [] registry
  | cons {g : Registration} {log : List Registration} {registry : Registry} :
      g.context.setting = setting →
      Registers setting (g.context.registry.register g.context.path g.bundle) log registry →
      Registers setting g.context.registry (g :: log) registry

def Visit.subject? : Visit → Option (ItemPath × Item)
  | .platforms _ _ _ => none
  | .item content _ path => some (path, content)

def Registration.subject (g : Registration) : ItemPath × Item :=
  (g.context.path, g.context.item)

theorem quiet_of_run {setting : Setting} {visits : List Visit} {f f' : Findings}
    (hrun : Run setting visits f f') (hquiet : Quiet f'.diagnostics) : Quiet f.diagnostics := by
  obtain ⟨more, hmore⟩ := hrun.diagnostics_append
  rw [hmore] at hquiet
  exact hquiet.left

/-- A pass without errors registers every item that it visits. -/
theorem registers_of_run {setting : Setting} {visits : List Visit} {f f' : Findings}
    (hrun : Run setting visits f f') (hquiet : Quiet f'.diagnostics) :
    ∃ log, Registers setting f.registry log f'.registry ∧
      log.map Registration.subject = visits.filterMap Visit.subject? ∧ ∀ g ∈ log, g.Clean := by
  induction hrun with
  | nil => exact ⟨[], .nil, rfl, by simp⟩
  | platforms _ _ _ ih => exact ih hquiet
  | @item content inherited path key report visits f f' hreport hrest ih =>
      have hhere : Quiet report.diagnostics := (quiet_of_run hrest hquiet).right
      rcases (ItemContext.report_cases hreport).2 with ⟨marker, huntyped⟩ | ⟨type, bundle, htyped⟩
      · -- A type that is none is reported.
        obtain ⟨platforms, themes, problem, -, hproblem, heq⟩ := huntyped.diagnostics_eq
        simp only [ItemContext.badType, bind_eq_ok, pure_eq_ok] at hproblem
        obtain ⟨span, -, rfl⟩ := hproblem
        rw [heq] at hhere
        have herror := hhere.right _ (List.mem_singleton.mpr rfl)
        cases herror
      · obtain ⟨platforms, themes, values, ⟨-, hthemes⟩, hresolve, heq⟩ := htyped.diagnostics_eq
        rw [heq] at hhere
        obtain ⟨log, hlog, hsubjects, hclean⟩ := ih hquiet
        have hregistry : (f.addItem path report).registry = f.registry.register path bundle := by
          simp only [Findings.addItem, htyped.bundle_eq]
        rw [hregistry] at hlog
        let g : Registration :=
          ⟨⟨setting, f.registry, content, path, key⟩, type, bundle, values, htyped.type_eq, hresolve⟩
        refine ⟨g :: log, .cons (g := g) rfl hlog, ?_, ?_⟩
        · rw [List.map_cons, hsubjects]
          rfl
        · intro h hh
          rcases List.mem_cons.mp hh with rfl | hh
          · exact ⟨hhere.right, themes, hthemes, hhere.left.right⟩
          · exact hclean h hh

namespace Registration

variable {g : Registration}

theorem exists_shared (hvalidate : g.context.setting.options.validateLiterals = true)
    (hregistry : g.context.registry.Typed) (hanswers : g.context.registry.Answers Keyword.value)
    (hbases : g.context.HasBases) (hclean : g.Clean) (hshared : g.isShared = true) :
    ∃ v, g.bundle = .shared g.type (some v) := by
  have hresolve := g.resolve_eq
  have hpath : g.context.path.isShared = true := hshared
  rw [ItemContext.resolve, if_pos hpath] at hresolve
  exact ItemContext.resolveShared_quiet hvalidate hregistry hanswers hbases hresolve hclean.1

theorem exists_themed (hshared : g.isShared = false) :
    ∃ values, g.context.resolveThemes g.type g.context.setting.themes.names =
      .ok (values, g.diagnostics) ∧ g.bundle = .themed g.type (.ofList values) := by
  have hresolve := g.resolve_eq
  have hpath : ¬g.context.path.isShared = true := by
    rw [isShared] at hshared
    simp [hshared]
  rw [ItemContext.resolve, if_neg hpath] at hresolve
  simp only [bind_eq_ok, pure_eq_ok] at hresolve
  obtain ⟨⟨values, diagnostics⟩, hvalues, heq⟩ := hresolve
  obtain ⟨hbundle, hdiagnostics⟩ := Prod.mk.inj heq
  exact ⟨values, hdiagnostics ▸ hvalues, hbundle.symm⟩

/-- An item of the themed section that is registered without an error is complete exactly if it
fades out for no theme. -/
theorem complete_iff (hvalidate : g.context.setting.options.validateLiterals = true)
    (hordered : g.context.setting.themes.Ordered) (hregistry : g.context.registry.Typed)
    (hanswers : ∀ theme ∈ g.context.setting.themes.names, g.context.registry.Answers theme)
    (hbases : g.context.HasBases) (hclean : g.Clean) (hshared : g.isShared = false) :
    g.Complete ↔ ∀ theme ∈ g.context.setting.themes.names, ¬g.FadesOut theme := by
  obtain ⟨hquiet, problems, hproblems, hquiet'⟩ := hclean
  obtain ⟨values, hvalues, hbundle⟩ := exists_themed hshared
  refine forall₂_congr fun theme htheme => ?_
  rw [FadesOut, ← ItemContext.resolveThemes_quiet hvalidate hordered hregistry hanswers hbases
    hshared hproblems hquiet' hvalues hquiet htheme, hbundle, Option.isSome_iff_exists]
  exact exists_congr (ItemContext.valueFor_themed hordered hvalues theme)

end Registration

namespace Registers

variable {setting : Setting} {log : List Registration} {registry registry' : Registry}

theorem append_inv {first second : List Registration}
    (h : Registers setting registry (first ++ second) registry') :
    ∃ between, Registers setting registry first between ∧
      Registers setting between second registry' := by
  induction first generalizing registry with
  | nil => exact ⟨registry, .nil, h⟩
  | cons g first ih =>
      cases h with
      | cons hsetting hrest =>
          obtain ⟨between, hfirst, hsecond⟩ := ih hrest
          exact ⟨between, .cons hsetting hfirst, hsecond⟩

/-- A registered bundle is that of an item of the log, if it was not registered before. -/
theorem exists_of_get? (h : Registers setting registry log registry') {path : String}
    {bundle : Bundle} (hget : registry'.get? path = some bundle) :
    (∃ g ∈ log, g.bundle = bundle) ∨ registry.get? path = some bundle := by
  induction h with
  | nil => exact .inr hget
  | @cons g log registry' _ _ ih =>
      rcases ih hget with ⟨g', hg', heq⟩ | hbefore
      · exact .inl ⟨g', List.mem_cons_of_mem _ hg', heq⟩
      · rcases Registry.get?_register hbefore with rfl | hbefore
        · exact .inl ⟨g, List.mem_cons_self, rfl⟩
        · exact .inr hbefore

theorem setting_eq (h : Registers setting registry log registry') {g : Registration}
    (hg : g ∈ log) : g.context.setting = setting := by
  induction h with
  | nil => cases hg
  | cons hsetting _ ih =>
      rcases List.mem_cons.mp hg with rfl | hg
      · exact hsetting
      · exact ih hg

/-- What is asked of the registrations of an analysis without errors. -/
structure Faultless (log : List Registration) : Prop where
  clean : ∀ g ∈ log, g.Clean
  bases : ∀ g ∈ log, g.context.HasBases

theorem Faultless.mono {others : List Registration} (h : Faultless log)
    (hsubset : others ⊆ log) : Faultless others :=
  ⟨fun g hg => h.clean g (hsubset hg), fun g hg => h.bases g (hsubset hg)⟩

theorem Faultless.tail {g : Registration} (h : Faultless (g :: log)) :
    Faultless log :=
  h.mono (List.subset_cons_self g log)

/-- The shared section: every item has a value, the same for every key. -/
theorem shared_resolved (hvalidate : setting.options.validateLiterals = true)
    (hordered : setting.themes.Ordered) (h : Registers setting registry log registry')
    (hfaultless : Faultless log) (hshared : ∀ g ∈ log, g.isShared = true)
    (hregistry : registry.Typed) (hanswers : ∀ key, registry.Answers key) :
    (∀ g ∈ log, ∃ v, g.bundle = .shared g.type (some v)) ∧ registry'.Typed ∧
      ∀ key, registry'.Answers key := by
  induction h with
  | nil => exact ⟨by simp, hregistry, hanswers⟩
  | @cons g log registry' hsetting _ ih =>
      subst hsetting
      obtain ⟨v, hv⟩ := Registration.exists_shared hvalidate hregistry (hanswers _)
        (hfaultless.bases g List.mem_cons_self) (hfaultless.clean g List.mem_cons_self)
        (hshared g List.mem_cons_self)
      have htyped : g.bundle.Typed := ItemContext.resolve_typed hordered hregistry g.resolve_eq
      have hanswer : ∀ key, (g.bundle.valueFor key).isSome := by
        intro key
        rw [hv]
        rfl
      obtain ⟨hrest, htyped', hanswers'⟩ := ih hfaultless.tail
        (fun g' hg' => hshared g' (List.mem_cons_of_mem _ hg')) (hregistry.register _ htyped)
        (fun key => (hanswers key).register _ (hanswer key))
      exact ⟨List.forall_mem_cons.mpr ⟨⟨v, hv⟩, hrest⟩, htyped', hanswers'⟩

/-- The themed section: all items are complete exactly if none fades out for a theme. -/
theorem themed_resolved (hvalidate : setting.options.validateLiterals = true)
    (hordered : setting.themes.Ordered) (h : Registers setting registry log registry')
    (hfaultless : Faultless log) (hshared : ∀ g ∈ log, g.isShared = false)
    (hregistry : registry.Typed) (hanswers : ∀ theme ∈ setting.themes.names, registry.Answers theme) :
    (∀ g ∈ log, g.Complete) ↔ ∀ g ∈ log, ∀ theme ∈ setting.themes.names, ¬g.FadesOut theme := by
  induction h with
  | nil => simp
  | @cons g log registry' hsetting _ ih =>
      subst hsetting
      have hhere := Registration.complete_iff hvalidate hordered hregistry hanswers
        (hfaultless.bases g List.mem_cons_self) (hfaultless.clean g List.mem_cons_self)
        (hshared g List.mem_cons_self)
      have htyped : g.bundle.Typed := ItemContext.resolve_typed hordered hregistry g.resolve_eq
      have hrest := fun hcomplete : g.Complete => ih hfaultless.tail
        (fun g' hg' => hshared g' (List.mem_cons_of_mem _ hg')) (hregistry.register _ htyped)
        (fun theme htheme => (hanswers theme htheme).register _ (hcomplete theme htheme))
      rw [List.forall_mem_cons, List.forall_mem_cons, ← hhere]
      exact and_congr_right hrest

theorem sections_resolved {first second : List Registration}
    (hvalidate : setting.options.validateLiterals = true) (hordered : setting.themes.Ordered)
    (h : Registers setting .empty (first ++ second) registry')
    (hfaultless : Faultless (first ++ second))
    (hfirst : ∀ g ∈ first, g.isShared = true) (hsecond : ∀ g ∈ second, g.isShared = false) :
    (∀ g ∈ first, ∃ v, g.bundle = .shared g.type (some v)) ∧
      ((∀ g ∈ first ++ second, g.Complete) ↔
        ∀ g ∈ first ++ second, ∀ theme ∈ setting.themes.names, ¬g.FadesOut theme) := by
  obtain ⟨between, hshared, hthemed⟩ := h.append_inv
  obtain ⟨hvalues, htyped, hanswers⟩ := hshared.shared_resolved hvalidate hordered
    (hfaultless.mono (List.subset_append_left _ _)) hfirst Registry.empty_typed
    Registry.empty_answers
  have hcomplete := hthemed.themed_resolved hvalidate hordered
    (hfaultless.mono (List.subset_append_right _ _)) hsecond htyped (fun theme _ => hanswers theme)
  have hfirstComplete : ∀ g ∈ first, g.Complete := by
    intro g hg theme _
    obtain ⟨v, hv⟩ := hvalues g hg
    rw [hv]
    rfl
  have hfirstFades : ∀ g ∈ first, ∀ theme ∈ setting.themes.names, ¬g.FadesOut theme := by
    intro g hg theme _ hfades
    have hfalse : g.isShared = false := hfades.1
    rw [hfirst g hg] at hfalse
    cases hfalse
  refine ⟨hvalues, ?_⟩
  rw [List.forall_mem_append, List.forall_mem_append, hcomplete]
  exact and_congr_left' (iff_of_true hfirstComplete hfirstFades)

end Registers

/-! ## The two sections

Below a path that is not empty, every path leads into the same section.  The themed section starts
at the empty path, and none of its children is called like the shared section: that key is reserved.
-/

theorem isShared_child {path : ItemPath} (h : path.segments ≠ []) (key : String) :
    (path.child key).isShared = path.isShared := by
  rw [ItemPath.isShared, ItemPath.isShared, ItemPath.child, List.head?_append_of_ne_nil _ h]

theorem isShared_child_themed {key : String} (h : isReserved key = false) :
    (ItemPath.themed.child key).isShared = false := by
  have hne : key ≠ ItemPath.sharedKey := by
    rintro rfl
    cases h
  simpa [ItemPath.isShared, ItemPath.child, ItemPath.themed] using hne

mutual

theorem isShared_of_mem_nodeVisits {inherited : List String} {path : ItemPath}
    (hpath : path.segments ≠ []) (node : Node) {subject : ItemPath × Item}
    (h : subject ∈ (nodeVisits inherited path node).filterMap Visit.subject?) :
    subject.1.isShared = path.isShared := by
  cases node with
  | item content =>
      simp only [nodeVisits, List.filterMap_cons, Visit.subject?, List.filterMap_nil,
        List.mem_singleton] at h
      rw [h]
  | collection own members =>
      rw [nodeVisits] at h
      exact isShared_of_mem_memberVisits hpath members h

theorem isShared_of_mem_memberVisits {own : Option (List String)} {inherited : List String}
    {path : ItemPath} (hpath : path.segments ≠ []) (members : List Member)
    {subject : ItemPath × Item}
    (h : subject ∈ (memberVisits own inherited path members).filterMap Visit.subject?) :
    subject.1.isShared = path.isShared := by
  match members with
  | [] => simp [memberVisits] at h
  | .platforms :: members =>
      rw [memberVisits] at h
      exact isShared_of_mem_memberVisits hpath members h
  | .child key node :: members =>
      rw [memberVisits, List.filterMap_append, List.mem_append] at h
      rcases h with h | h
      · have hchild : (path.child key).segments ≠ [] := by simp [ItemPath.child]
        rw [isShared_of_mem_nodeVisits hchild node h, isShared_child hpath]
      · exact isShared_of_mem_memberVisits hpath members h

end

theorem isShared_of_mem_membersOf {own : Option (List String)} {inherited : List String}
    (entries : List (Yaml.Value × Yaml.Value)) {subject : ItemPath × Item}
    (h : subject ∈ (memberVisits own inherited .themed (Node.membersOf entries)).filterMap
      Visit.subject?) : subject.1.isShared = false := by
  induction entries with
  | nil => simp [Node.membersOf, memberVisits] at h
  | cons entry entries ih =>
      obtain ⟨k, v⟩ := entry
      rw [Node.membersOf] at h
      split at h
      · exact ih h
      · next key _ =>
          split at h
          · rw [memberVisits] at h
            exact ih h
          · split at h
            · exact ih h
            · next hreserved =>
                rw [memberVisits, List.filterMap_append, List.mem_append] at h
                rcases h with h | h
                · have hchild : (ItemPath.themed.child key).segments ≠ [] := by
                    simp [ItemPath.child]
                  rw [isShared_of_mem_nodeVisits hchild _ h]
                  exact isShared_child_themed (Bool.not_eq_true _ ▸ hreserved)
                · exact ih h

theorem isShared_of_mem_themed {inherited : List String} (value : Yaml.Value)
    {subject : ItemPath × Item}
    (h : subject ∈ (nodeVisits inherited .themed (Node.ofValue value)).filterMap Visit.subject?) :
    subject.1.isShared = false := by
  induction value using Yaml.Value.untagged.induct with
  | case1 tag value ih =>
      rw [Node.ofValue] at h
      exact ih h
  | case2 value hnot =>
      cases value with
      | mapping entries =>
          rw [Node.ofValue] at h
          split at h
          · simp only [nodeVisits, List.filterMap_cons, Visit.subject?, List.filterMap_nil,
              List.mem_singleton] at h
            rw [h]
            rfl
          · rw [nodeVisits] at h
            exact isShared_of_mem_membersOf entries h
      | tagged tag value => exact absurd rfl (hnot tag value)
      | _ => simp [Node.ofValue, nodeVisits, memberVisits] at h

theorem themed_of_ofText {text : List Char} {document : Document}
    (h : Document.ofText text = .ok document) {node : Node} (hnode : document.themed = some node) :
    ∃ value, node = Node.ofValue value := by
  rw [Document.ofText] at h
  split at h
  · cases h
    cases hnode
  · cases hvalue : Yaml.Value.ofText text with
    | error fault => simp [hvalue, Except.map] at h
    | ok value =>
        simp only [hvalue, Except.map, Except.ok.injEq] at h
        subst h
        cases value with
        | mapping entries =>
            obtain ⟨v, -, rfl⟩ := Option.map_eq_some_iff.mp hnode
            exact ⟨v, rfl⟩
        | _ => cases hnode

theorem isShared_of_mem_shared {inherited : List String} {node : Option Node}
    {subject : ItemPath × Item}
    (h : subject ∈ (sectionVisits inherited .shared node).filterMap Visit.subject?) :
    subject.1.isShared = true := by
  cases node with
  | none => simp [sectionVisits] at h
  | some node =>
      have hpath : ItemPath.shared.segments ≠ [] := by simp [ItemPath.shared]
      rw [isShared_of_mem_nodeVisits hpath node h]
      rfl

theorem isShared_of_mem_sectionVisits {text : List Char} {document : Document} {themes : Themes}
    {inherited : List String} (hread : Document.ofText text = .ok document)
    {subject : ItemPath × Item}
    (h : subject ∈ (sectionVisits inherited .themed
      (if themes.isEmpty then none else document.themed)).filterMap Visit.subject?) :
    subject.1.isShared = false := by
  split at h
  · simp [sectionVisits] at h
  · cases hnode : document.themed with
    | none => simp [sectionVisits, hnode] at h
    | some node =>
        obtain ⟨value, rfl⟩ := themed_of_ofText hread hnode
        rw [hnode] at h
        exact isShared_of_mem_themed value h

theorem mem_visitedItems_of_subject {themes : Themes} {document : Document}
    {log : List Registration}
    (h : log.map Registration.subject = (documentVisits themes document).filterMap Visit.subject?)
    {g : Registration} (hg : g ∈ log) : g.context.item ∈ visitedItems themes document := by
  have hmem : g.subject ∈ (documentVisits themes document).filterMap Visit.subject? :=
    h ▸ List.mem_map_of_mem hg
  obtain ⟨visit, hvisit, hsubject⟩ := List.mem_filterMap.mp hmem
  cases visit with
  | platforms own inherited path => cases hsubject
  | item content inherited path =>
      cases hsubject
      exact mem_visitedItems hvisit

theorem exists_sections {text : List Char} {document : Document} {themes : Themes}
    {log : List Registration} (hread : Document.ofText text = .ok document)
    (h : log.map Registration.subject = (documentVisits themes document).filterMap Visit.subject?) :
    ∃ first second, log = first ++ second ∧ (∀ g ∈ first, g.isShared = true) ∧
      ∀ g ∈ second, g.isShared = false := by
  rw [documentVisits, List.filterMap_append, List.map_eq_append_iff] at h
  obtain ⟨first, second, rfl, hfirst, hsecond⟩ := h
  refine ⟨first, second, rfl, fun g hg => ?_, fun g hg => ?_⟩
  · have hmem : g.subject ∈ first.map Registration.subject := List.mem_map_of_mem hg
    rw [hfirst] at hmem
    exact isShared_of_mem_shared hmem
  · have hmem : g.subject ∈ second.map Registration.subject := List.mem_map_of_mem hg
    rw [hsecond] at hmem
    exact isShared_of_mem_sectionVisits hread hmem

theorem quiet_of_hasErrors {a : Analysis} (h : a.hasErrors = false) : Quiet a.diagnostics := by
  intro d hd
  rw [hasErrors, List.any_eq_false] at h
  exact Bool.eq_false_iff.mpr (h d hd)

/-! ## The theorem -/

/-- Without errors, every shared item has a value, and every item has a value for every theme unless
an entry fades out for a theme that takes it over. -/
theorem resolved_of_no_errors {options : Options} {text : List Char} {document : Document}
    {a : Analysis} (hvalidate : options.validateLiterals = true)
    (hread : Document.ofText text = .ok document) (ha : ofText options text = .ok a)
    (hclean : a.hasErrors = false)
    (hbases : ∀ item ∈ visitedItems a.themes document, ∀ key ∈ Keyword.value :: a.themes.names,
      ∀ entry ∈ item.entry? key, hasBase entry = true) :
    (∀ path type value, a.registry.get? path = some (.shared type value) → value.isSome) ∧
    ∃ log, Registers ⟨text, options, a.themes, document.platforms.getD []⟩ .empty log a.registry ∧
      log.map Registration.subject =
        (documentVisits a.themes document).filterMap Visit.subject? ∧
      ((∀ g ∈ log, g.Complete) ↔ ∀ g ∈ log, ∀ theme ∈ a.themes.names, ¬g.FadesOut theme) ∧
      ((∀ g ∈ log, ∀ theme ∈ a.themes.names, ¬g.FadesOut theme) →
        ∀ path type values, a.registry.get? path = some (.themed type values) →
          ∀ theme ∈ a.themes.names, (values.get? theme).isSome) := by
  obtain ⟨read, hsame, hdocument⟩ := ofText_eq_ok.mp ha
  cases hread.symm.trans hsame
  obtain ⟨problems, hthemes, -, hrun⟩ := ofDocument_run hdocument
  have hordered : a.themes.Ordered := readThemes_ordered hthemes
  obtain ⟨log, hlog, hsubjects, hcleans⟩ := registers_of_run hrun (quiet_of_hasErrors hclean)
  have hfaultless : Registers.Faultless log := by
    refine ⟨hcleans, fun g hg => ?_⟩
    rw [ItemContext.HasBases, hlog.setting_eq hg]
    exact hbases g.context.item (mem_visitedItems_of_subject hsubjects hg)
  obtain ⟨first, second, rfl, hsharedPaths, hthemedPaths⟩ := exists_sections hread hsubjects
  obtain ⟨hvalues, hiff⟩ :=
    hlog.sections_resolved hvalidate hordered hfaultless hsharedPaths hthemedPaths
  refine ⟨?_, first ++ second, hlog, hsubjects, hiff, ?_⟩
  · intro path type value hget
    rcases hlog.exists_of_get? hget with ⟨g, hg, hbundle⟩ | hempty
    · rcases List.mem_append.mp hg with hg | hg
      · obtain ⟨v, hv⟩ := hvalues g hg
        rw [hbundle] at hv
        cases hv
        rfl
      · obtain ⟨values, -, hv⟩ := Registration.exists_themed (hthemedPaths g hg)
        rw [hbundle] at hv
        cases hv
    · cases hempty
  · intro hfades path type values hget theme htheme
    rcases hlog.exists_of_get? hget with ⟨g, hg, hbundle⟩ | hempty
    · have hvalue := hiff.mpr hfades g hg theme (hlog.setting_eq hg ▸ htheme)
      rw [hbundle] at hvalue
      exact hvalue
    · cases hempty

/-- The color `veil` takes its opacity from `dim`, which is no opacity in the dark theme.  It is
written for the light theme only. -/
def veilText : List Char :=
  (".themes: [light, dark]\n.themed:\n  dim:\n    .type: double\n    light: 0.5\n    dark: 2\n"
    ++ "  veil:\n    .type: color\n    light: \x7bvalue: ff102030, "
    ++ "withOpacity: \x7bimport: dim\x7d\x7d\n").toList

/-- Whether an analysis without errors, of a document whose mappings all start from a value, has left
an item without a value for a theme. -/
def leavesOpen (path theme : String) (document : Document) (a : Analysis) : Bool :=
  !a.hasErrors && decide (∀ item ∈ visitedItems a.themes document,
      ∀ key ∈ Keyword.value :: a.themes.names, ∀ entry ∈ item.entry? key, hasBase entry = true) &&
    decide (theme ∈ a.themes.names) &&
    match a.registry.get? path with
    | some (.themed _ values) => (values.get? theme).isNone
    | _ => false

theorem leavesOpen_iff {path theme : String} {document : Document} {a : Analysis} :
    leavesOpen path theme document a = true ↔ a.hasErrors = false ∧
      (∀ item ∈ visitedItems a.themes document, ∀ key ∈ Keyword.value :: a.themes.names,
        ∀ entry ∈ item.entry? key, hasBase entry = true) ∧ theme ∈ a.themes.names ∧
      ∃ type values, a.registry.get? path = some (.themed type values) ∧
        values.get? theme = none := by
  rw [leavesOpen]
  simp only [Bool.and_eq_true, Bool.not_eq_true', decide_eq_true_eq, and_assoc]
  refine and_congr_right fun _ => and_congr_right fun _ => and_congr_right fun _ => ?_
  cases a.registry.get? path with
  | none => simp
  | some bundle => cases bundle <;> simp

theorem veilText_passes : passes .default veilText (leavesOpen "veil" "dark") = true := by
  decide +kernel

/-- The dark theme takes over the entry of the light one, in which nothing is wrong, and has no
value; nothing is reported. -/
theorem veilText_leaves_dark_open : ∃ document a, Document.ofText veilText = .ok document ∧
    ofText .default veilText = .ok a ∧ a.hasErrors = false ∧
    (∀ item ∈ visitedItems a.themes document, ∀ key ∈ Keyword.value :: a.themes.names,
      ∀ entry ∈ item.entry? key, hasBase entry = true) ∧
    "dark" ∈ a.themes.names ∧
    ∃ type values, a.registry.get? "veil" = some (.themed type values) ∧
      values.get? "dark" = none := by
  obtain ⟨document, a, hread, ha, hleaves⟩ := passes_iff.mp veilText_passes
  exact ⟨document, a, hread, ha, leavesOpen_iff.mp hleaves⟩

/-- The analysis of this text has no errors, so the value that is missing is one that fades out. -/
theorem veilText_fades_out : ∃ document a log, Document.ofText veilText = .ok document ∧
    ofText .default veilText = .ok a ∧ a.hasErrors = false ∧
    Registers ⟨veilText, .default, a.themes, document.platforms.getD []⟩ .empty log a.registry ∧
    ∃ g ∈ log, ∃ theme ∈ a.themes.names, g.FadesOut theme := by
  obtain ⟨document, a, hread, ha, hleaves⟩ := passes_iff.mp veilText_passes
  obtain ⟨hclean, hbases, hdark, type, values, hget, hnone⟩ := leavesOpen_iff.mp hleaves
  obtain ⟨-, log, hlog, -, -, hcomplete⟩ := resolved_of_no_errors rfl hread ha hclean hbases
  refine ⟨document, a, log, hread, ha, hclean, hlog, ?_⟩
  by_contra hnot
  push Not at hnot
  have hsome := hcomplete hnot "veil" type values hget "dark" hdark
  rw [hnone] at hsome
  cases hsome

end Analysis
end DesignTokens
