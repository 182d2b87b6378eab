import DesignTokens.Proofs.Findings
import DesignTokens.Proofs.WalkOrder

/-!
Problems by what they are about.

Whether a pass reports a problem of a theme, of a list of platforms, of an item's keys or of its type
is decided by the tree alone; the text only gives the place.  `Problem` is such a problem before it
is placed, `Problem.placedAt` has the code and the wording of its report, and `Reported` says that
diagnostics are the placed problems, in order.  A pass mixes the problems of all topics, so one topic
is looked at by leaving out the rest (`about`).  What the visits of a pass report about a topic, one
after another, is what the analysis reports about it (`ofDocument_about`).
-/

namespace DesignTokens

inductive Topic where
  | themes
  | items
  | platforms
  | values
  deriving DecidableEq, Repr

/-- The topic of a code is told by its first digit. -/
def Code.topic : Code → Topic
  | .badTheme | .unknownAliasTarget | .duplicateTheme => .themes
  | .missingDefault | .unknownTheme | .missingValue | .unknownType => .items
  | .unknownPlatform | .hiddenPlatform => .platforms
  | .missingImport | .importType | .opacityRange | .invalidLiteral => .values

def Diagnostic.isAbout (topic : Topic) (d : Diagnostic) : Bool :=
  d.code.map Code.topic = some topic

/-- The diagnostics about a topic, in their order. -/
def about (topic : Topic) (diagnostics : List Diagnostic) : List Diagnostic :=
  diagnostics.filter (·.isAbout topic)

theorem about_append (topic : Topic) (first second : List Diagnostic) :
    about topic (first ++ second) = about topic first ++ about topic second :=
  List.filter_append ..

theorem about_self {topic : Topic} {diagnostics : List Diagnostic}
    (h : ∀ d ∈ diagnostics, d.isAbout topic = true) : about topic diagnostics = diagnostics :=
  List.filter_eq_self.mpr h

theorem about_other {topic other : Topic} (hne : topic ≠ other) {diagnostics : List Diagnostic}
    (h : ∀ d ∈ diagnostics, d.isAbout other = true) : about topic diagnostics = [] := by
  refine List.filter_eq_nil_iff.mpr fun d hd htopic => hne ?_
  have hother := of_decide_eq_true (h d hd)
  rw [of_decide_eq_true htopic] at hother
  exact Option.some.inj hother

/-! ## Problems without their places -/

/-- A problem of a theme, of a list of platforms or of an item, not yet placed in the text.  A
duplicate is told together with the place of the theme that it repeats. -/
inductive Problem where
  | badTheme (rendered : String)
  | unknownTarget (target : String)
  | duplicateTheme (name : String) (first : Span)
  | unknownPlatform (platform : String)
  | hiddenPlatform (platform : String) (path : ItemPath)
  | missingDefault (theme : String)
  | unknownTheme (name : String)
  | missingValue (path : ItemPath)
  | unknownType (marker : String)
  deriving DecidableEq, Repr

namespace Problem

def topic : Problem → Topic
  | .badTheme _ | .unknownTarget _ | .duplicateTheme _ _ => .themes
  | .unknownPlatform _ | .hiddenPlatform _ _ => .platforms
  | .missingDefault _ | .unknownTheme _ | .missingValue _ | .unknownType _ => .items

/-- What is reported of the problem at a place, with the code as it is shown. -/
def placedAt (problem : Problem) (span : Span) : Diagnostic :=
  match problem with
  | .badTheme rendered =>
      ⟨.error, Code.ofText? "E001",
        "Bad theme type: \"" ++ rendered ++ "\". All the themes must be either a string or an object "
          ++ "with a single entry: \x7b$themeName: \x7bimport: $themeToImport\x7d\x7d",
        [⟨span, "not a theme declaration", true⟩], none⟩
  | .unknownTarget target =>
      ⟨.error, Code.ofText? "E002", s!"Unknown theme to import: {target}",
        [⟨span, "must be declared before this theme", true⟩], none⟩
  | .duplicateTheme name first =>
      ⟨.warning, Code.ofText? "E003", s!"Duplicate theme: '{name}'.",
        [⟨span, "already declared above", true⟩, ⟨first, "first declared here", false⟩], none⟩
  | .unknownPlatform platform =>
      ⟨.error, Code.ofText? "E200",
        s!"Unknown platform: '{platform}'. All the platforms must be defined in the '.platforms' array.",
        [⟨span, "not declared at the root", true⟩], none⟩
  | .hiddenPlatform platform path =>
      ⟨.error, Code.ofText? "E201",
        s!"The platform '{platform}' is not accessible in '{path.text}'. "
          ++ "A parent collection must have filtered it out. "
          ++ s!"Verify '{platform}' was included in all the parent collections '.platforms' list.",
        [⟨span, "filtered out by a parent", true⟩], none⟩
  | .missingDefault theme =>
      ⟨.error, Code.ofText? "E100", s!"The default theme '{theme}' must be defined.",
        [⟨span, s!"missing `{theme}`", true⟩],
        some "Every themed item falls back to the first theme in `.themes`."⟩
  | .unknownTheme name =>
      ⟨.error, Code.ofText? "E101",
        s!"Unknown theme: '{name}'. All the themes must be defined in the '.themes' array.",
        [⟨span, "unknown theme", true⟩], none⟩
  | .missingValue path =>
      ⟨.error, Code.ofText? "E102", s!"The shared item '{path.text}' must define a '.value'.",
        [⟨span, "missing `.value`", true⟩], none⟩
  | .unknownType marker =>
      ⟨.error, Code.ofText? "E103",
        s!"Unknown type: '{marker}'. "
          ++ "The type must be one of: int, double, color, fontWeight, bool, brightness.",
        [⟨span, "unsupported type", true⟩], none⟩

theorem isAbout_placedAt (problem : Problem) (span : Span) :
    (problem.placedAt span).isAbout problem.topic = true := by
  cases problem <;> rfl

end Problem

/-- The diagnostics are the problems, in order, each at some place. -/
def Reported (problems : List Problem) (diagnostics : List Diagnostic) : Prop :=
  List.Forall₂ (fun problem d => ∃ span, d = problem.placedAt span) problems diagnostics

namespace Reported

variable {problems others : List Problem} {diagnostics more : List Diagnostic} {topic : Topic}

theorem nil : Reported [] [] :=
  List.Forall₂.nil

theorem singleton (problem : Problem) (span : Span) :
    Reported [problem] [problem.placedAt span] :=
  .cons ⟨span, rfl⟩ .nil

theorem of_option (problem? : Option Problem) (span : Span) :
    Reported problem?.toList (problem?.map (·.placedAt span)).toList := by
  cases problem? with
  | none => exact .nil
  | some problem => exact .singleton problem span

theorem append (h : Reported problems diagnostics) (hmore : Reported others more) :
    Reported (problems ++ others) (diagnostics ++ more) :=
  List.rel_append h hmore

theorem isAbout (h : Reported problems diagnostics) (htopic : ∀ p ∈ problems, p.topic = topic) :
    ∀ d ∈ diagnostics, d.isAbout topic = true := by
  induction h with
  | nil => simp
  | @cons problem d _ _ hhead _ ih =>
      rw [List.forall_mem_cons] at htopic ⊢
      obtain ⟨span, rfl⟩ := hhead
      exact ⟨htopic.1 ▸ problem.isAbout_placedAt span, ih htopic.2⟩

end Reported

/-! ## What each part of a pass reports -/

theorem Themes.build_isAbout (text : List Char) (anchor : Span) (values : List Yaml.Value) :
    ∀ d ∈ (build text anchor values).2, d.isAbout .themes = true :=
  build_reports (fun _ _ => rfl) (fun _ _ _ => rfl) (fun _ _ => rfl) text anchor values

namespace Analysis

theorem readThemes_isAbout {text : List Char} {document : Document} {themes : Themes}
    {diagnostics : List Diagnostic} (h : readThemes text document = .ok (themes, diagnostics)) :
    ∀ d ∈ diagnostics, d.isAbout .themes = true := by
  simp only [readThemes] at h
  split at h
  · cases h
    simp
  · next values _ =>
      simp only [bind_eq_ok, pure_eq_ok] at h
      obtain ⟨anchor, -, h⟩ := h
      have hbuilt := Themes.build_isAbout text anchor values
      rw [h] at hbuilt
      exact hbuilt

def platformProblem? (root inherited : List String) (path : ItemPath) (platform : String) :
    Option Problem :=
  if platform ∉ root then some (.unknownPlatform platform)
  else if platform ∉ inherited then some (.hiddenPlatform platform path)
  else none

/-- The problems with the platforms that a node lists, in the order of the list. -/
def listProblems (root inherited : List String) (path : ItemPath) (own : List String) :
    List Problem :=
  own.filterMap (platformProblem? root inherited path)

theorem topic_of_mem_listProblems {root inherited : List String} {path : ItemPath}
    {own : List String} {p : Problem} (h : p ∈ listProblems root inherited path own) :
    p.topic = .platforms := by
  obtain ⟨platform, -, hp⟩ := List.mem_filterMap.mp h
  rw [platformProblem?] at hp
  split at hp
  · cases hp
    rfl
  · split at hp
    · cases hp
      rfl
    · cases hp

namespace Platforms

theorem check?_eq (setting : Setting) (inherited : List String) (path : ItemPath)
    (platform : String) (span : Span) :
    check? setting inherited path platform span =
      (platformProblem? setting.platforms inherited path platform).map (·.placedAt span) := by
  rw [check?, platformProblem?]
  split
  · rfl
  · split <;> rfl

theorem checkFrom_reported (setting : Setting) (inherited : List String) (path : ItemPath)
    (key : Span) (cursor : Cursor) (own : List String) :
    Reported (listProblems setting.platforms inherited path own)
      (checkFrom setting inherited path key cursor own).2 := by
  induction own generalizing cursor with
  | nil => exact .nil
  | cons platform own ih =>
      have hlist : listProblems setting.platforms inherited path (platform :: own) =
          (platformProblem? setting.platforms inherited path platform).toList ++
            listProblems setting.platforms inherited path own := by
        rw [listProblems, List.filterMap_cons]
        cases platformProblem? setting.platforms inherited path platform <;> rfl
      rw [hlist, checkFrom]
      simp only [check?_eq]
      exact (Reported.of_option _ _).append (ih _)

/-- A check reports the problems of the list, wherever the search for it begins. -/
theorem check_reported {setting : Setting} {own inherited : List String} {path : ItemPath}
    {cursor after : Cursor} {diagnostics : List Diagnostic}
    (h : check setting own inherited path cursor = .ok (after, diagnostics)) :
    Reported (listProblems setting.platforms inherited path own) diagnostics := by
  rw [check] at h
  split at h
  · next hempty =>
      cases h
      rw [List.isEmpty_iff.mp hempty]
      exact .nil
  · simp only [bind_eq_ok, pure_eq_ok] at h
    obtain ⟨key, -, h⟩ := h
    have hreported := checkFrom_reported setting inherited path key (cursor.advanceTo key.stop) own
    rwa [h] at hreported

theorem check_isAbout {setting : Setting} {own inherited : List String} {path : ItemPath}
    {cursor after : Cursor} {diagnostics : List Diagnostic}
    (h : check setting own inherited path cursor = .ok (after, diagnostics)) :
    ∀ d ∈ diagnostics, d.isAbout .platforms = true :=
  (check_reported h).isAbout fun _ hp => topic_of_mem_listProblems hp

end Platforms

theorem EntryFault.report?_isAbout {fault : EntryFault} {setting : Setting} {site : Span}
    {d : Diagnostic} (h : fault.report? setting site = some d) : d.isAbout .values = true := by
  rw [EntryFault.report?] at h
  split at h
  · cases fault <;> simp only [EntryFault.subject?, EntryFault.diagnosticAt?, bind, Option.bind,
      Option.some.injEq, reduceCtorEq] at h <;> subst h <;> rfl
  · cases h

namespace ItemContext

variable {c : ItemContext}

theorem settle_isAbout (site : Option Span) (result : Except EntryFault Value) :
    ∀ d ∈ (c.settle site result).2, d.isAbout .values = true := by
  cases result with
  | ok v => simp [settle]
  | error fault =>
      intro d hd
      simp only [settle, Option.mem_toList, Option.bind_eq_some_iff] at hd
      obtain ⟨span, -, hd⟩ := hd
      exact EntryFault.report?_isAbout hd

theorem resolveThemes_isAbout {type : ItemType} {themes : List String}
    {values : List (String × Value)} {diagnostics : List Diagnostic}
    (h : c.resolveThemes type themes = .ok (values, diagnostics)) :
    ∀ d ∈ diagnostics, d.isAbout .values = true := by
  induction themes generalizing values diagnostics with
  | nil =>
      cases h
      simp
  | cons theme themes ih =>
      rw [resolveThemes] at h
      split at h
      · exact ih h
      · simp only [bind_eq_ok, pure_eq_ok] at h
        obtain ⟨origin, -, ⟨others, rest⟩, hrest, h⟩ := h
        cases h
        exact List.forall_mem_append.mpr ⟨settle_isAbout _ _, ih hrest⟩

/-- Resolving an item reports that a shared value is missing, or problems of values only. -/
theorem resolve_isAbout {type : ItemType} {bundle : Bundle} {diagnostics : List Diagnostic}
    (h : c.resolve type = .ok (bundle, diagnostics)) :
    if c.path.isShared ∧ c.item.entry? Keyword.value = none then diagnostics = [c.missingValue]
    else ∀ d ∈ diagnostics, d.isAbout .values = true := by
  cases hshared : c.path.isShared with
  | true =>
      rw [resolve, if_pos hshared, resolveShared] at h
      split at h
      · next hentry =>
          cases h
          simp [hentry]
      · next entry hentry =>
          simp only [bind_eq_ok, pure_eq_ok] at h
          obtain ⟨key, -, h⟩ := h
          cases h
          simpa [hentry] using settle_isAbout _ _
  | false =>
      rw [resolve, if_neg (by simp [hshared])] at h
      simp only [bind_eq_ok, pure_eq_ok] at h
      obtain ⟨⟨values, rest⟩, hthemes, h⟩ := h
      cases h
      simpa using resolveThemes_isAbout hthemes

end ItemContext

/-- The problem of a themed item that has no entry for the default theme. -/
def defaultProblem? (themes : Themes) (item : Item) : Option Problem :=
  (themes.default?.filter fun name => (item.entry? name).isNone).map .missingDefault

/-- The problems of a themed item with the default theme and with its keys, in key order. -/
def keyProblems (themes : Themes) (item : Item) : List Problem :=
  (defaultProblem? themes item).toList ++
    (item.themeKeys.filter (!themes.contains ·)).map .unknownTheme

def typeProblems (item : Item) : List Problem :=
  match item.type with
  | .error marker => [.unknownType marker]
  | .ok _ => []

/-- A themed item has an entry for the default theme, no keys but themes, and a known type. -/
def themedProblems (themes : Themes) (item : Item) : List Problem :=
  keyProblems themes item ++ typeProblems item

/-- A shared item has a known type and, if so, a value. -/
def sharedProblems (path : ItemPath) (item : Item) : List Problem :=
  match item.type with
  | .error marker => [.unknownType marker]
  | .ok _ => if item.entry? Keyword.value = none then [.missingValue path] else []

/-- The problems of an item other than those of its platforms and of its values. -/
def itemProblems (themes : Themes) (path : ItemPath) (item : Item) : List Problem :=
  if path.isShared then sharedProblems path item else themedProblems themes item

theorem topic_of_mem_keyProblems {themes : Themes} {item : Item} {p : Problem}
    (h : p ∈ keyProblems themes item) : p.topic = .items := by
  rcases List.mem_append.mp h with h | h
  · obtain ⟨name, -, rfl⟩ := Option.map_eq_some_iff.mp (Option.mem_toList.mp h)
    rfl
  · obtain ⟨name, -, rfl⟩ := List.mem_map.mp h
    rfl

namespace ItemContext

variable {c : ItemContext}

theorem missingDefault?_eq (c : ItemContext) :
    c.missingDefault? = (defaultProblem? c.setting.themes c.item).map (·.placedAt c.key) := by
  rw [missingDefault?, defaultProblem?]
  cases c.setting.themes.default? with
  | none => rfl
  | some name =>
      rw [Option.bind_eq_bind, Option.bind_some, Option.filter_some]
      cases c.item.entry? name <;> rfl

theorem unknownThemes_reported {diagnostics : List Diagnostic}
    (h : c.unknownThemes = .ok diagnostics) :
    Reported ((c.item.themeKeys.filter (!c.setting.themes.contains ·)).map .unknownTheme)
      diagnostics := by
  rw [unknownThemes, mapM_eq_ok] at h
  rw [Reported, List.forall₂_map_left_iff]
  refine h.imp fun name d hname => ?_
  simp only [bind_eq_ok, pure_eq_ok] at hname
  obtain ⟨span, -, rfl⟩ := hname
  exact ⟨span, rfl⟩

theorem themeProblems_reported {diagnostics : List Diagnostic}
    (h : c.themeProblems = .ok diagnostics) :
    Reported (if c.path.isShared then [] else keyProblems c.setting.themes c.item) diagnostics := by
  rw [themeProblems] at h
  split at h
  · next hshared =>
      cases h
      rw [if_pos hshared]
      exact .nil
  · next hshared =>
      simp only [bind_eq_ok, pure_eq_ok] at h
      obtain ⟨unknown, hunknown, rfl⟩ := h
      rw [if_neg hshared, missingDefault?_eq]
      exact (Reported.of_option _ _).append (unknownThemes_reported hunknown)

theorem themeProblems_isAbout {diagnostics : List Diagnostic}
    (h : c.themeProblems = .ok diagnostics) : ∀ d ∈ diagnostics, d.isAbout .items = true := by
  refine (themeProblems_reported h).isAbout fun p hp => ?_
  split at hp
  · cases hp
  · exact topic_of_mem_keyProblems hp

theorem badType_reported {marker : String} {problem : Diagnostic}
    (h : c.badType marker = .ok problem) : Reported [.unknownType marker] [problem] := by
  simp only [badType, bind_eq_ok, pure_eq_ok] at h
  obtain ⟨key, -, rfl⟩ := h
  exact .singleton (.unknownType marker) _

/-- What follows the checks of an item: the problem of its type, or what resolving it reports. -/
theorem report_tail {inherited : List String} {r : ItemReport}
    (h : c.report inherited = .ok r) : ∃ platforms themes rest,
      c.Checked inherited platforms themes ∧ r.diagnostics = platforms ++ themes ++ rest ∧
      about .platforms rest = [] ∧
      Reported (if c.path.isShared then sharedProblems c.path c.item else typeProblems c.item)
        (about .items rest) := by
  obtain ⟨-, ⟨marker, hr⟩ | ⟨type, bundle, hr⟩⟩ := report_cases h
  · obtain ⟨platforms, themes, problem, hchecked, hproblem, hdiagnostics⟩ := hr.diagnostics_eq
    have hreported := badType_reported hproblem
    have hisAbout : ∀ d ∈ [problem], d.isAbout .items = true :=
      hreported.isAbout (by simp [Problem.topic])
    refine ⟨platforms, themes, [problem], hchecked, hdiagnostics,
      about_other (by decide) hisAbout, ?_⟩
    rw [sharedProblems, typeProblems, hr.type_eq, about_self hisAbout]
    simpa using hreported
  · -- The type is known, so only a shared item without a value is left to report about.
    obtain ⟨platforms, themes, values, hchecked, hvalues, hdiagnostics⟩ := hr.diagnostics_eq
    have hresolve := resolve_isAbout hvalues
    rw [sharedProblems, typeProblems, hr.type_eq]
    split at hresolve
    · next hmissing =>
        refine ⟨platforms, themes, values, hchecked, hdiagnostics, by rw [hresolve]; rfl, ?_⟩
        simp only [if_pos hmissing.1, if_pos hmissing.2, hresolve]
        exact .singleton (.missingValue c.path) c.key
    · next hpresent =>
        have hnothing : about .items values = [] := about_other (by decide) hresolve
        refine ⟨platforms, themes, values, hchecked, hdiagnostics,
          about_other (by decide) hresolve, ?_⟩
        split
        · next hshared =>
            simp only [if_neg fun hnone => hpresent ⟨hshared, hnone⟩, hnothing]
            exact .nil
        · rw [hnothing]
          exact .nil

theorem report_platforms {inherited : List String} {r : ItemReport}
    (h : c.report inherited = .ok r) :
    Reported (listProblems c.setting.platforms inherited c.path (c.item.platforms.getD []))
      (about .platforms r.diagnostics) := by
  obtain ⟨platforms, themes, rest, ⟨⟨after, hplatforms⟩, hthemes⟩, heq, hrest, -⟩ := report_tail h
  rw [heq, about_append, about_append, about_self (Platforms.check_isAbout hplatforms),
    about_other (by decide) (themeProblems_isAbout hthemes), hrest, List.append_nil, List.append_nil]
  exact Platforms.check_reported hplatforms

theorem report_items {inherited : List String} {r : ItemReport}
    (h : c.report inherited = .ok r) :
    Reported (itemProblems c.setting.themes c.path c.item) (about .items r.diagnostics) := by
  obtain ⟨platforms, themes, rest, ⟨⟨after, hplatforms⟩, hthemes⟩, heq, -, hrest⟩ := report_tail h
  have hnone : about .items platforms = [] :=
    about_other (by decide) (Platforms.check_isAbout hplatforms)
  rw [heq, about_append, about_append, hnone, about_self (themeProblems_isAbout hthemes),
    List.nil_append]
  have hthemes := themeProblems_reported hthemes
  rw [itemProblems]
  split at hthemes
  · next hshared =>
      cases hthemes
      simpa only [if_pos hshared, List.nil_append] using hrest
  · next hshared =>
      simp only [if_neg hshared] at hrest ⊢
      exact hthemes.append hrest

end ItemContext

/-! ## The whole pass -/

/-- What each visit reports about a topic, the whole run reports. -/
theorem Run.about {setting : Setting} {topic : Topic} {expected : Visit → List Problem}
    {visits : List Visit} {f f' : Findings} (hrun : Run setting visits f f')
    (hplatforms : ∀ {own inherited path cursor after diagnostics},
      Visit.platforms own inherited path ∈ visits →
      Platforms.check setting own inherited path cursor = .ok (after, diagnostics) →
      Reported (expected (.platforms own inherited path)) (about topic diagnostics))
    (hitem : ∀ {content inherited path key registry report},
      Visit.item content inherited path ∈ visits →
      ItemContext.report ⟨setting, registry, content, path, key⟩ inherited = .ok report →
      Reported (expected (.item content inherited path)) (about topic report.diagnostics)) :
    ∃ more, DesignTokens.about topic f'.diagnostics =
        DesignTokens.about topic f.diagnostics ++ more ∧
      Reported (visits.flatMap expected) more := by
  induction hrun with
  | nil => exact ⟨[], (List.append_nil _).symm, .nil⟩
  | platforms _ hcheck _ ih =>
      obtain ⟨more, heq, hmore⟩ := ih (fun hmem => hplatforms (List.mem_cons_of_mem _ hmem))
        (fun hmem => hitem (List.mem_cons_of_mem _ hmem))
      refine ⟨_, ?_, (hplatforms List.mem_cons_self hcheck).append hmore⟩
      rw [heq, Findings.addDiagnostics, about_append, List.append_assoc]
  | item hreport _ ih =>
      obtain ⟨more, heq, hmore⟩ := ih (fun hmem => hplatforms (List.mem_cons_of_mem _ hmem))
        (fun hmem => hitem (List.mem_cons_of_mem _ hmem))
      refine ⟨_, ?_, (hitem List.mem_cons_self hreport).append hmore⟩
      rw [heq, Findings.addItem, about_append, List.append_assoc]

/-- What an analysis reports about a topic other than the themes is what its visits report. -/
theorem ofDocument_about {options : Options} {text : List Char} {document : Document} {a : Analysis}
    (h : ofDocument options text document = .ok a) {topic : Topic} (htopic : topic ≠ .themes)
    {expected : Visit → List Problem}
    (hplatforms : ∀ {own inherited path cursor after diagnostics},
      Platforms.check (settingOf options text document a.themes) own inherited path cursor =
        .ok (after, diagnostics) →
      Reported (expected (.platforms own inherited path)) (about topic diagnostics))
    (hitem : ∀ {content inherited path key registry report},
      Visit.item content inherited path ∈ documentVisits a.themes document →
      ItemContext.report ⟨settingOf options text document a.themes, registry, content, path, key⟩
        inherited = .ok report →
      Reported (expected (.item content inherited path)) (about topic report.diagnostics)) :
    Reported ((documentVisits a.themes document).flatMap expected) (about topic a.diagnostics) := by
  obtain ⟨diagnostics, hthemes, -, hrun⟩ := ofDocument_run h
  obtain ⟨more, heq, hmore⟩ := hrun.about (fun _ => hplatforms) hitem
  -- What the run begins with is about the themes.
  have hstart : about topic (Findings.empty.addDiagnostics diagnostics).diagnostics = [] :=
    about_other htopic (readThemes_isAbout hthemes)
  rw [hstart, List.nil_append] at heq
  exact heq ▸ hmore

end Analysis
end DesignTokens
