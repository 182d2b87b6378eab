import DesignTokens.Proofs.Findings

/-!
What the options of a pass change.

A pass that is asked for less finds less of the same: `under` says what is left of the findings of a
pass, and a pass with fewer options finds exactly that (`ofDocument_follows`).  Both passes read the
text in the same way, except that the places of swatches are searched only if they are asked for.
So where one pass fails at such a search, the other may go on.
-/

namespace DesignTokens

namespace Options

/-- Whether a problem is reported: all are, but for literals that are not to be validated. -/
def keeps (options : Options) (d : Diagnostic) : Bool :=
  options.validateLiterals || d.code ≠ some .invalidLiteral

/-- The first options ask for nothing that the second do not ask for. -/
structure Within (few many : Options) : Prop where
  validate : few.validateLiterals = true → many.validateLiterals = true
  decorate : few.decorateColors = true → many.decorateColors = true

theorem within_refl (options : Options) : options.Within options :=
  ⟨id, id⟩

theorem keeps_of_structural (options : Options) {d : Diagnostic} (h : d.Structural) :
    options.keeps d = true := by
  simp [keeps, h.code_ne]

theorem filter_keeps_of_structural (options : Options) {diagnostics : List Diagnostic}
    (h : ∀ d ∈ diagnostics, d.Structural) : diagnostics.filter options.keeps = diagnostics :=
  List.filter_eq_self.mpr fun d hd => options.keeps_of_structural (h d hd)

end Options

namespace Analysis

/-! ## What is left under fewer options -/

def Setting.under (setting : Setting) (options : Options) : Setting :=
  { setting with options := options }

def ItemContext.under (c : ItemContext) (options : Options) : ItemContext :=
  { c with setting := c.setting.under options }

def ItemReport.under (r : ItemReport) (options : Options) : ItemReport :=
  { r with
    diagnostics := r.diagnostics.filter options.keeps
    swatches := if options.decorateColors then r.swatches else []
    hover := if options.decorateColors then r.hover else none }

def Findings.under (f : Findings) (options : Options) : Findings :=
  { f with
    diagnostics := f.diagnostics.filter options.keeps
    decorations := if options.decorateColors then f.decorations else .empty
    hovers := if options.decorateColors then f.hovers else [] }

/-- What is left of the outcome of a pass. -/
def under (a : Analysis) (options : Options) : Analysis :=
  { a with
    diagnostics := a.diagnostics.filter options.keeps
    decorations := if options.decorateColors then a.decorations else .empty
    hovers := if options.decorateColors then a.hovers else [] }

theorem ItemReport.under_mk {options : Options} {structural : List Diagnostic}
    (h : ∀ d ∈ structural, d.Structural) (values : List Diagnostic) (bundle : Option Bundle)
    (swatches : List (Color × Span)) (hover : Option Hover) (next : Nat) :
    ItemReport.under ⟨structural ++ values, bundle, swatches, hover, next⟩ options =
      ⟨structural ++ values.filter options.keeps, bundle,
        if options.decorateColors then swatches else [],
        if options.decorateColors then hover else none, next⟩ := by
  simp only [under, List.filter_append, options.filter_keeps_of_structural h]

theorem Findings.under_addDiagnostics (f : Findings) (diagnostics : List Diagnostic)
    (options : Options) : (f.addDiagnostics diagnostics).under options =
      (f.under options).addDiagnostics (diagnostics.filter options.keeps) := by
  simp [under, addDiagnostics]

theorem Findings.under_addItem (f : Findings) (path : ItemPath) (r : ItemReport)
    (options : Options) :
    (f.addItem path r).under options = (f.under options).addItem path (r.under options) := by
  cases hdecorate : options.decorateColors <;>
    simp [under, addItem, ItemReport.under, decorate, hdecorate]

/-! ## Two passes -/

/-- The second computation gives what `g` makes of the outcome of the first.  If the first fails, so
does the second, in the same way; a second computation that is lax may do anything then. -/
structure Follows {ε α β : Type} (lax : Prop) (g : α → β) (x : Except ε α) (y : Except ε β) :
    Prop where
  ok : ∀ {a}, x = .ok a → y = .ok (g a)
  error : ∀ {e}, x = .error e → lax ∨ y = .error e

namespace Follows

variable {ε α β γ δ : Type} {lax : Prop}

theorem same (x : Except ε α) : Follows lax id x x :=
  ⟨id, .inr⟩

theorem pure {g : α → β} {a : α} {b : β} (h : b = g a) :
    Follows lax g (Pure.pure a : Except ε α) (Pure.pure b) := by
  subst h
  refine ⟨fun hok => ?_, fun herror => by cases herror⟩
  rw [pure_eq_ok.mp hok]
  rfl

theorem bind {g : α → β} {h : γ → δ} {x : Except ε α} {y : Except ε β} {next : α → Except ε γ}
    {next' : β → Except ε δ} (hx : Follows lax g x y)
    (hnext : ∀ a, x = .ok a → Follows lax h (next a) (next' (g a))) :
    Follows lax h (x >>= next) (y >>= next') := by
  cases x with
  | error e =>
      refine ⟨fun hok => (by cases hok), fun herror => ?_⟩
      cases herror
      refine (hx.error rfl).imp id fun hy => ?_
      rw [hy]
      rfl
  | ok a =>
      rw [hx.ok rfl]
      exact hnext a rfl

/-- A lax computation may leave out a step of the first. -/
theorem skip {h : γ → δ} {x : Except ε α} {next : α → Except ε γ} {y : Except ε δ} (hlax : lax)
    (hnext : ∀ a, x = .ok a → Follows lax h (next a) y) : Follows lax h (x >>= next) y := by
  cases x with
  | error e => exact ⟨fun hok => (by cases hok), fun _ => .inl hlax⟩
  | ok a => exact hnext a rfl

theorem eq_map {g : α → β} {x : Except ε α} {y : Except ε β} (h : Follows False g x y) :
    y = x.map g := by
  cases x with
  | error e => exact (h.error rfl).resolve_left id
  | ok a => exact h.ok rfl

end Follows

/-! ## One item -/

section

variable {few : Options}

theorem Platforms.checkFrom_under (setting : Setting) (inherited : List String) (path : ItemPath)
    (key : Span) (cursor : Cursor) (platforms : List String) :
    Platforms.checkFrom (setting.under few) inherited path key cursor platforms =
      Platforms.checkFrom setting inherited path key cursor platforms := by
  induction platforms generalizing cursor with
  | nil => rfl
  | cons platform platforms ih =>
      simp only [Platforms.checkFrom, ih]
      rfl

theorem Platforms.check_under (setting : Setting) (own inherited : List String) (path : ItemPath)
    (cursor : Cursor) : Platforms.check (setting.under few) own inherited path cursor =
      Platforms.check setting own inherited path cursor := by
  simp only [Platforms.check, Platforms.checkFrom_under]

/-- A report that is still wanted stays as it is; one that is not wanted is that of a literal. -/
theorem EntryFault.report?_under (fault : EntryFault) {setting : Setting}
    (hfew : few.Within setting.options) (site : Span) :
    (fault.report? (setting.under few) site).toList =
      (fault.report? setting site).toList.filter few.keeps := by
  cases fault with
  | invalidLiteral written expected =>
      cases hvalidate : few.validateLiterals with
      | true =>
          have hmany := hfew.validate hvalidate
          simp [report?, isWanted, Setting.under, hvalidate, hmany, subject?, diagnosticAt?,
            Options.keeps]
      | false =>
          cases hmany : setting.options.validateLiterals <;>
            simp [report?, isWanted, Setting.under, hvalidate, hmany, subject?, diagnosticAt?,
              Options.keeps, Diagnostic.errorAt]
  | nothingWritten => rfl
  | unresolvedImport => rfl
  | _ =>
      simp [report?, isWanted, Setting.under, subject?, diagnosticAt?, Options.keeps,
        Diagnostic.errorAt]

namespace ItemContext

/-- What is left of a value and the problems with it. -/
def valueUnder {α : Type} (options : Options) (found : α × List Diagnostic) :
    α × List Diagnostic :=
  (found.1, found.2.filter options.keeps)

theorem settle_under {c : ItemContext} (hfew : few.Within c.setting.options) (site : Option Span)
    (result : Except EntryFault Value) :
    (c.under few).settle site result = valueUnder few (c.settle site result) := by
  cases result with
  | ok v => rfl
  | error fault =>
      cases site with
      | none => rfl
      | some site => exact congrArg (Prod.mk none) (fault.report?_under hfew site)

variable {c : ItemContext} {lax : Prop}

/-! Nothing else about an item depends on the options. -/

@[simp] theorem setting_under : (c.under few).setting = c.setting.under few :=
  rfl

@[simp] theorem item_under : (c.under few).item = c.item :=
  rfl

@[simp] theorem path_under : (c.under few).path = c.path :=
  rfl

@[simp] theorem body_under : (c.under few).body = c.body :=
  rfl

@[simp] theorem rawEntry?_under (theme : String) :
    rawEntry? (c.under few) theme = c.rawEntry? theme :=
  rfl

@[simp] theorem themeProblems_under : (c.under few).themeProblems = c.themeProblems :=
  rfl

@[simp] theorem ending_under : (c.under few).ending = c.ending :=
  rfl

@[simp] theorem hover?_under (bundle : Bundle) : (c.under few).hover? bundle = c.hover? bundle :=
  rfl

@[simp] theorem swatches_under (cursor : Cursor) (keys : List String) :
    (c.under few).swatches cursor keys = c.swatches cursor keys := by
  induction keys generalizing cursor with
  | nil => rfl
  | cons key keys ih =>
      simp only [swatches, item_under, ih]
      rfl

theorem resolveShared_follows (hfew : few.Within c.setting.options) (type : ItemType) :
    Follows lax (valueUnder few) (c.resolveShared type) ((c.under few).resolveShared type) := by
  rw [resolveShared, resolveShared, item_under]
  cases c.item.entry? Keyword.value with
  | none =>
      refine Follows.pure ?_
      rw [valueUnder, few.filter_keeps_of_structural]
      · rfl
      · intro d hd
        rw [List.mem_singleton.mp hd]
        exact missingValue_structural c
  | some entry =>
      refine (Follows.same _).bind fun key _ => ?_
      rw [settle_under hfew]
      exact Follows.pure rfl

theorem resolveThemes_follows (hfew : few.Within c.setting.options) (type : ItemType)
    (themes : List String) :
    Follows lax (valueUnder few) (c.resolveThemes type themes)
      ((c.under few).resolveThemes type themes) := by
  induction themes with
  | nil => exact Follows.pure rfl
  | cons theme themes ih =>
      rw [resolveThemes, resolveThemes, rawEntry?_under]
      cases c.rawEntry? theme with
      | none => exact ih
      | some found =>
          refine (Follows.same _).bind fun origin _ => ?_
          simp only [settle_under hfew]
          refine ih.bind fun values _ => Follows.pure ?_
          simp only [valueUnder, List.filter_append]
          rfl

theorem resolve_follows (hfew : few.Within c.setting.options) (type : ItemType) :
    Follows lax (valueUnder few) (c.resolve type) ((c.under few).resolve type) := by
  rw [resolve, resolve, path_under]
  split
  · exact resolveShared_follows hfew type
  · exact (resolveThemes_follows hfew type _).bind fun values _ => Follows.pure rfl

theorem report_follows (hfew : few.Within c.setting.options)
    (hlax : c.setting.options.decorateColors = few.decorateColors ∨ lax) (inherited : List String) :
    Follows lax (·.under few) (c.report inherited) ((c.under few).report inherited) := by
  rw [report, report, setting_under, Platforms.check_under, item_under, path_under, body_under,
    themeProblems_under]
  refine (Follows.same _).bind fun checked hplatforms => ?_
  refine (Follows.same _).bind fun themes hthemes => ?_
  have hchecked : ∀ d ∈ checked.2 ++ themes, d.Structural :=
    Checked.structural ⟨⟨checked.1, hplatforms⟩, hthemes⟩
  cases c.item.type with
  | error marker =>
      refine (Follows.same _).bind fun problem hproblem => ?_
      refine (Follows.same _).bind fun next _ => Follows.pure ?_
      rw [ItemReport.under_mk hchecked, few.filter_keeps_of_structural]
      · simp
      · simpa using badType_structural hproblem
  | ok type =>
      refine (resolve_follows hfew type).bind fun found hfound => ?_
      simp only [swatches_under, ending_under, hover?_under]
      by_cases hdecorated : type = .color ∧ (c.setting.under few).options.decorateColors = true
      · have hon : few.decorateColors = true := hdecorated.2
        have hmany : type = .color ∧ c.setting.options.decorateColors = true :=
          ⟨hdecorated.1, hfew.decorate hon⟩
        simp only [if_pos hmany, if_pos hdecorated]
        refine (Follows.same _).bind fun swatches _ => ?_
        refine (Follows.same _).bind fun next _ => Follows.pure ?_
        rw [ItemReport.under_mk hchecked, if_pos hon, if_pos hon]
        rfl
      · by_cases hmany : type = .color ∧ c.setting.options.decorateColors = true
        · -- The swatches are searched for in the first pass only.
          have hoff : ¬few.decorateColors = true := fun hon => hdecorated ⟨hmany.1, hon⟩
          have hskip : lax := hlax.resolve_left fun hsame => hoff (hsame ▸ hmany.2)
          simp only [if_pos hmany, if_neg hdecorated]
          refine Follows.skip hskip fun swatches _ => ?_
          refine (Follows.same _).bind fun next _ => Follows.pure ?_
          rw [ItemReport.under_mk hchecked, if_neg hoff, if_neg hoff]
          rfl
        · simp only [if_neg hmany, if_neg hdecorated]
          refine (Follows.same _).bind fun swatches hswatches => ?_
          cases hswatches
          refine (Follows.same _).bind fun next _ => Follows.pure ?_
          rw [ItemReport.under_mk hchecked, ite_self, ite_self]
          rfl

end ItemContext

/-! ## The pass -/

mutual

theorem walk_follows {setting : Setting} {lax : Prop} (hfew : few.Within setting.options)
    (hlax : setting.options.decorateColors = few.decorateColors ∨ lax) (inherited : List String)
    (path : ItemPath) (key : Span) (node : Node) (f : Findings) :
    Follows lax (Prod.map id (Findings.under · few)) (walk setting inherited path key node f)
      (walk (setting.under few) inherited path key node (f.under few)) := by
  cases node with
  | item content =>
      rw [walk, walk]
      let c : ItemContext := ⟨setting, f.registry, content, path, key⟩
      refine (c.report_follows hfew hlax inherited).bind fun report _ => Follows.pure ?_
      rw [← Findings.under_addItem]
      rfl
  | collection own members =>
      rw [walk, walk]
      exact walkMembers_follows hfew hlax own inherited path members key.stop f

theorem walkMembers_follows {setting : Setting} {lax : Prop} (hfew : few.Within setting.options)
    (hlax : setting.options.decorateColors = few.decorateColors ∨ lax)
    (own : Option (List String)) (inherited : List String) (path : ItemPath)
    (members : List Member) (offset : Nat) (f : Findings) :
    Follows lax (Prod.map id (Findings.under · few))
      (walkMembers setting own inherited path members offset f)
      (walkMembers (setting.under few) own inherited path members offset (f.under few)) := by
  match members with
  | [] =>
      rw [walkMembers, walkMembers]
      exact Follows.pure rfl
  | .platforms :: members =>
      rw [walkMembers, walkMembers, Platforms.check_under]
      refine (Follows.same _).bind fun found hfound => ?_
      have hkept := few.filter_keeps_of_structural (Platforms.check_structural hfound)
      have hrest := walkMembers_follows hfew hlax own inherited path members found.1.offset
        (f.addDiagnostics found.2)
      rwa [Findings.under_addDiagnostics, hkept] at hrest
  | .child key node :: members =>
      rw [walkMembers, walkMembers]
      refine (Follows.same _).bind fun span _ => ?_
      refine (walk_follows hfew hlax _ _ span node f).bind fun found _ => ?_
      exact walkMembers_follows hfew hlax own inherited path members found.1 found.2

end

theorem walkSection_follows (setting : Setting) {lax : Prop} (hfew : few.Within setting.options)
    (hlax : setting.options.decorateColors = few.decorateColors ∨ lax) (key : String)
    (path : ItemPath) (node : Option Node) (f : Findings) :
    Follows lax (Findings.under · few) (walkSection setting key path node f)
      (walkSection (setting.under few) key path node (f.under few)) := by
  cases node with
  | none => exact Follows.pure rfl
  | some node =>
      rw [walkSection, walkSection]
      refine (Follows.same _).bind fun span _ => ?_
      exact (walk_follows hfew hlax _ path span node f).bind fun found _ => Follows.pure rfl

end

/-- A pass with fewer options finds what these leave of the findings.  It fails as the other pass
does, unless that one was asked for swatches. -/
theorem ofDocument_follows {few many : Options} {lax : Prop} (hfew : few.Within many)
    (hlax : many.decorateColors = few.decorateColors ∨ lax) (text : List Char)
    (document : Document) :
    Follows lax (under · few) (ofDocument many text document) (ofDocument few text document) := by
  rw [ofDocument, ofDocument]
  refine (Follows.same _).bind fun read hread => ?_
  let setting : Setting := ⟨text, many, read.1, document.platforms.getD []⟩
  have hstart : (Findings.empty.addDiagnostics read.2).under few =
      Findings.empty.addDiagnostics read.2 := by
    rw [Findings.under_addDiagnostics,
      few.filter_keeps_of_structural (readThemes_structural hread)]
    simp [Findings.under, Findings.empty]
  have hshared := walkSection_follows setting hfew hlax Keyword.shared .shared document.shared
    (Findings.empty.addDiagnostics read.2)
  rw [hstart] at hshared
  refine hshared.bind fun f _ => ?_
  exact (walkSection_follows setting hfew hlax Keyword.themed .themed _ f).bind
    fun g _ => Follows.pure rfl

theorem ofText_follows {few many : Options} {lax : Prop} (hfew : few.Within many)
    (hlax : many.decorateColors = few.decorateColors ∨ lax) (text : List Char) :
    Follows lax (under · few) (ofText many text) (ofText few text) := by
  rw [ofText, ofText]
  cases Document.ofText text with
  | error fault => exact ⟨fun hok => (by cases hok), .inr⟩
  | ok document =>
      have hfollows := ofDocument_follows hfew hlax text document
      simp only
      cases hmany : ofDocument many text document with
      | error error =>
          refine ⟨fun hok => (by cases hok), fun herror => ?_⟩
          refine (hfollows.error hmany).imp id fun hfails => ?_
          rw [hfails]
          exact herror
      | ok a =>
          rw [hfollows.ok hmany]
          exact Follows.pure rfl

/-- A pass has nothing to find that its own options leave out. -/
theorem under_self {options : Options} {text : List Char} {a : Analysis}
    (ha : ofText options text = .ok a) : a.under options = a := by
  have hfollows : Follows False (under · options) (ofText options text) (ofText options text) :=
    ofText_follows options.within_refl (.inl rfl) text
  exact Except.ok.inj ((hfollows.ok ha).symm.trans ha)

/-! ## The theorem -/

/-- An outcome without the reports of literals that are no value of their type. -/
def withoutInvalidLiterals (a : Analysis) : Analysis :=
  { a with diagnostics := a.diagnostics.filter (·.code ≠ some .invalidLiteral) }

/-- An outcome without swatches and hovers. -/
def withoutDecorations (a : Analysis) : Analysis :=
  { a with decorations := .empty, hovers := [] }

theorem under_of_validated {a : Analysis} {decorate : Bool} (h : a.under ⟨true, decorate⟩ = a) :
    a.under ⟨false, decorate⟩ = a.withoutInvalidLiterals := by
  rw [← h]
  cases decorate <;> simp [under, withoutInvalidLiterals, Options.keeps]

theorem under_of_decorated {a : Analysis} {validate : Bool} (h : a.under ⟨validate, true⟩ = a) :
    a.under ⟨validate, false⟩ = a.withoutDecorations := by
  have hkept : a.diagnostics.filter (Options.keeps ⟨validate, false⟩) = a.diagnostics :=
    congrArg diagnostics h
  simp [under, withoutDecorations, hkept]

/-- The options only decide what is shown.  With and without the validation of literals a pass fails
alike or finds the same, but for the reports of invalid literals.  A pass that succeeds with swatches
and hovers finds without them all the rest, and a pass without them has none. -/
theorem options_only_filter (text : List Char) :
    (∀ decorate, ofText ⟨false, decorate⟩ text =
      (ofText ⟨true, decorate⟩ text).map withoutInvalidLiterals) ∧
    (∀ validate a, ofText ⟨validate, true⟩ text = .ok a →
      ofText ⟨validate, false⟩ text = .ok a.withoutDecorations) ∧
    ∀ validate a, ofText ⟨validate, false⟩ text = .ok a →
      a.decorations = .empty ∧ a.hovers = [] := by
  refine ⟨fun decorate => ?_, fun validate a ha => ?_, fun validate a ha => ?_⟩
  · have hwithin : Options.Within ⟨false, decorate⟩ ⟨true, decorate⟩ := ⟨fun _ => rfl, id⟩
    rw [(ofText_follows hwithin (.inl rfl) text).eq_map]
    cases ha : ofText ⟨true, decorate⟩ text with
    | error error => rfl
    | ok a => exact congrArg Except.ok (under_of_validated (under_self ha))
  · have hwithin : Options.Within ⟨validate, false⟩ ⟨validate, true⟩ := ⟨id, fun _ => rfl⟩
    have hfollows : Follows True _ _ _ := ofText_follows hwithin (.inr trivial) text
    rw [hfollows.ok ha, under_of_decorated (under_self ha)]
  · rw [← under_self ha]
    exact ⟨rfl, rfl⟩

/-- A color with a hover, and an integer that is none. -/
def noisyText : List Char :=
  (".themes: [t]\n.themed:\n a:\n  .type: color\n  t: ff102030\n b:\n  .type: int\n"
    ++ "  t: x\n").toList

theorem noisyText_filtered : ∃ a, ofText ⟨true, true⟩ noisyText = .ok a ∧
    a.diagnostics.map (·.code) = [some .invalidLiteral] ∧ a.hovers.map (·.path) = ["a"] ∧
    ofText ⟨false, true⟩ noisyText = .ok a.withoutInvalidLiterals ∧
    ofText ⟨true, false⟩ noisyText = .ok a.withoutDecorations ∧
    ofText ⟨false, false⟩ noisyText = .ok a.withoutInvalidLiterals.withoutDecorations := by
  have hpasses : passes ⟨true, true⟩ noisyText (fun _ a =>
      decide (a.diagnostics.map (·.code) = [some .invalidLiteral] ∧
        a.hovers.map (·.path) = ["a"])) = true := by
    decide +kernel
  obtain ⟨document, a, -, ha, htest⟩ := passes_iff.mp hpasses
  obtain ⟨hcodes, hpaths⟩ := of_decide_eq_true htest
  obtain ⟨hvalidate, hdecorate, -⟩ := options_only_filter noisyText
  have hfiltered : ofText ⟨false, true⟩ noisyText = .ok a.withoutInvalidLiterals := by
    rw [hvalidate true, ha]
    rfl
  exact ⟨a, ha, hcodes, hpaths, hfiltered, hdecorate true a ha, hdecorate false _ hfiltered⟩

end Analysis
end DesignTokens
