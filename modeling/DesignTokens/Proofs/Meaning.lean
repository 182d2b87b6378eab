import DesignTokens.Proofs.Equality
import DesignTokens.Proofs.Findings
import DesignTokens.Proofs.Themes

/-!
The text decides places, not meaning.

Two texts that are read as the same document are analyzed side by side.  Every search gives two
places that have nothing to do with each other, so the simulation keeps only what does not mention
places: equal themes and registries, problems of equal severity, code and message, hovers with equal
paths and colors.  The one exception is how a number is written, which the text does decide: it
shows in the message about an invalid literal, and in the value of a color written as a number.
-/

namespace DesignTokens

namespace Diagnostic

/-- The same problem, wherever it is.  The message about an invalid literal quotes the text. -/
structure Similar (d e : Diagnostic) : Prop where
  severity : d.severity = e.severity
  code : d.code = e.code
  message : d.code ≠ some .invalidLiteral → d.message = e.message

theorem errorAt_similar (code : Code) (message : String) (span span' : Span) (label : String) :
    Similar (errorAt code message span label) (errorAt code message span' label) :=
  ⟨rfl, rfl, fun _ => rfl⟩

end Diagnostic

/-- The same problems in the same order. -/
abbrev SimilarList : List Diagnostic → List Diagnostic → Prop :=
  List.Forall₂ Diagnostic.Similar

theorem SimilarList.append {ds es ds' es' : List Diagnostic} (h : SimilarList ds es)
    (h' : SimilarList ds' es') : SimilarList (ds ++ ds') (es ++ es') :=
  List.rel_append h h'

/-- A hover without its place. -/
def Hover.content (hover : Hover) : String × List ThemedColor :=
  (hover.path, hover.colors)

namespace Themes

/-- Two readings of the declarations so far agree on what is declared. -/
structure SameDeclared (d e : Declared) : Prop where
  themes : d.themes = e.themes
  names : ∀ name, (d.places.get? name).isSome = (e.places.get? name).isSome
  diagnostics : SimilarList d.diagnostics e.diagnostics

theorem SameDeclared.report {d e : Declared} (h : SameDeclared d e) {x y : Diagnostic}
    (hxy : x.Similar y) : SameDeclared (d.report x) (e.report y) :=
  ⟨h.themes, h.names, h.diagnostics.append (.cons hxy .nil)⟩

theorem SameDeclared.find {d e : Declared} (h : SameDeclared d e) (word : String)
    (otherwise otherwise' : Span) :
    SameDeclared (d.find word otherwise).2 (e.find word otherwise').2 :=
  ⟨h.themes, h.names, h.diagnostics⟩

theorem SameDeclared.declare {d e : Declared} (h : SameDeclared d e) (anchor anchor' : Span)
    (value : Yaml.Value) : SameDeclared (d.declare anchor value) (e.declare anchor' value) := by
  simp only [Declared.declare]
  cases Declaration.ofValue? value with
  | none => exact (h.find _ anchor anchor').report (Diagnostic.errorAt_similar _ _ _ _ _)
  | some declaration =>
      have hfound := h.find declaration.name anchor anchor'
      have hplaces := hfound.names declaration.name
      have hthemes := hfound.themes
      simp only [hthemes]
      -- Whether the name has a place decides the branch, and both sides have one or neither does.
      cases hd : (d.find declaration.name anchor).2.places.get? declaration.name with
      | some first =>
          rw [hd] at hplaces
          obtain ⟨first', he⟩ := Option.isSome_iff_exists.mp hplaces.symm
          simp only [he]
          exact hfound.report ⟨rfl, rfl, fun _ => rfl⟩
      | none =>
          rw [hd] at hplaces
          have he := Option.isSome_eq_false_iff.mp hplaces.symm
          rw [Option.isNone_iff_eq_none] at he
          simp only [he]
          cases declaration.target?.filter
              (!(e.find declaration.name anchor').2.themes.contains ·) with
          | some target =>
              exact (hfound.find target _ _).report (Diagnostic.errorAt_similar _ _ _ _ _)
          | none =>
              refine ⟨rfl, fun name => ?_, hfound.diagnostics⟩
              simp only [OrderedMap.get?_insert]
              split
              · rfl
              · exact hfound.names name

theorem build_similar (text text' : List Char) (anchor anchor' : Span) (values : List Yaml.Value) :
    (build text anchor values).1 = (build text' anchor' values).1 ∧
      SimilarList (build text anchor values).2 (build text' anchor' values).2 := by
  suffices hgen : ∀ d e : Declared, SameDeclared d e →
      SameDeclared (values.foldl (Declared.declare anchor) d)
        (values.foldl (Declared.declare anchor') e) by
    have h := hgen ⟨empty, .empty, ⟨text, anchor.stop⟩, []⟩ ⟨empty, .empty, ⟨text', anchor'.stop⟩, []⟩
      ⟨rfl, fun _ => rfl, .nil⟩
    exact ⟨h.themes, h.diagnostics⟩
  induction values with
  | nil => exact fun d e h => h
  | cons value values ih => exact fun d e h => ih _ _ (h.declare anchor anchor' value)

end Themes

namespace Analysis

theorem readThemes_similar {text text' : List Char} {document : Document} {themes themes' : Themes}
    {ds es : List Diagnostic} (h : readThemes text document = .ok (themes, ds))
    (h' : readThemes text' document = .ok (themes', es)) : themes = themes' ∧ SimilarList ds es := by
  simp only [readThemes] at h h'
  cases hvalues : document.themes with
  | none =>
      rw [hvalues] at h h'
      cases h
      cases h'
      exact ⟨rfl, .nil⟩
  | some values =>
      rw [hvalues] at h h'
      simp only [bind_eq_ok, pure_eq_ok] at h h'
      obtain ⟨anchor, -, h⟩ := h
      obtain ⟨anchor', -, h'⟩ := h'
      have hbuilt := Themes.build_similar text text' anchor anchor' values
      rw [h, h'] at hbuilt
      exact hbuilt

/-! ## Platforms -/

/-- Two settings that differ only in the text. -/
structure SameSetting (s t : Setting) : Prop where
  options : s.options = t.options
  themes : s.themes = t.themes
  platforms : s.platforms = t.platforms

theorem Platforms.check?_similar {s t : Setting} (h : SameSetting s t) (inherited : List String)
    (path : ItemPath) (platform : String) (span span' : Span) :
    SimilarList (Platforms.check? s inherited path platform span).toList
      (Platforms.check? t inherited path platform span').toList := by
  simp only [Platforms.check?, h.platforms]
  split
  · exact .cons (Diagnostic.errorAt_similar _ _ _ _ _) .nil
  · split
    · exact .cons (Diagnostic.errorAt_similar _ _ _ _ _) .nil
    · exact .nil

theorem Platforms.checkFrom_similar {s t : Setting} (h : SameSetting s t) (inherited : List String)
    (path : ItemPath) (key key' : Span) (cursor cursor' : Cursor) (platforms : List String) :
    SimilarList (Platforms.checkFrom s inherited path key cursor platforms).2
      (Platforms.checkFrom t inherited path key' cursor' platforms).2 := by
  induction platforms generalizing cursor cursor' with
  | nil => exact .nil
  | cons platform platforms ih =>
      exact (Platforms.check?_similar h inherited path platform _ _).append (ih _ _)

theorem Platforms.check_similar {s t : Setting} (h : SameSetting s t) {own inherited : List String}
    {path : ItemPath} {cursor cursor' after after' : Cursor} {ds es : List Diagnostic}
    (hs : Platforms.check s own inherited path cursor = .ok (after, ds))
    (ht : Platforms.check t own inherited path cursor' = .ok (after', es)) : SimilarList ds es := by
  simp only [Platforms.check] at hs ht
  split at hs
  · next hown =>
      rw [if_pos hown] at ht
      cases hs
      cases ht
      exact .nil
  · next hown =>
      rw [if_neg hown] at ht
      simp only [bind_eq_ok, pure_eq_ok] at hs ht
      obtain ⟨key, -, hs⟩ := hs
      obtain ⟨key', -, ht⟩ := ht
      have hfrom := Platforms.checkFrom_similar h inherited path key key'
        (cursor.advanceTo key.stop) (cursor'.advanceTo key'.stop) own
      rw [hs, ht] at hfrom
      exact hfrom

/-! ## Entries -/

/-- Whether an entry writes its value as a number, directly or behind the key of a literal. -/
def writesNumber : Yaml.Value → Bool
  | .number _ => true
  | .mapping parts =>
      match Yaml.get? Keyword.literal parts with
      | some (.number _) => true
      | _ => false
  | _ => false

/-- The same fault, up to how an invalid literal is written. -/
inductive SameFault : EntryFault → EntryFault → Prop
  | refl (fault : EntryFault) : SameFault fault fault
  | literal (written written' : String) (expected : ItemType) :
      SameFault (.invalidLiteral written expected) (.invalidLiteral written' expected)

/-- The same value, or the same fault. -/
inductive SameResult : Except EntryFault Value → Except EntryFault Value → Prop
  | ok (v : Value) : SameResult (.ok v) (.ok v)
  | error {fault fault' : EntryFault} :
      SameFault fault fault' → SameResult (.error fault) (.error fault')

theorem SameResult.refl (result : Except EntryFault Value) : SameResult result result := by
  cases result with
  | ok v => exact .ok v
  | error fault => exact .error (.refl fault)

/-- How a literal is written matters only for a color written as a number. -/
theorem castLiteral_indep {literal : Yaml.Value} {type : ItemType}
    (h : type = .color → ∀ n, literal ≠ .number n) (written written' : String) :
    castLiteral literal written type = castLiteral literal written' type := by
  cases type with
  | color =>
      cases literal with
      | number n => exact absurd rfl (h rfl n)
      | _ => rfl
  | _ => rfl

namespace EntryContext

variable (c : EntryContext) (text : List Char)

theorem cast_similar {literal : Yaml.Value} (h : c.type = .color → ∀ n, literal ≠ .number n)
    (origin origin' : Option Span) :
    SameResult (c.cast literal origin) (EntryContext.cast { c with text := text } literal origin') := by
  simp only [cast]
  rw [castLiteral_indep h (literalText c.text literal origin) (literalText text literal origin')]
  cases castLiteral literal (literalText text literal origin') c.type with
  | some v => exact .ok v
  | none => exact .error (.literal _ _ _)

/-- An entry that writes no color as a number has the same value in every text and at every place. -/
theorem resolve_similar {entry : Yaml.Value} (h : c.type = .color → writesNumber entry = false)
    (key : String) (origin origin' : Span) :
    SameResult (c.resolve entry key origin)
      (EntryContext.resolve { c with text := text } entry key origin') := by
  cases entry with
  | mapping parts =>
      simp only [resolve]
      cases Yaml.get? Keyword.importKey parts with
      | some path => exact SameResult.refl _
      | none =>
          cases hliteral : (Yaml.get? Keyword.literal parts).filter (!·.isNull) with
          | none => exact SameResult.refl _
          | some literal =>
              have hnumber : c.type = .color → ∀ n, literal ≠ .number n := by
                rintro hcolor n rfl
                have hwritten := h hcolor
                have hget : Yaml.get? Keyword.literal parts = some (.number n) :=
                  (Option.filter_eq_some_iff.mp hliteral).1
                simp [writesNumber, hget] at hwritten
              have hcast := c.cast_similar text hnumber
                (Locate.literal? c.text origin.stop Keyword.literal)
                (Locate.literal? text origin'.stop Keyword.literal)
              simp only [bind, Except.bind]
              generalize c.cast literal (Locate.literal? c.text origin.stop Keyword.literal) = r
                at hcast
              generalize EntryContext.cast { c with text := text } literal
                (Locate.literal? text origin'.stop Keyword.literal) = r' at hcast
              cases hcast with
              | ok v => exact SameResult.refl _
              | error hfault => exact .error hfault
  | number n => exact c.cast_similar text (fun hcolor => absurd (h hcolor) (by simp [writesNumber])) _ _
  | null => exact c.cast_similar text (by simp) _ _
  | bool b => exact c.cast_similar text (by simp) _ _
  | string s => exact c.cast_similar text (by simp) _ _
  | sequence items => exact c.cast_similar text (by simp) _ _
  | tagged tag v => exact c.cast_similar text (by simp) _ _

end EntryContext

theorem EntryFault.report?_literal {s t : Setting} (hst : SameSetting s t)
    (written written' : String) (expected : ItemType) (site site' : Span) :
    SimilarList ((EntryFault.invalidLiteral written expected).report? s site).toList
      ((EntryFault.invalidLiteral written' expected).report? t site').toList := by
  rw [EntryFault.report?, EntryFault.report?, hst.options]
  by_cases hwanted : t.options.validateLiterals = true
  · rw [if_pos (show EntryFault.isWanted t.options (.invalidLiteral written expected) = true
      from hwanted), if_pos (show EntryFault.isWanted t.options (.invalidLiteral written' expected) =
      true from hwanted)]
    exact .cons ⟨rfl, rfl, fun hcode => absurd rfl hcode⟩ .nil
  · rw [if_neg (show ¬EntryFault.isWanted t.options (.invalidLiteral written expected) = true
      from hwanted), if_neg (show ¬EntryFault.isWanted t.options (.invalidLiteral written' expected) =
      true from hwanted)]
    exact .nil

theorem EntryFault.report?_similar {fault fault' : EntryFault} (h : SameFault fault fault')
    {s t : Setting} (hst : SameSetting s t) (site site' : Span) :
    SimilarList (fault.report? s site).toList (fault'.report? t site').toList := by
  cases h with
  | literal written written' expected =>
      exact EntryFault.report?_literal hst written written' expected site site'
  | refl fault =>
      cases fault with
      | invalidLiteral written expected =>
          exact EntryFault.report?_literal hst written written expected site site'
      | nothingWritten => exact .nil
      | unresolvedImport => exact .nil
      | _ => exact .cons (Diagnostic.errorAt_similar _ _ _ _ _) .nil

/-! ## Items -/

namespace ItemContext

/-- The same item after the same items, in two texts. -/
structure SameContext (c e : ItemContext) : Prop where
  setting : SameSetting c.setting e.setting
  registry : c.registry = e.registry
  item : c.item = e.item
  path : c.path = e.path

/-- No entry that the item uses writes a color as a number. -/
def PlainColors (item : Item) (themes : Themes) : Prop :=
  item.type = .ok .color → ∀ key ∈ Keyword.value :: themes.names, ∀ entry ∈ item.entry? key,
    writesNumber entry = false

theorem settle_similar {c e : ItemContext} (h : SameContext c e) (site site' : Option Span)
    (hsite : site.isSome = site'.isSome) {result result' : Except EntryFault Value}
    (hresult : SameResult result result') :
    (c.settle site result).1 = (e.settle site' result').1 ∧
      SimilarList (c.settle site result).2 (e.settle site' result').2 := by
  cases hresult with
  | ok v => exact ⟨rfl, .nil⟩
  | error hfault =>
      refine ⟨rfl, ?_⟩
      simp only [settle]
      cases site with
      | none =>
          have hnone : site' = none := by simpa using hsite.symm
          rw [hnone]
          exact .nil
      | some span =>
          obtain ⟨span', hspan'⟩ := Option.isSome_iff_exists.mp hsite.symm
          rw [hspan']
          exact EntryFault.report?_similar hfault h.setting span span'

theorem resolveEntry_similar {c e : ItemContext} (h : SameContext c e) {type : ItemType}
    {entry : Yaml.Value} (hnumber : type = .color → writesNumber entry = false) (key : String)
    (origin origin' : Span) :
    SameResult ((c.entryContext type).resolve entry key origin)
      ((e.entryContext type).resolve entry key origin') := by
  have hcontext : e.entryContext type = { c.entryContext type with text := e.setting.text } := by
    rw [entryContext, entryContext, h.registry, h.path]
  rw [hcontext]
  exact (c.entryContext type).resolve_similar e.setting.text hnumber key origin origin'

theorem resolveShared_similar {c e : ItemContext} (h : SameContext c e) {type : ItemType}
    (hplain : PlainColors c.item c.setting.themes) (htype : c.item.type = .ok type)
    {bundle bundle' : Bundle} {ds es : List Diagnostic}
    (hc : c.resolveShared type = .ok (bundle, ds)) (he : e.resolveShared type = .ok (bundle', es)) :
    bundle = bundle' ∧ SimilarList ds es := by
  simp only [resolveShared, ← h.item] at hc he
  cases hentry : c.item.entry? Keyword.value with
  | none =>
      rw [hentry] at hc he
      cases hc
      cases he
      refine ⟨rfl, .cons ?_ .nil⟩
      rw [missingValue, missingValue, h.path]
      exact Diagnostic.errorAt_similar _ _ _ _ _
  | some entry =>
      rw [hentry] at hc he
      simp only [bind_eq_ok, pure_eq_ok] at hc he
      obtain ⟨key, -, hc⟩ := hc
      obtain ⟨key', -, he⟩ := he
      have hnumber : type = .color → writesNumber entry = false := by
        rintro rfl
        exact hplain htype Keyword.value List.mem_cons_self entry hentry
      obtain ⟨hvalue, hdiagnostics⟩ := settle_similar h (some key) (some key') rfl
        (resolveEntry_similar h hnumber Keyword.value key key')
      cases hc
      cases he
      exact ⟨by rw [hvalue], hdiagnostics⟩

theorem rawEntry?_similar {c e : ItemContext} (h : SameContext c e) (theme : String) :
    c.rawEntry? theme = e.rawEntry? theme := by
  unfold rawEntry?
  rw [h.setting.themes, h.item]

theorem resolveThemes_similar {c e : ItemContext} (h : SameContext c e) {type : ItemType}
    (hordered : c.setting.themes.Ordered) (hplain : PlainColors c.item c.setting.themes)
    (htype : c.item.type = .ok type) {themes : List String}
    (hthemes : ∀ theme ∈ themes, theme ∈ c.setting.themes.names)
    {values values' : List (String × Value)} {ds es : List Diagnostic}
    (hc : c.resolveThemes type themes = .ok (values, ds))
    (he : e.resolveThemes type themes = .ok (values', es)) :
    values = values' ∧ SimilarList ds es := by
  induction themes generalizing values values' ds es with
  | nil =>
      cases hc
      cases he
      exact ⟨rfl, .nil⟩
  | cons theme themes ih =>
      have hrest : ∀ other ∈ themes, other ∈ c.setting.themes.names :=
        fun other hother => hthemes other (List.mem_cons_of_mem _ hother)
      simp only [resolveThemes, ← rawEntry?_similar h] at hc he
      cases hraw : c.rawEntry? theme with
      | none =>
          rw [hraw] at hc he
          exact ih hrest hc he
      | some found =>
          obtain ⟨entry, under⟩ := found
          rw [hraw] at hc he
          simp only [bind_eq_ok, pure_eq_ok] at hc he
          obtain ⟨origin, -, ⟨others, rest⟩, hothers, hc⟩ := hc
          obtain ⟨origin', -, ⟨others', rest'⟩, hothers', he⟩ := he
          obtain ⟨hvalues, hdiagnostics⟩ := ih hrest hothers hothers'
          obtain ⟨hunder, hentry⟩ := rawEntry?_eq_some hordered (hthemes theme List.mem_cons_self) hraw
          have hnumber : type = .color → writesNumber entry = false := by
            rintro rfl
            exact hplain htype under (List.mem_cons_of_mem _ hunder) entry hentry
          have hsite : (if under = theme then some origin else none).isSome =
              (if under = theme then some origin' else none).isSome := by
            split <;> rfl
          obtain ⟨hvalue, hhere⟩ := settle_similar h _ _ hsite
            (resolveEntry_similar h hnumber theme origin origin')
          cases hc
          cases he
          exact ⟨by rw [hvalue, hvalues], hhere.append hdiagnostics⟩

theorem resolve_similar {c e : ItemContext} (h : SameContext c e) {type : ItemType}
    (hordered : c.setting.themes.Ordered) (hplain : PlainColors c.item c.setting.themes)
    (htype : c.item.type = .ok type) {bundle bundle' : Bundle} {ds es : List Diagnostic}
    (hc : c.resolve type = .ok (bundle, ds)) (he : e.resolve type = .ok (bundle', es)) :
    bundle = bundle' ∧ SimilarList ds es := by
  simp only [resolve, ← h.path, ← h.setting.themes] at hc he
  split at hc
  · next hshared =>
      rw [if_pos hshared] at he
      exact resolveShared_similar h hplain htype hc he
  · next hshared =>
      rw [if_neg hshared] at he
      simp only [bind_eq_ok, pure_eq_ok] at hc he
      obtain ⟨⟨values, rest⟩, hvalues, hc⟩ := hc
      obtain ⟨⟨values', rest'⟩, hvalues', he⟩ := he
      obtain ⟨heq, hdiagnostics⟩ := resolveThemes_similar h hordered hplain htype (fun _ => id)
        hvalues hvalues'
      cases hc
      cases he
      exact ⟨by rw [heq], hdiagnostics⟩

theorem missingDefault?_similar {c e : ItemContext} (h : SameContext c e) :
    SimilarList c.missingDefault?.toList e.missingDefault?.toList := by
  simp only [missingDefault?, h.setting.themes, h.item]
  cases e.setting.themes.default? with
  | none => exact .nil
  | some name =>
      simp only [bind, Option.bind_some]
      split
      · exact .nil
      · exact .cons ⟨rfl, rfl, fun _ => rfl⟩ .nil

theorem unknownThemes_similar {c e : ItemContext} (h : SameContext c e) {ds es : List Diagnostic}
    (hc : c.unknownThemes = .ok ds) (he : e.unknownThemes = .ok es) : SimilarList ds es := by
  rw [unknownThemes, mapM_eq_ok] at hc he
  rw [← h.item, ← h.setting.themes] at he
  generalize c.item.themeKeys.filter (!c.setting.themes.contains ·) = names at hc he
  induction hc generalizing es with
  | nil =>
      cases he
      exact .nil
  | cons hname _ ih =>
      obtain ⟨y, ys, hname', hrest, rfl⟩ := List.forall₂_cons_left_iff.mp he
      simp only [bind_eq_ok, pure_eq_ok] at hname hname'
      obtain ⟨span, -, rfl⟩ := hname
      obtain ⟨span', -, rfl⟩ := hname'
      exact .cons (Diagnostic.errorAt_similar _ _ _ _ _) (ih hrest)

theorem checked_similar {c e : ItemContext} (h : SameContext c e) {inherited : List String}
    {platforms platforms' themes themes' : List Diagnostic}
    (hc : c.Checked inherited platforms themes) (he : e.Checked inherited platforms' themes') :
    SimilarList (platforms ++ themes) (platforms' ++ themes') := by
  obtain ⟨⟨after, hplatforms⟩, hthemes⟩ := hc
  obtain ⟨⟨after', hplatforms'⟩, hthemes'⟩ := he
  rw [← h.item, ← h.path] at hplatforms'
  refine (Platforms.check_similar h.setting hplatforms hplatforms').append ?_
  simp only [themeProblems, ← h.path] at hthemes hthemes'
  split at hthemes
  · next hshared =>
      rw [if_pos hshared] at hthemes'
      cases hthemes
      cases hthemes'
      exact .nil
  · next hshared =>
      rw [if_neg hshared] at hthemes'
      simp only [bind_eq_ok, pure_eq_ok] at hthemes hthemes'
      obtain ⟨unknown, hunknown, rfl⟩ := hthemes
      obtain ⟨unknown', hunknown', rfl⟩ := hthemes'
      exact (missingDefault?_similar h).append (unknownThemes_similar h hunknown hunknown')

theorem hover?_similar {c e : ItemContext} (h : SameContext c e) (bundle : Bundle) :
    (c.hover? bundle).toList.map Hover.content = (e.hover? bundle).toList.map Hover.content := by
  simp only [hover?, h.path, h.setting.themes]
  split <;> rfl

theorem report_similar {c e : ItemContext} (h : SameContext c e)
    (hordered : c.setting.themes.Ordered) (hplain : PlainColors c.item c.setting.themes)
    {inherited : List String} {r r' : ItemReport} (hc : c.report inherited = .ok r)
    (he : e.report inherited = .ok r') :
    r.bundle = r'.bundle ∧ SimilarList r.diagnostics r'.diagnostics ∧
      r.hover.toList.map Hover.content = r'.hover.toList.map Hover.content := by
  obtain ⟨-, ⟨marker, hr⟩ | ⟨type, bundle, hr⟩⟩ := report_cases hc <;>
    obtain ⟨-, ⟨marker', hr'⟩ | ⟨type', bundle', hr'⟩⟩ := report_cases he
  · -- Neither type is known.
    obtain ⟨platforms, themes, problem, hchecked, hproblem, hds⟩ := hr.diagnostics_eq
    obtain ⟨platforms', themes', problem', hchecked', hproblem', hes⟩ := hr'.diagnostics_eq
    have hmarker : marker = marker' := by
      have htype := hr'.type_eq
      rw [← h.item, hr.type_eq] at htype
      exact Except.error.inj htype
    rw [hr.bundle_eq, hr'.bundle_eq, hr.hover_eq, hr'.hover_eq, hds, hes]
    refine ⟨rfl, (checked_similar h hchecked hchecked').append (.cons ?_ .nil), rfl⟩
    simp only [badType, bind_eq_ok, pure_eq_ok] at hproblem hproblem'
    obtain ⟨key, -, rfl⟩ := hproblem
    obtain ⟨key', -, rfl⟩ := hproblem'
    rw [hmarker]
    exact Diagnostic.errorAt_similar _ _ _ _ _
  · have htype := hr'.type_eq
    rw [← h.item, hr.type_eq] at htype
    cases htype
  · have htype := hr'.type_eq
    rw [← h.item, hr.type_eq] at htype
    cases htype
  · -- Both types are known, and equal.
    obtain ⟨platforms, themes, values, hchecked, hvalues, hds⟩ := hr.diagnostics_eq
    obtain ⟨platforms', themes', values', hchecked', hvalues', hes⟩ := hr'.diagnostics_eq
    have htype : type = type' := by
      have heq := hr'.type_eq
      rw [← h.item, hr.type_eq] at heq
      exact Except.ok.inj heq
    subst htype
    obtain ⟨hbundle, hdiagnostics⟩ := resolve_similar h hordered hplain hr.type_eq hvalues hvalues'
    subst hbundle
    rw [hr.bundle_eq, hr'.bundle_eq, hr.hover_eq, hr'.hover_eq, hds, hes]
    refine ⟨rfl, (checked_similar h hchecked hchecked').append hdiagnostics, ?_⟩
    have hdecorated : c.Decorated type ↔ e.Decorated type := by
      rw [Decorated, Decorated, h.setting.options]
    by_cases hd : c.Decorated type
    · rw [if_pos hd, if_pos (hdecorated.mp hd)]
      exact hover?_similar h bundle
    · rw [if_neg hd, if_neg (fun he => hd (hdecorated.mpr he))]

end ItemContext

/-! ## Two passes -/

/-- The same findings, up to places. -/
structure SameFindings (f g : Findings) : Prop where
  registry : f.registry = g.registry
  diagnostics : SimilarList f.diagnostics g.diagnostics
  hovers : f.hovers.map Hover.content = g.hovers.map Hover.content

theorem SameFindings.addDiagnostics {f g : Findings} (h : SameFindings f g)
    {ds es : List Diagnostic} (hnew : SimilarList ds es) :
    SameFindings (f.addDiagnostics ds) (g.addDiagnostics es) :=
  ⟨h.registry, h.diagnostics.append hnew, h.hovers⟩

theorem SameFindings.addItem {f g : Findings} (h : SameFindings f g) (path : ItemPath)
    {r r' : ItemReport} (hbundle : r.bundle = r'.bundle)
    (hdiagnostics : SimilarList r.diagnostics r'.diagnostics)
    (hhover : r.hover.toList.map Hover.content = r'.hover.toList.map Hover.content) :
    SameFindings (f.addItem path r) (g.addItem path r') := by
  refine ⟨?_, h.diagnostics.append hdiagnostics, ?_⟩
  · simp only [Findings.addItem, hbundle, h.registry]
  · simp only [Findings.addItem, List.map_append, h.hovers, hhover]

/-- The simulation: two passes along the same visits find the same, up to places. -/
theorem Run.similar {s t : Setting} (hst : SameSetting s t) (hordered : s.themes.Ordered)
    {visits : List Visit} (hplain : ∀ content ∈ visits.filterMap Visit.item?,
      ItemContext.PlainColors content s.themes)
    {f f' g g' : Findings} (hs : Run s visits f f') (ht : Run t visits g g')
    (h : SameFindings f g) : SameFindings f' g' := by
  induction hs generalizing g with
  | nil =>
      cases ht
      exact h
  | platforms _ hcheck _ ih =>
      cases ht with
      | platforms _ hcheck' ht =>
          exact ih hplain ht (h.addDiagnostics (Platforms.check_similar hst hcheck hcheck'))
  | @item content inherited path key report visits f f' hreport _ ih =>
      cases ht with
      | @item _ _ _ key' report' _ _ _ hreport' ht =>
          have hitems : (Visit.item content inherited path :: visits).filterMap Visit.item? =
              content :: visits.filterMap Visit.item? := rfl
          rw [hitems, List.forall_mem_cons] at hplain
          have hcontext : ItemContext.SameContext ⟨s, f.registry, content, path, key⟩
              ⟨t, g.registry, content, path, key'⟩ :=
            ⟨hst, h.registry, rfl, rfl⟩
          obtain ⟨hbundle, hdiagnostics, hhover⟩ := ItemContext.report_similar hcontext hordered
            hplain.1 hreport hreport'
          exact ih hplain.2 ht (h.addItem path hbundle hdiagnostics hhover)

/-! ## Rows of swatches -/

/-- The keys of a grouping with the number of places under each. -/
def tally {α : Type} (m : OrderedMap α (List Span)) : List (α × Nat) :=
  m.entries.map fun (key, spans) => (key, spans.length)

theorem tally_extend {α : Type} [DecidableEq α] {m n : OrderedMap α (List Span)}
    (h : tally m = tally n) (key : α) (span span' : Span) :
    tally (m.extend key [span]) = tally (n.extend key [span']) := by
  obtain ⟨xs⟩ := m
  obtain ⟨ys⟩ := n
  simp only [tally, OrderedMap.extend] at h ⊢
  induction xs generalizing ys with
  | nil =>
      have hys : ys = [] := by simpa using h.symm
      rw [hys]
      rfl
  | cons x xs ih =>
      obtain ⟨k, spans⟩ := x
      cases ys with
      | nil => simp at h
      | cons y ys =>
          obtain ⟨l, spans'⟩ := y
          rw [List.map_cons, List.map_cons, List.cons.injEq, Prod.mk.injEq] at h
          obtain ⟨⟨hkey, hlength⟩, hrest⟩ := h
          simp only at hkey hlength
          subst hkey
          by_cases hk : k = key
          · simp [OrderedMap.put, hk, hlength, hrest]
          · simp only [OrderedMap.put, if_neg hk, List.map_cons, hlength, ih ys hrest]

theorem tally_rowsOf {hovers hovers' : List Hover}
    (h : hovers.map Hover.content = hovers'.map Hover.content) :
    tally (rowsOf hovers) = tally (rowsOf hovers') := by
  suffices hgen : ∀ m n : OrderedMap String (List Span), tally m = tally n →
      tally (hovers.foldl (fun m h => m.extend (Hover.rowKey h.colors) [h.span]) m) =
        tally (hovers'.foldl (fun m h => m.extend (Hover.rowKey h.colors) [h.span]) n) from
    hgen _ _ rfl
  induction hovers generalizing hovers' with
  | nil =>
      have hnil : hovers' = [] := by simpa using h.symm
      rw [hnil]
      exact fun m n hmn => hmn
  | cons hover rest ih =>
      cases hovers' with
      | nil => simp at h
      | cons hover' rest' =>
          rw [List.map_cons, List.map_cons, List.cons.injEq] at h
          have hcolors : hover.colors = hover'.colors := congrArg Prod.snd h.1
          intro m n hmn
          rw [List.foldl_cons, List.foldl_cons, hcolors]
          exact ih h.2 _ _ (tally_extend hmn _ _ _)

/-! ## The theorem -/

/-- Two analyses that say the same about a document, each with places of its own. -/
structure SameMeaning (a b : Analysis) : Prop where
  themes : a.themes = b.themes
  registry : a.registry = b.registry
  diagnostics : SimilarList a.diagnostics b.diagnostics
  hovers : a.hovers.map Hover.content = b.hovers.map Hover.content
  rows : tally a.decorations.multi = tally b.decorations.multi

/-- Texts that are read as the same document mean the same, unless a color is written as a number. -/
theorem sameMeaning_of_same_document {options : Options} {text text' : List Char}
    {document : Document} {a b : Analysis} (hread : Document.ofText text = .ok document)
    (hread' : Document.ofText text' = .ok document) (ha : ofText options text = .ok a)
    (hb : ofText options text' = .ok b)
    (hplain : ∀ item ∈ visitedItems a.themes document, item.type = .ok .color →
      ∀ key ∈ Keyword.value :: a.themes.names, ∀ entry ∈ item.entry? key,
        writesNumber entry = false) :
    SameMeaning a b := by
  obtain ⟨read, hsame, ha⟩ := ofText_eq_ok.mp ha
  cases hread.symm.trans hsame
  obtain ⟨read, hsame, hb⟩ := ofText_eq_ok.mp hb
  cases hread'.symm.trans hsame
  obtain ⟨ds, hthemes, -, hrun⟩ := ofDocument_run ha
  obtain ⟨es, hthemes', -, hrun'⟩ := ofDocument_run hb
  obtain ⟨heq, hdeclared⟩ := readThemes_similar hthemes hthemes'
  rw [← heq] at hrun'
  have hsetting : SameSetting ⟨text, options, a.themes, document.platforms.getD []⟩
      ⟨text', options, a.themes, document.platforms.getD []⟩ := ⟨rfl, rfl, rfl⟩
  have hstart : SameFindings (Findings.empty.addDiagnostics ds) (Findings.empty.addDiagnostics es) :=
    SameFindings.addDiagnostics ⟨rfl, .nil, rfl⟩ hdeclared
  have hfound := Run.similar hsetting (readThemes_ordered hthemes) hplain hrun hrun' hstart
  have hrows := (ofDocument_wellFormed ha).rows
  have hrows' := (ofDocument_wellFormed hb).rows
  simp only at hrows hrows'
  refine ⟨heq, hfound.registry, hfound.diagnostics, hfound.hovers, ?_⟩
  rw [hrows, hrows']
  exact tally_rowsOf hfound.hovers

/-- A document with a color, and with a size that is no integer. -/
def flowText : List Char :=
  (".themes: [light]\n.themed:\n  ink:\n    .type: color\n    light: ff102030\n"
    ++ "  size:\n    .type: int\n    light: 1.50\n").toList

/-- The same document, indented and quoted in another way. -/
def blockText : List Char :=
  (".themes:\n- light\n# Ink and its size.\n.themed:\n   ink:\n      '.type': color\n"
    ++ "      light: 'ff102030'\n   size:\n      .type: int\n      light: 1.5\n").toList

/-- Whether two texts are read as the same document, without numbers for colors, and are analyzed
with different messages. -/
def differInPlaces (first second : List Char) : Bool :=
  passes .default first fun document a =>
    passes .default second fun document' b =>
      decide (document = document') &&
        decide (a.diagnostics.map (·.message) ≠ b.diagnostics.map (·.message)) &&
        decide (∀ item ∈ visitedItems a.themes document, item.type = .ok .color →
          ∀ key ∈ Keyword.value :: a.themes.names, ∀ entry ∈ item.entry? key,
            writesNumber entry = false)

/-- The two texts differ in all places and in how the size is quoted, and mean the same. -/
theorem flowText_means_blockText : ∃ document a b,
    Document.ofText flowText = .ok document ∧ Document.ofText blockText = .ok document ∧
      ofText .default flowText = .ok a ∧ ofText .default blockText = .ok b ∧
      a.diagnostics.map (·.message) ≠ b.diagnostics.map (·.message) ∧ SameMeaning a b := by
  have hdiffer : differInPlaces flowText blockText = true := by decide +kernel
  obtain ⟨document, a, hread, ha, hsecond⟩ := passes_iff.mp hdiffer
  obtain ⟨document', b, hread', hb, htest⟩ := passes_iff.mp hsecond
  simp only [Bool.and_eq_true, decide_eq_true_eq] at htest
  obtain ⟨⟨rfl, hmessages⟩, hplain⟩ := htest
  exact ⟨document, a, b, hread, hread', ha, hb, hmessages,
    sameMeaning_of_same_document hread hread' ha hb hplain⟩

end Analysis
end DesignTokens
