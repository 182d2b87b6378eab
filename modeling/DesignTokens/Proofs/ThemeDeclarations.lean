import DesignTokens.Proofs.DistinctKeys
import DesignTokens.Proofs.Equality
import DesignTokens.Proofs.Fallback
import DesignTokens.Proofs.Problems

/-!
What becomes of each declaration of a theme, and why the aliases of the registered themes end.

A declaration is judged by the themes registered when its turn comes: it is registered, or one
problem is reported (`Outcome`).  The two tables that the reading keeps, of themes and of places, hold
the same names at every step, which is what makes the judgement one about the registered themes
alone.  An alias stands behind its target, so a loop that follows aliases goes ever further to the
front.  `LeadsTo` and `Search` are the two loops of the program as relations, and they give what
`Themes.resolve` and `ItemContext.rawEntry?` compute.
-/

namespace DesignTokens

/-! ## What a value declares -/

namespace Yaml.Value

theorem string?_eq_some_iff {v : Value} {s : String} :
    v.string? = some s ↔ v.untagged = .string s := by
  rw [string?]
  cases v.untagged <;> simp

theorem mapping?_eq_some_iff {v : Value} {entries : List (Value × Value)} :
    v.mapping? = some entries ↔ v.untagged = .mapping entries := by
  rw [mapping?]
  cases v.untagged <;> simp

end Yaml.Value

namespace Themes
namespace Declaration

/-- The declaration that a value is.  Tags on the name, the body and the target of an alias do not
matter; a tag on the key word does. -/
inductive Describes : Yaml.Value → Declaration → Prop
  | plain (name : String) : Describes (.string name) (.plain name)
  | aliasOf {key body value : Yaml.Value} {name word target : String} :
      key.untagged = .string name → body.untagged = .mapping [(.string word, value)] →
      word ∈ [Keyword.importKey, Keyword.aliasOf] → value.untagged = .string target →
      Describes (.mapping [(key, body)]) (.aliasOf name target)

theorem targetOf?_eq_some_iff {body : List (Yaml.Value × Yaml.Value)} {target : String} :
    targetOf? body = some target ↔ ∃ word ∈ [Keyword.importKey, Keyword.aliasOf], ∃ value,
      body = [(.string word, value)] ∧ value.untagged = .string target := by
  match body with
  | [] => simp [targetOf?]
  | _ :: _ :: _ => simp [targetOf?]
  | [(key, value)] =>
      simp only [targetOf?, Yaml.get?, List.find?_cons, List.find?_nil]
      constructor
      · intro h
        -- The word is the first of the two under which the only entry is written.
        cases himport : key.isString Keyword.importKey with
        | true =>
            obtain rfl := Yaml.isString_iff.mp himport
            simp only [himport, Option.map_some, Option.orElse_some, Option.bind_some] at h
            exact ⟨_, by simp, value, rfl, Yaml.Value.string?_eq_some_iff.mp h⟩
        | false =>
            cases halias : key.isString Keyword.aliasOf with
            | true =>
                obtain rfl := Yaml.isString_iff.mp halias
                simp only [himport, halias, Option.map_none, Option.map_some, Option.orElse_none,
                  Option.bind_some] at h
                exact ⟨_, by simp, value, rfl, Yaml.Value.string?_eq_some_iff.mp h⟩
            | false => simp [himport, halias] at h
      · rintro ⟨word, hword, target', heq, htarget⟩
        cases heq
        rw [← Yaml.Value.string?_eq_some_iff] at htarget
        simp only [List.mem_cons, List.not_mem_nil, or_false] at hword
        rcases hword with rfl | rfl
        · simp [Yaml.Value.isString, htarget]
        · simp [Yaml.Value.isString, Keyword.importKey, Keyword.aliasOf, htarget]

theorem ofValue?_eq_some_iff {value : Yaml.Value} {declaration : Declaration} :
    ofValue? value = some declaration ↔ Describes value declaration := by
  constructor
  · intro h
    unfold ofValue? at h
    split at h
    · cases h
      exact .plain _
    · next key body =>
        simp only [Option.bind_eq_bind, Option.bind_eq_some_iff, Option.pure_def,
          Option.some.injEq] at h
        obtain ⟨name, hname, parts, hparts, target, htarget, rfl⟩ := h
        obtain ⟨word, hword, value, rfl, hvalue⟩ := targetOf?_eq_some_iff.mp htarget
        exact .aliasOf (Yaml.Value.string?_eq_some_iff.mp hname)
          (Yaml.Value.mapping?_eq_some_iff.mp hparts) hword hvalue
    · cases h
  · intro h
    cases h with
    | plain name => rfl
    | @aliasOf key body value name word target hkey hbody hword hvalue =>
        have htarget : targetOf? [(.string word, value)] = some target :=
          targetOf?_eq_some_iff.mpr ⟨word, hword, value, rfl, hvalue⟩
        simp [ofValue?, Yaml.Value.string?_eq_some_iff.mpr hkey,
          Yaml.Value.mapping?_eq_some_iff.mpr hbody, htarget]

end Declaration

/-! ## One declaration after the other -/

/-- What becomes of a value when the themes `known` are registered: a theme with what it is an alias
of, or a problem, whose places are left open. -/
inductive Outcome (known : List String) (value : Yaml.Value) :
    (String × Option String) ⊕ Diagnostic → Prop
  | registered {declaration : Declaration} :
      declaration.Describes value → declaration.name ∉ known →
      (∀ target, declaration.target? = some target → target ∈ known) →
      Outcome known value (.inl (declaration.name, declaration.target?))
  | bad {span : Span} : (∀ declaration, ¬ Declaration.Describes value declaration) →
      Outcome known value (.inr ((Problem.badTheme value.render).placedAt span))
  | duplicate {declaration : Declaration} {span first : Span} :
      declaration.Describes value → declaration.name ∈ known →
      Outcome known value (.inr ((Problem.duplicateTheme declaration.name first).placedAt span))
  | unknown {declaration : Declaration} {target : String} {span : Span} :
      declaration.Describes value → declaration.name ∉ known →
      declaration.target? = some target → target ∉ known →
      Outcome known value (.inr ((Problem.unknownTarget target).placedAt span))

/-- What becomes of a list of values: each outcome is judged by the themes registered up to it. -/
inductive Outcomes : List String → List Yaml.Value → List ((String × Option String) ⊕ Diagnostic) →
    Prop
  | nil {known : List String} : Outcomes known [] []
  | cons {known : List String} {value : Yaml.Value} {values : List Yaml.Value}
      {outcome : (String × Option String) ⊕ Diagnostic}
      {outcomes : List ((String × Option String) ⊕ Diagnostic)} :
      Outcome known value outcome →
      Outcomes (known ++ outcome.getLeft?.toList.map Prod.fst) values outcomes →
      Outcomes known (value :: values) (outcome :: outcomes)

theorem Outcomes.length_eq {known : List String} {values : List Yaml.Value}
    {outcomes : List ((String × Option String) ⊕ Diagnostic)}
    (h : Outcomes known values outcomes) : outcomes.length = values.length := by
  induction h with
  | nil => rfl
  | cons _ _ ih => rw [List.length_cons, List.length_cons, ih]

theorem length_filterMap_getLeft?_add {α β : Type} (outcomes : List (α ⊕ β)) :
    (outcomes.filterMap Sum.getLeft?).length + (outcomes.filterMap Sum.getRight?).length =
      outcomes.length := by
  induction outcomes with
  | nil => rfl
  | cons outcome outcomes ih =>
      cases outcome with
      | inl a =>
          simp only [List.filterMap_cons, Sum.getLeft?_inl, Sum.getRight?_inl, List.length_cons]
          omega
      | inr b =>
          simp only [List.filterMap_cons, Sum.getLeft?_inr, Sum.getRight?_inr, List.length_cons]
          omega

namespace Declared

variable {d d' d'' : Declared} {anchor : Span} {outcome : (String × Option String) ⊕ Diagnostic}

/-- The reading has gone on by some outcomes. -/
structure Adds (d d' : Declared) (outcomes : List ((String × Option String) ⊕ Diagnostic)) :
    Prop where
  entries_eq :
    d'.themes.targets.entries = d.themes.targets.entries ++ outcomes.filterMap Sum.getLeft?
  diagnostics_eq : d'.diagnostics = d.diagnostics ++ outcomes.filterMap Sum.getRight?

theorem Adds.trans {first second : List ((String × Option String) ⊕ Diagnostic)}
    (hfirst : d.Adds d' first) (hsecond : d'.Adds d'' second) : d.Adds d'' (first ++ second) where
  entries_eq := by
    rw [hsecond.entries_eq, hfirst.entries_eq, List.filterMap_append, List.append_assoc]
  diagnostics_eq := by
    rw [hsecond.diagnostics_eq, hfirst.diagnostics_eq, List.filterMap_append, List.append_assoc]

theorem Adds.names_eq (h : d.Adds d' [outcome]) :
    d'.themes.names = d.themes.names ++ outcome.getLeft?.toList.map Prod.fst := by
  rw [names, names, OrderedMap.keys, OrderedMap.keys, h.entries_eq, List.map_append]
  cases outcome <;> rfl

/-- The step: a declaration has one outcome, and it is the one that the registered themes ask for. -/
theorem InStep.exists_outcome (h : d.InStep) (anchor : Span) (value : Yaml.Value) :
    ∃ outcome, Outcome d.themes.names value outcome ∧ d.Adds (d.declare anchor value) [outcome] := by
  simp only [Declared.declare]
  cases hvalue : Declaration.ofValue? value with
  | none =>
      refine ⟨_, .bad fun declaration hdescribes => ?_, (List.append_nil _).symm, rfl⟩
      rw [Declaration.ofValue?_eq_some_iff.mpr hdescribes] at hvalue
      cases hvalue
  | some declaration =>
      have hdescribes := Declaration.ofValue?_eq_some_iff.mp hvalue
      simp only [find]
      split
      · next first _ hplace =>
          have hknown : declaration.name ∈ d.themes.names := by
            by_contra hnew
            rw [(h.places _).mpr hnew] at hplace
            cases hplace
          exact ⟨_, .duplicate hdescribes hknown, (List.append_nil _).symm, rfl⟩
      · next target hplace htarget =>
          have hnew : declaration.name ∉ d.themes.names := (h.places _).mp hplace
          obtain ⟨htarget, hcontains⟩ := Option.filter_eq_some_iff.mp htarget
          have hunknown : target ∉ d.themes.names := by
            intro hmem
            rw [contains, OrderedMap.contains_iff.mpr hmem] at hcontains
            cases hcontains
          exact ⟨_, .unknown hdescribes hnew htarget hunknown, (List.append_nil _).symm, rfl⟩
      · next hplace htarget =>
          have hnew : declaration.name ∉ d.themes.names := (h.places _).mp hplace
          refine ⟨_, .registered hdescribes hnew fun target ht => ?_, ?_, (List.append_nil _).symm⟩
          · rw [ht, Option.filter_eq_none_iff] at htarget
            have hcontains := htarget target rfl
            rw [Bool.not_eq_true', Bool.not_eq_false] at hcontains
            exact OrderedMap.contains_iff.mp hcontains
          · exact OrderedMap.put_of_not_mem hnew _

/-- The run: every declaration has its outcome, in order. -/
theorem InStep.exists_outcomes (h : d.InStep) (anchor : Span) (values : List Yaml.Value) :
    ∃ outcomes, Outcomes d.themes.names values outcomes ∧
      d.Adds (values.foldl (Declared.declare anchor) d) outcomes := by
  induction values generalizing d with
  | nil => exact ⟨[], .nil, (List.append_nil _).symm, (List.append_nil _).symm⟩
  | cons value values ih =>
      obtain ⟨outcome, houtcome, hstep⟩ := h.exists_outcome anchor value
      obtain ⟨outcomes, houtcomes, hrest⟩ := ih (h.declare value)
      rw [hstep.names_eq] at houtcomes
      exact ⟨outcome :: outcomes, .cons houtcome houtcomes, hstep.trans hrest⟩

end Declared

/-! ## Following aliases -/

/-- The loop that follows aliases, from the theme it has got to. -/
inductive LeadsTo (themes : Themes) : String → String → Prop
  | stop {name : String} : themes.aliasOf? name = none → LeadsTo themes name name
  | step {name target result : String} : themes.aliasOf? name = some target →
      LeadsTo themes target result → LeadsTo themes name result

/-- The loop that looks for the entry of a theme: at the theme itself, at the themes that it is an
alias of, and then at the default theme. -/
inductive Search (themes : Themes) (item : Item) : String → Option (Yaml.Value × String) → Prop
  | found {name : String} {entry : Yaml.Value} : item.entry? name = some entry →
      Search themes item name (some (entry, name))
  | step {name target : String} {found : Option (Yaml.Value × String)} :
      item.entry? name = none → themes.aliasOf? name = some target →
      Search themes item target found → Search themes item name found
  | default {name : String} : item.entry? name = none → themes.aliasOf? name = none →
      Search themes item name (themes.default?.bind fun other => (item.entry? other).map (·, other))

theorem resolve_of_aliasOf?_none {themes : Themes} {name : String}
    (h : themes.aliasOf? name = none) : themes.resolve name = name := by
  rw [resolve, chain_of_aliasOf?_none h]
  rfl

namespace Ordered

variable {themes : Themes} (h : themes.Ordered)

include h

/-- The target of an alias stands further to the front. -/
theorem idxOf_lt_of_aliasOf? {name target : String} (htarget : themes.aliasOf? name = some target) :
    themes.names.idxOf target < themes.names.idxOf name := by
  have hget := Option.join_eq_some_iff.mp htarget
  obtain ⟨before, after, hsplit⟩ := List.append_of_mem (OrderedMap.mem_of_find_eq_some hget)
  obtain ⟨first, link, rest, rfl⟩ := h.split_of_aliasOf? htarget hsplit
  have hnames : themes.names =
      first.map Prod.fst ++ target :: (rest.map Prod.fst ++ name :: after.map Prod.fst) := by
    rw [names, OrderedMap.keys, hsplit]
    simp
  have hdistinct : themes.names.Nodup := h.distinct
  rw [hnames] at hdistinct ⊢
  have htarget' : target ∉ first.map Prod.fst := by
    intro hmem
    exact List.disjoint_of_nodup_append hdistinct hmem List.mem_cons_self
  have hname : name ∉ first.map Prod.fst := by
    intro hmem
    exact List.disjoint_of_nodup_append hdistinct hmem (by simp)
  have hne : target ≠ name := by
    rintro rfl
    have hrest := (List.nodup_cons.mp hdistinct.of_append_right).1
    exact hrest (by simp)
  rw [List.idxOf_append_of_notMem htarget', List.idxOf_append_of_notMem hname,
    List.idxOf_cons_self, List.idxOf_cons_ne _ hne]
  omega

theorem wellFounded_aliasOf? :
    WellFounded fun target name => themes.aliasOf? name = some target :=
  Subrelation.wf (h.idxOf_lt_of_aliasOf? ·) (measure (themes.names.idxOf ·)).wf

theorem resolve_of_aliasOf? {name target : String} (htarget : themes.aliasOf? name = some target) :
    themes.resolve name = themes.resolve target := by
  rw [resolve, resolve, h.chain_of_aliasOf? htarget, List.getLastD_cons]

theorem leadsTo_iff {name result : String} :
    LeadsTo themes name result ↔ result = themes.resolve name := by
  constructor
  · intro hleads
    induction hleads with
    | stop hnone => exact (resolve_of_aliasOf?_none hnone).symm
    | step htarget _ ih => exact ih.trans (h.resolve_of_aliasOf? htarget).symm
  · rintro rfl
    -- A theme further to the front is done already.
    induction name using h.wellFounded_aliasOf?.induction with
    | _ name ih =>
        cases htarget : themes.aliasOf? name with
        | none =>
            rw [resolve_of_aliasOf?_none htarget]
            exact .stop htarget
        | some target =>
            rw [h.resolve_of_aliasOf? htarget]
            exact .step htarget (ih target htarget)

end Ordered

theorem LeadsTo.aliasOf?_result {themes : Themes} {name result : String}
    (hleads : LeadsTo themes name result) : themes.aliasOf? result = none := by
  induction hleads with
  | stop hnone => exact hnone
  | step _ _ ih => exact ih

theorem Ordered.mem_of_leadsTo {themes : Themes} (h : themes.Ordered) {name result : String}
    (hleads : LeadsTo themes name result) (hname : name ∈ themes.names) :
    result ∈ themes.names := by
  induction hleads with
  | stop _ => exact hname
  | step htarget _ ih => exact ih (h.mem_of_aliasOf? htarget)

theorem aliasOf?_of_not_mem {themes : Themes} {name : String} (h : name ∉ themes.names) :
    themes.aliasOf? name = none := by
  rw [aliasOf?, OrderedMap.get?_eq_none_iff.mpr h]
  rfl

end Themes

namespace Analysis.ItemContext

variable {c : ItemContext}

theorem rawEntry?_of_not_aliasOf? {theme : String} (hentry : c.item.entry? theme = none)
    (hnone : c.setting.themes.aliasOf? theme = none) :
    c.rawEntry? theme =
      c.setting.themes.default?.bind fun other => (c.item.entry? other).map (·, other) := by
  simp only [Themes.chain_of_aliasOf?_none hnone, rawEntry?, List.cons_append, List.nil_append,
    List.findSome?_cons, hentry, Option.map_none]
  cases c.setting.themes.default? with
  | none => rfl
  | some other =>
      simp only [Option.toList_some, List.findSome?_cons, List.findSome?_nil, Option.bind_some]
      cases c.item.entry? other <;> rfl

theorem search_iff (h : c.setting.themes.Ordered) {theme : String}
    {found : Option (Yaml.Value × String)} :
    Themes.Search c.setting.themes c.item theme found ↔ found = c.rawEntry? theme := by
  have hstep : ∀ {name target}, c.item.entry? name = none →
      c.setting.themes.aliasOf? name = some target → c.rawEntry? name = c.rawEntry? target := by
    intro name target hentry htarget
    refine rawEntry?_of_fallback? h ?_ hentry
    rw [Themes.fallback?, htarget, Option.some_or]
  constructor
  · intro hsearch
    induction hsearch with
    | found hentry => exact (rawEntry?_own hentry).symm
    | step hentry htarget _ ih => exact ih.trans (hstep hentry htarget).symm
    | default hentry hnone => exact (rawEntry?_of_not_aliasOf? hentry hnone).symm
  · rintro rfl
    induction theme using h.wellFounded_aliasOf?.induction with
    | _ name ih =>
        cases hentry : c.item.entry? name with
        | some entry =>
            rw [rawEntry?_own hentry]
            exact .found hentry
        | none =>
            cases htarget : c.setting.themes.aliasOf? name with
            | none =>
                rw [rawEntry?_of_not_aliasOf? hentry htarget]
                exact .default hentry htarget
            | some target =>
                rw [hstep hentry htarget]
                exact .step hentry htarget (ih target htarget)

end Analysis.ItemContext

/-! ## The theorem -/

namespace Themes

/-- The registered themes and the problems are the outcomes of the declarations. -/
structure AccountFor (themes : Themes) (diagnostics : List Diagnostic) (values : List Yaml.Value) :
    Prop where
  outcomes : ∃ outcomes, Outcomes [] values outcomes ∧
    themes.targets.entries = outcomes.filterMap Sum.getLeft? ∧
    diagnostics = outcomes.filterMap Sum.getRight?
  length_add : themes.names.length + diagnostics.length = values.length

/-- Both loops that follow aliases end, with what the look-ups compute. -/
structure AliasesEnd (themes : Themes) : Prop where
  wellFounded : WellFounded fun target name => themes.aliasOf? name = some target
  leadsTo_iff : ∀ name result, LeadsTo themes name result ↔ result = themes.resolve name
  search_iff : ∀ c : Analysis.ItemContext, c.setting.themes = themes → ∀ theme found,
    Search themes c.item theme found ↔ found = c.rawEntry? theme

/-- A registered name leads to a registered theme that is no alias, and every other to itself. -/
structure ResolveWell (themes : Themes) : Prop where
  registered : ∀ name ∈ themes.names,
    themes.resolve name ∈ themes.names ∧ themes.aliasOf? (themes.resolve name) = none
  unregistered : ∀ name, name ∉ themes.names → themes.resolve name = name
  idempotent : ∀ name, themes.resolve (themes.resolve name) = themes.resolve name

theorem build_accountFor (text : List Char) (anchor : Span) (values : List Yaml.Value) :
    (build text anchor values).1.AccountFor (build text anchor values).2 values := by
  have hstart : (⟨empty, .empty, ⟨text, anchor.stop⟩, []⟩ : Declared).InStep :=
    ⟨empty_ordered, fun _ => by simp [empty, names, OrderedMap.empty, OrderedMap.keys,
      OrderedMap.get?, OrderedMap.find]⟩
  obtain ⟨outcomes, houtcomes, hentries, hdiagnostics⟩ := hstart.exists_outcomes anchor values
  refine ⟨⟨outcomes, houtcomes, hentries, hdiagnostics⟩, ?_⟩
  have hnames : (build text anchor values).1.names.length =
      (outcomes.filterMap Sum.getLeft?).length := by
    rw [names, OrderedMap.keys, List.length_map]
    exact congrArg List.length hentries
  have hproblems : (build text anchor values).2.length =
      (outcomes.filterMap Sum.getRight?).length :=
    congrArg List.length hdiagnostics
  rw [hnames, hproblems, length_filterMap_getLeft?_add, houtcomes.length_eq]

theorem Ordered.aliasesEnd {themes : Themes} (h : themes.Ordered) : themes.AliasesEnd where
  wellFounded := h.wellFounded_aliasOf?
  leadsTo_iff _ _ := h.leadsTo_iff
  search_iff := by
    rintro c rfl theme found
    exact Analysis.ItemContext.search_iff h

theorem Ordered.resolveWell {themes : Themes} (h : themes.Ordered) : themes.ResolveWell := by
  have hleads : ∀ name, LeadsTo themes name (themes.resolve name) := fun _ => h.leadsTo_iff.mpr rfl
  refine ⟨fun name hname => ⟨h.mem_of_leadsTo (hleads name) hname, (hleads name).aliasOf?_result⟩,
    fun name hname => ?_, fun name => ?_⟩
  · exact resolve_of_aliasOf?_none (aliasOf?_of_not_mem hname)
  · exact resolve_of_aliasOf?_none (hleads name).aliasOf?_result

/-- Every declaration is registered or reported once, in order, by the themes registered before it;
the names are distinct and every alias stands behind its target, so that the default theme is none
and following aliases ends. -/
theorem declarations_registered_or_reported (text : List Char) (anchor : Span)
    (values : List Yaml.Value) : ∃ themes diagnostics,
      build text anchor values = (themes, diagnostics) ∧
      themes.AccountFor diagnostics values ∧ themes.names.Nodup ∧
      (∀ before name target after, themes.targets.entries = before ++ (name, some target) :: after →
        target ∈ before.map Prod.fst) ∧
      (∀ name, themes.default? = some name → themes.aliasOf? name = none) ∧
      themes.AliasesEnd ∧ themes.ResolveWell := by
  have h := build_ordered text anchor values
  exact ⟨_, _, rfl, build_accountFor text anchor values, h.distinct,
    fun _ _ _ _ hsplit => h.earlier hsplit, fun _ hdefault => h.aliasOf?_default hdefault,
    h.aliasesEnd, h.resolveWell⟩

end Themes

namespace Analysis

/-- An alias whose key word has a tag. -/
def taggedWordText : List Char :=
  ".themes: [light, \x7bdark: \x7b!t import: light\x7d\x7d]\n".toList

def taggedWordValues : List Yaml.Value :=
  [.string "light", .mapping [(.string "dark",
    .mapping [(.tagged "t" (.string Keyword.importKey), .string "light")])]]

/-- But for the tag the second value is an alias of the first theme; it is reported to be no
declaration. -/
theorem taggedWordText_reported : ∃ document a,
    Document.ofText taggedWordText = .ok document ∧ ofText .default taggedWordText = .ok a ∧
    document.themes = some taggedWordValues ∧
    (Yaml.Value.tagged "t" (.string Keyword.importKey)).untagged = .string Keyword.importKey ∧
    a.themes.names = ["light"] ∧ a.diagnostics.map Diagnostic.code = [some .badTheme] := by
  have hpasses : passes .default taggedWordText (fun document a =>
      decide (document.themes = some taggedWordValues ∧ a.themes.names = ["light"] ∧
        a.diagnostics.map Diagnostic.code = [some .badTheme])) = true := by
    decide +kernel
  obtain ⟨document, a, hread, ha, htest⟩ := passes_iff.mp hpasses
  obtain ⟨hvalues, hnames, hcodes⟩ := of_decide_eq_true htest
  exact ⟨document, a, hread, ha, hvalues, rfl, hnames, hcodes⟩

end Analysis
end DesignTokens
