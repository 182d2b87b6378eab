import DesignTokens.Proofs.Pass
import DesignTokens.Proofs.Themes

/-!
What resolving an entry can come to.

Against items above that have values of their own types (`Registry.Typed`) and a value for the key
that looks them up (`Registry.Answers`), an entry fails only with a fault that is reported where the
entry is written.  Seen by another theme, the same entry fails in one new way: it takes its opacity
from an item above, and for that theme the item holds no opacity (`EntryContext.FadesOut`).
-/

namespace DesignTokens

namespace Bundle

/-- The values of a bundle belong to its type. -/
structure Typed (bundle : Bundle) : Prop where
  type_eq : ∀ {key v}, bundle.valueFor key = some v → v.type = bundle.type

end Bundle

namespace Registry

/-- Every bundle holds values of its type. -/
structure Typed (registry : Registry) : Prop where
  bundle : ∀ {path bundle}, registry.get? path = some bundle → bundle.Typed

structure Answers (registry : Registry) (key : String) : Prop where
  isSome : ∀ {path bundle}, registry.get? path = some bundle → (bundle.valueFor key).isSome

theorem empty_typed : Typed OrderedMap.empty :=
  ⟨fun h => by simp [OrderedMap.empty, OrderedMap.get?, OrderedMap.find] at h⟩

theorem empty_answers (key : String) : Answers OrderedMap.empty key :=
  ⟨fun h => by simp [OrderedMap.empty, OrderedMap.get?, OrderedMap.find] at h⟩

theorem get?_register {registry : Registry} {path : ItemPath} {bundle found : Bundle}
    {other : String} (h : (registry.register path bundle).get? other = some found) :
    found = bundle ∨ registry.get? other = some found := by
  rw [register, OrderedMap.get?_insert] at h
  split at h
  · exact .inl (Option.some.inj h).symm
  · exact .inr h

/-- What holds of every bundle holds after the registration of one of which it holds. -/
theorem forall_get?_register {P : Bundle → Prop} {registry : Registry}
    (h : ∀ {path bundle}, registry.get? path = some bundle → P bundle) (path : ItemPath)
    {bundle : Bundle} (hbundle : P bundle) {other : String} {found : Bundle}
    (hfound : (registry.register path bundle).get? other = some found) : P found := by
  rcases get?_register hfound with rfl | hfound
  · exact hbundle
  · exact h hfound

theorem Typed.register {registry : Registry} (h : registry.Typed) (path : ItemPath)
    {bundle : Bundle} (hbundle : bundle.Typed) : (registry.register path bundle).Typed :=
  ⟨forall_get?_register h.bundle path hbundle⟩

theorem Answers.register {registry : Registry} {key : String} (h : registry.Answers key)
    (path : ItemPath) {bundle : Bundle} (hbundle : (bundle.valueFor key).isSome) :
    (registry.register path bundle).Answers key :=
  ⟨forall_get?_register h.isSome path hbundle⟩

end Registry

namespace Analysis

/-! ## The type of a resolved value -/

theorem castLiteral_type {literal : Yaml.Value} {written : String} {type : ItemType} {v : Value}
    (h : castLiteral literal written type = some v) : v.type = type := by
  cases type <;> simp only [castLiteral, Option.map_eq_some_iff] at h <;>
    (obtain ⟨_, -, rfl⟩ := h; rfl)

theorem color?_of_type {v : Value} (h : v.type = .color) : ∃ color, v.color? = some color := by
  cases v <;> simp_all [Value.type, Value.color?]

theorem double?_of_type {v : Value} (h : v.type = .double) : ∃ x, v.double? = some x := by
  cases v <;> simp_all [Value.type, Value.double?]

namespace EntryContext

variable {c : EntryContext}

theorem cast_type {literal : Yaml.Value} {origin : Option Span} {v : Value}
    (h : c.cast literal origin = .ok v) : v.type = c.type := by
  simp only [cast] at h
  split at h
  · next v' hv =>
      cases h
      exact castLiteral_type hv
  · cases h

/-- An import gives a value exactly if an item above of the type has one for the key. -/
theorem importValue_eq_ok {path : String} {expected : ItemType} {key : String} {v : Value} :
    c.importValue path expected key = .ok v ↔
      ∃ bundle, c.registry.get? path = some bundle ∧ bundle.type = expected ∧
        bundle.valueFor key = some v := by
  rw [importValue]
  cases hbundle : c.registry.get? path with
  | none => simp
  | some bundle =>
      by_cases htype : bundle.type = expected
      · cases hvalue : bundle.valueFor key <;> simp [htype, hvalue]
      · simp [htype]

theorem importValue_type (hregistry : c.registry.Typed) {path : String} {expected : ItemType}
    {key : String} {v : Value} (h : c.importValue path expected key = .ok v) :
    v.type = expected := by
  obtain ⟨bundle, hbundle, rfl, hvalue⟩ := importValue_eq_ok.mp h
  exact (hregistry.bundle hbundle).type_eq hvalue

/-! ## The two stages of a mapping

A mapping first says which value it starts from, and then may change the opacity of a color. -/

/-- What a mapping holds under a keyword; null counts as nothing. -/
def written? (parts : List (Yaml.Value × Yaml.Value)) (keyword : String) : Option Yaml.Value :=
  (Yaml.get? keyword parts).filter (!·.isNull)

/-- Whether an entry, if it is a mapping, says which value it starts from. -/
def hasBase : Yaml.Value → Bool
  | .mapping parts =>
      (Yaml.get? Keyword.importKey parts).isSome || (written? parts Keyword.literal).isSome
  | _ => true

/-- The value that a mapping starts from. -/
def base (c : EntryContext) (parts : List (Yaml.Value × Yaml.Value)) (key : String)
    (origin : Span) : Except EntryFault Value :=
  match Yaml.get? Keyword.importKey parts, written? parts Keyword.literal with
  | some path, _ => c.importValue path.render c.type key
  | none, some literal => c.cast literal (Locate.literal? c.text origin.stop Keyword.literal)
  | none, none => .error .nothingWritten

/-- The value with the opacity that a mapping gives it. -/
def shade (c : EntryContext) (parts : List (Yaml.Value × Yaml.Value)) (key : String)
    (v : Value) : Except EntryFault Value :=
  match c.type, written? parts Keyword.opacity with
  | .color, some opacity =>
      match v.color? with
      | some color => (c.fade color opacity key).map .color
      | none => .error .unresolvedImport
  | _, _ => .ok v

theorem resolve_mapping (parts : List (Yaml.Value × Yaml.Value)) (key : String) (origin : Span) :
    c.resolve (.mapping parts) key origin = c.base parts key origin >>= c.shade parts key := by
  simp only [resolve, base, written?]
  cases Yaml.get? Keyword.importKey parts with
  | some path => rfl
  | none =>
      cases (Yaml.get? Keyword.literal parts).filter (!·.isNull) with
      | some literal => rfl
      | none => rfl

theorem base_type (hregistry : c.registry.Typed) {parts : List (Yaml.Value × Yaml.Value)}
    {key : String} {origin : Span} {v : Value} (h : c.base parts key origin = .ok v) :
    v.type = c.type := by
  rw [base] at h
  split at h
  · exact importValue_type hregistry h
  · exact cast_type h
  · cases h

theorem shade_type {parts : List (Yaml.Value × Yaml.Value)} {key : String} {v v' : Value}
    (hv : v.type = c.type) (h : c.shade parts key v = .ok v') : v'.type = c.type := by
  rw [shade] at h
  split at h
  · next htype hopacity =>
      split at h
      · next color _ =>
          cases hfade : c.fade color _ key with
          | error fault => rw [hfade] at h; cases h
          | ok faded =>
              rw [hfade] at h
              cases h
              exact htype.symm
      · cases h
  · cases h
    exact hv

/-- A resolved value belongs to the type of the item. -/
theorem resolve_type (hregistry : c.registry.Typed) {entry : Yaml.Value} {key : String}
    {origin : Span} {v : Value} (h : c.resolve entry key origin = .ok v) : v.type = c.type := by
  cases entry with
  | mapping parts =>
      rw [resolve_mapping, bind_eq_ok] at h
      obtain ⟨v₀, hbase, hshade⟩ := h
      exact shade_type (base_type hregistry hbase) hshade
  | _ => exact cast_type h

/-! ## Faults that are not reported -/

/-- The faults without a report. -/
def IsSilent (fault : EntryFault) : Prop :=
  fault = .nothingWritten ∨ fault = .unresolvedImport

theorem importValue_not_silent {path : String} {expected : ItemType} {key : String}
    (hanswers : c.registry.Answers key) {fault : EntryFault}
    (h : c.importValue path expected key = .error fault) : ¬IsSilent fault := by
  rw [importValue] at h
  cases hbundle : c.registry.get? path with
  | none =>
      rw [hbundle] at h
      cases h
      simp [IsSilent]
  | some bundle =>
      obtain ⟨v, hv⟩ := Option.isSome_iff_exists.mp (hanswers.isSome hbundle)
      simp only [hbundle, hv] at h
      split at h
      · cases h
      · cases h
        simp [IsSilent]

theorem cast_not_silent {literal : Yaml.Value} {origin : Option Span} {fault : EntryFault}
    (h : c.cast literal origin = .error fault) : ¬IsSilent fault := by
  simp only [cast] at h
  split at h
  · cases h
  · cases h
    simp [IsSilent]

theorem base_not_silent {parts : List (Yaml.Value × Yaml.Value)} {key : String} {origin : Span}
    (hbase : hasBase (.mapping parts) = true) (hanswers : c.registry.Answers key) {fault : EntryFault}
    (h : c.base parts key origin = .error fault) : ¬IsSilent fault := by
  rw [base] at h
  split at h
  · exact importValue_not_silent hanswers h
  · exact cast_not_silent h
  · next himport hliteral => simp [hasBase, himport, hliteral] at hbase

theorem fade_not_silent (hregistry : c.registry.Typed) {color : Color} {opacity : Yaml.Value}
    {key : String} (hanswers : c.registry.Answers key) {fault : EntryFault}
    (h : c.fade color opacity key = .error fault) : ¬IsSilent fault := by
  rw [fade] at h
  split at h
  · split at h
    · cases h
    · cases h
      simp [IsSilent]
  · split at h
    · cases h
      simp [IsSilent]
    · next path _ =>
        cases hvalue : c.importValue path.render .double key with
        | error other =>
            rw [hvalue] at h
            cases h
            exact importValue_not_silent hanswers hvalue
        | ok v =>
            obtain ⟨x, hx⟩ := double?_of_type (importValue_type hregistry hvalue)
            simp only [hvalue, bind, Except.bind, hx] at h
            split at h
            · cases h
            · cases h
              simp [IsSilent]

theorem shade_not_silent (hregistry : c.registry.Typed)
    {parts : List (Yaml.Value × Yaml.Value)} {key : String} (hanswers : c.registry.Answers key)
    {v : Value} (hv : v.type = c.type) {fault : EntryFault}
    (h : c.shade parts key v = .error fault) : ¬IsSilent fault := by
  rw [shade] at h
  split at h
  · next opacity htype hopacity =>
      obtain ⟨color, hcolor⟩ := color?_of_type (hv.trans htype)
      simp only [hcolor] at h
      cases hfade : c.fade color opacity key with
      | ok faded => rw [hfade] at h; cases h
      | error other =>
          rw [hfade] at h
          cases h
          exact fade_not_silent hregistry hanswers hfade
  · cases h

/-- Against items above that answer to the key, every fault of an entry has a report. -/
theorem resolve_not_silent (hregistry : c.registry.Typed) {entry : Yaml.Value} {key : String}
    {origin : Span} (hentry : hasBase entry = true)
    (hanswers : c.registry.Answers key) {fault : EntryFault}
    (h : c.resolve entry key origin = .error fault) : ¬IsSilent fault := by
  cases entry with
  | mapping parts =>
      rw [resolve_mapping] at h
      cases hbase : c.base parts key origin with
      | error other =>
          rw [hbase] at h
          cases h
          exact base_not_silent hentry hanswers hbase
      | ok v =>
          rw [hbase] at h
          exact shade_not_silent hregistry hanswers (base_type hregistry hbase) h
  | _ => exact cast_not_silent h

/-! ## One entry, seen by two themes -/

/-- The opacity is that of an item above, and for the key that item holds a number that is none. -/
def ImportsNoOpacity (c : EntryContext) (opacity : Yaml.Value) (key : String) : Prop :=
  ∃ path bundle x, opacity.mapping?.bind (Yaml.get? Keyword.importKey) = some path ∧
    c.registry.get? path.render = some bundle ∧ bundle.type = .double ∧
    bundle.valueFor key = some (.double x) ∧ Color.isOpacity x = false

/-- The entry gives a color an opacity that for the key is none. -/
def FadesOut (c : EntryContext) (entry : Yaml.Value) (key : String) : Prop :=
  ∃ parts opacity, entry = .mapping parts ∧ c.type = .color ∧
    written? parts Keyword.opacity = some opacity ∧ c.ImportsNoOpacity opacity key

theorem number?_of_mapping? {v : Yaml.Value} {entries : List (Yaml.Value × Yaml.Value)}
    (h : v.mapping? = some entries) : v.number? = none := by
  rw [Yaml.Value.mapping?] at h
  rw [Yaml.Value.number?]
  cases hv : v.untagged <;> simp_all

theorem fade_of_importsNoOpacity {opacity : Yaml.Value} {key : String}
    (h : c.ImportsNoOpacity opacity key) (color faded : Color) :
    c.fade color opacity key ≠ .ok faded := by
  obtain ⟨path, bundle, x, hpath, hbundle, htype, hvalue, hx⟩ := h
  obtain ⟨entries, hentries, -⟩ := Option.bind_eq_some_iff.mp hpath
  have himport : c.importValue path.render .double key = .ok (.double x) :=
    importValue_eq_ok.mpr ⟨bundle, hbundle, htype, hvalue⟩
  simp [fade, number?_of_mapping? hentries, hpath, himport, bind, Except.bind, Value.double?,
    Color.withOpacity, hx]

/-- Whether the opacity can be given depends on neither the color nor the key, but for the range of
an opacity that is imported. -/
theorem fade_of_fade (hregistry : c.registry.Typed) {color faded : Color} {opacity : Yaml.Value}
    {key other : String} (h : c.fade color opacity key = .ok faded)
    (hanswers : c.registry.Answers other) (hopacity : ¬c.ImportsNoOpacity opacity other)
    (color' : Color) : ∃ faded', c.fade color' opacity other = .ok faded' := by
  rw [fade] at h ⊢
  cases hnumber : opacity.number? with
  | some n =>
      simp only [hnumber, Color.withOpacity] at h ⊢
      by_cases hn : Color.isOpacity n.toFloat
      · simp [hn]
      · simp [hn] at h
  | none =>
      cases hpath : opacity.mapping?.bind (Yaml.get? Keyword.importKey) with
      | none => simp [hnumber, hpath] at h
      | some path =>
          simp only [hnumber, hpath, bind_eq_ok] at h
          obtain ⟨v, himport, -⟩ := h
          obtain ⟨bundle, hbundle, htype, -⟩ := importValue_eq_ok.mp himport
          obtain ⟨v', hv'⟩ := Option.isSome_iff_exists.mp (hanswers.isSome hbundle)
          have himport' : c.importValue path.render .double other = .ok v' :=
            importValue_eq_ok.mpr ⟨bundle, hbundle, htype, hv'⟩
          obtain ⟨x, hx⟩ := double?_of_type (((hregistry.bundle hbundle).type_eq hv').trans htype)
          have hdouble : v' = .double x := by
            cases v' <;> simp_all [Value.double?]
          have hrange : Color.isOpacity x = true := by
            rw [← Bool.not_eq_false]
            intro hx
            exact hopacity ⟨path, bundle, x, hpath, hbundle, htype, hdouble ▸ hv', hx⟩
          simp [himport', bind, Except.bind, hx, Color.withOpacity, hrange]

theorem base_of_base {parts : List (Yaml.Value × Yaml.Value)} {key other : String} {origin : Span}
    {v : Value} (h : c.base parts key origin = .ok v) (hanswers : c.registry.Answers other) :
    ∃ v', c.base parts other origin = .ok v' := by
  rw [base] at h ⊢
  split at h
  · obtain ⟨bundle, hbundle, htype, -⟩ := importValue_eq_ok.mp h
    obtain ⟨v', hv'⟩ := Option.isSome_iff_exists.mp (hanswers.isSome hbundle)
    exact ⟨v', importValue_eq_ok.mpr ⟨bundle, hbundle, htype, hv'⟩⟩
  · exact ⟨v, h⟩
  · cases h

/-- An entry that resolves for one key resolves for another, unless it fades out there. -/
theorem resolve_of_resolve (hregistry : c.registry.Typed) {entry : Yaml.Value}
    {key other : String} {origin : Span} {v : Value} (h : c.resolve entry key origin = .ok v)
    (hanswers : c.registry.Answers other) (hfades : ¬c.FadesOut entry other) :
    ∃ v', c.resolve entry other origin = .ok v' := by
  cases entry with
  | mapping parts =>
      simp only [resolve_mapping, bind_eq_ok] at h ⊢
      obtain ⟨v₀, hbase, hshade⟩ := h
      obtain ⟨v₁, hbase'⟩ := base_of_base hbase hanswers
      rw [shade] at hshade
      split at hshade
      · next opacity htype hopacity =>
          obtain ⟨color₀, hcolor₀⟩ := color?_of_type ((base_type hregistry hbase).trans htype)
          obtain ⟨color₁, hcolor₁⟩ := color?_of_type ((base_type hregistry hbase').trans htype)
          have hnot : ¬c.ImportsNoOpacity opacity other := fun himports =>
            hfades ⟨parts, opacity, rfl, htype, hopacity, himports⟩
          cases hfade : c.fade color₀ opacity key with
          | error fault => simp [hcolor₀, hfade, Except.map] at hshade
          | ok faded =>
              obtain ⟨faded', hfade'⟩ := fade_of_fade hregistry hfade hanswers hnot color₁
              exact ⟨.color faded', v₁, hbase', by
                simp [shade, htype, hopacity, hcolor₁, hfade', Except.map]⟩
      · next hnot =>
          refine ⟨v₁, v₁, hbase', ?_⟩
          rw [shade]
          split
          · next opacity htype hopacity => exact absurd hopacity (hnot opacity htype)
          · rfl
  | _ => exact ⟨v, h⟩

theorem resolve_of_fadesOut {entry : Yaml.Value} {key : String} (h : c.FadesOut entry key)
    (origin : Span) (v : Value) : c.resolve entry key origin ≠ .ok v := by
  obtain ⟨parts, opacity, rfl, htype, hopacity, himports⟩ := h
  rw [resolve_mapping, ne_eq, bind_eq_ok]
  rintro ⟨v₀, -, hshade⟩
  simp only [shade, htype, hopacity] at hshade
  split at hshade
  · next color _ =>
      cases hfade : c.fade color opacity key with
      | error fault => rw [hfade] at hshade; cases hshade
      | ok faded => exact fade_of_importsNoOpacity himports color faded hfade
  · cases hshade

end EntryContext
end Analysis
end DesignTokens
