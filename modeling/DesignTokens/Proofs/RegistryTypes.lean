import DesignTokens.Proofs.Imports
import DesignTokens.Proofs.OrderedMap

/-!
The types of registered values, in every state of a pass.

`tracedPass` makes the same pass as `ofDocument` and writes down every state it comes to, also when a
search of the text ends the pass early.  In each of these states a path leads to the bundle of the
last item of a known type that prints as it; the bundle has the type that the item declares and only
values of this type, and the themes it has values for stand in their order (`Registry.Sound`).  So
what an import gives is never of another type than the one that was asked for.
-/

namespace DesignTokens
namespace Analysis

/-! ## The states of a pass -/

/-- A computation that may fail, and the states of the pass it has gone through. -/
structure Traced (α : Type) where
  states : List Findings
  result : Except LocateError α

namespace Traced

variable {α β : Type}

/-- A failure ends the computation; the states so far remain. -/
def andThen (x : Traced α) (next : α → Traced β) : Traced β :=
  match x.result with
  | .error error => ⟨x.states, .error error⟩
  | .ok a => ⟨x.states ++ (next a).states, (next a).result⟩

instance : Monad Traced where
  pure a := ⟨[], .ok a⟩
  bind := andThen

def lift (result : Except LocateError α) : Traced α :=
  ⟨[], result⟩

def reach (f : Findings) : Traced Findings :=
  ⟨[f], .ok f⟩

@[simp] theorem result_lift (result : Except LocateError α) : (lift result).result = result :=
  rfl

@[simp] theorem result_reach (f : Findings) : (reach f).result = .ok f :=
  rfl

@[simp] theorem result_bind (x : Traced α) (next : α → Traced β) :
    (x >>= next).result = x.result >>= fun a => (next a).result := by
  show (x.andThen next).result = _
  rw [andThen]
  cases x.result with
  | error error => rfl
  | ok a => rfl

@[simp] theorem states_pure (a : α) : (pure a : Traced α).states = [] :=
  rfl

@[simp] theorem states_lift (result : Except LocateError α) : (lift result).states = [] :=
  rfl

@[simp] theorem states_reach (f : Findings) : (reach f).states = [f] :=
  rfl

theorem mem_states_bind {x : Traced α} {next : α → Traced β} {f : Findings} :
    f ∈ (x >>= next).states ↔
      f ∈ x.states ∨ ∃ a, x.result = .ok a ∧ f ∈ (next a).states := by
  show f ∈ (x.andThen next).states ↔ _
  rw [andThen]
  cases x.result with
  | error error => simp
  | ok a => simp

end Traced

mutual

def tracedWalk (setting : Setting) (inherited : List String) (path : ItemPath) (key : Span) :
    Node → Findings → Traced (Nat × Findings)
  | .item content, f => do
      let report ← .lift (ItemContext.report ⟨setting, f.registry, content, path, key⟩ inherited)
      let f ← .reach (f.addItem path report)
      pure (report.next, f)
  | .collection own members, f => tracedMembers setting own inherited path members key.stop f

def tracedMembers (setting : Setting) (own : Option (List String)) (inherited : List String)
    (path : ItemPath) : List Member → Nat → Findings → Traced (Nat × Findings)
  | [], offset, f => pure (offset, f)
  | .platforms :: members, offset, f => do
      let (cursor, diagnostics) ←
        .lift (Platforms.check setting (own.getD []) inherited path (setting.cursorAt offset))
      let f ← .reach (f.addDiagnostics diagnostics)
      tracedMembers setting own inherited path members cursor.offset f
  | .child key node :: members, offset, f => do
      let span ← .lift ((setting.cursorAt offset).key key)
      let (offset, f) ← tracedWalk setting (own.getD inherited) (path.child key) span node f
      tracedMembers setting own inherited path members offset f

end

def tracedSection (setting : Setting) (key : String) (path : ItemPath) (node : Option Node)
    (f : Findings) : Traced Findings :=
  match node with
  | none => pure f
  | some node => do
      let span ← .lift ((setting.cursorAt 0).key key)
      let (_, f) ← tracedWalk setting setting.platforms path span node f
      pure f

def tracedPass (options : Options) (text : List Char) (document : Document) :
    Traced Analysis := do
  let (themes, diagnostics) ← .lift (readThemes text document)
  let setting := settingOf options text document themes
  let f ← .reach (Findings.empty.addDiagnostics diagnostics)
  let f ← tracedSection setting Keyword.shared .shared document.shared f
  let f ← tracedSection setting Keyword.themed .themed (themedSection themes document) f
  pure ⟨f.diagnostics, f.decorations, f.hovers, f.registry, themes, LineIndex.ofText text⟩

/-! ## The trace is that of the pass -/

mutual

theorem result_tracedWalk (setting : Setting) (inherited : List String) (path : ItemPath)
    (key : Span) (node : Node) (f : Findings) :
    (tracedWalk setting inherited path key node f).result =
      walk setting inherited path key node f := by
  cases node with
  | item content =>
      rw [tracedWalk, walk]
      simp only [Traced.result_bind, Traced.result_lift]
      rfl
  | collection own members =>
      rw [tracedWalk, walk]
      exact result_tracedMembers setting own inherited path members key.stop f

theorem result_tracedMembers (setting : Setting) (own : Option (List String))
    (inherited : List String) (path : ItemPath) (members : List Member) (offset : Nat)
    (f : Findings) : (tracedMembers setting own inherited path members offset f).result =
      walkMembers setting own inherited path members offset f := by
  match members with
  | [] =>
      rw [tracedMembers, walkMembers]
      rfl
  | .platforms :: members =>
      rw [tracedMembers, walkMembers]
      simp only [Traced.result_bind, Traced.result_lift]
      refine bind_congr fun found => ?_
      exact result_tracedMembers setting own inherited path members _ _
  | .child key node :: members =>
      rw [tracedMembers, walkMembers]
      simp only [Traced.result_bind, Traced.result_lift, result_tracedWalk]
      refine bind_congr fun span => bind_congr fun found => ?_
      exact result_tracedMembers setting own inherited path members _ _

end

theorem result_tracedSection (setting : Setting) (key : String) (path : ItemPath)
    (node : Option Node) (f : Findings) :
    (tracedSection setting key path node f).result = walkSection setting key path node f := by
  cases node with
  | none => rfl
  | some node =>
      rw [tracedSection, walkSection]
      simp only [Traced.result_bind, Traced.result_lift, result_tracedWalk]
      rfl

theorem result_tracedPass (options : Options) (text : List Char) (document : Document) :
    (tracedPass options text document).result = ofDocument options text document := by
  rw [tracedPass, ofDocument]
  simp only [Traced.result_bind, Traced.result_lift, result_tracedSection]
  rfl

/-- The findings are what a run along the first of the visits has made of `f`. -/
def Reaches (setting : Setting) (visits : List Visit) (f g : Findings) : Prop :=
  ∃ first, first <+: visits ∧ Run setting first f g

namespace Reaches

variable {setting : Setting} {first second : List Visit} {f g h : Findings}

theorem start (visits : List Visit) (f : Findings) : Reaches setting visits f f :=
  ⟨[], List.nil_prefix, .nil⟩

theorem append_right (hreaches : Reaches setting first f g) (second : List Visit) :
    Reaches setting (first ++ second) f g := by
  obtain ⟨visits, hvisits, hrun⟩ := hreaches
  exact ⟨visits, hvisits.trans (List.prefix_append first second), hrun⟩

theorem append_left (hrun : Run setting first f g) (hreaches : Reaches setting second g h) :
    Reaches setting (first ++ second) f h := by
  obtain ⟨visits, hvisits, hrest⟩ := hreaches
  exact ⟨first ++ visits, List.prefix_append_right_inj first |>.mpr hvisits, hrun.append hrest⟩

end Reaches

mutual

theorem reaches_of_mem_tracedWalk (setting : Setting) (inherited : List String) (path : ItemPath)
    (key : Span) (node : Node) (f : Findings) {g : Findings}
    (h : g ∈ (tracedWalk setting inherited path key node f).states) :
    Reaches setting (nodeVisits inherited path node) f g := by
  cases node with
  | item content =>
      simp only [tracedWalk, Traced.mem_states_bind, Traced.states_lift, Traced.states_reach,
        Traced.states_pure, Traced.result_lift, List.not_mem_nil, false_or, and_false, exists_false,
        or_false, List.mem_singleton] at h
      obtain ⟨report, hreport, rfl⟩ := h
      exact ⟨_, List.prefix_rfl, .item hreport .nil⟩
  | collection own members =>
      rw [tracedWalk] at h
      rw [nodeVisits]
      exact reaches_of_mem_tracedMembers setting own inherited path members key.stop f h

theorem reaches_of_mem_tracedMembers (setting : Setting) (own : Option (List String))
    (inherited : List String) (path : ItemPath) (members : List Member) (offset : Nat)
    (f : Findings) {g : Findings}
    (h : g ∈ (tracedMembers setting own inherited path members offset f).states) :
    Reaches setting (memberVisits own inherited path members) f g := by
  match members with
  | [] =>
      rw [tracedMembers] at h
      cases h
  | .platforms :: members =>
      simp only [tracedMembers, Traced.mem_states_bind, Traced.states_lift, Traced.states_reach,
        Traced.result_lift, Traced.result_reach, List.not_mem_nil, false_or, List.mem_singleton,
        Except.ok.injEq, exists_eq_left'] at h
      obtain ⟨⟨after, diagnostics⟩, hcheck, h⟩ := h
      have hrun : Run setting [.platforms (own.getD []) inherited path] f
          (f.addDiagnostics diagnostics) := .platforms rfl hcheck .nil
      refine Reaches.append_left hrun ?_
      rcases h with rfl | h
      · exact .start _ _
      · exact reaches_of_mem_tracedMembers setting own inherited path members _ _ h
  | .child key node :: members =>
      simp only [tracedMembers, Traced.mem_states_bind, Traced.states_lift, Traced.result_lift,
        result_tracedWalk, List.not_mem_nil, false_or] at h
      obtain ⟨span, -, h | ⟨⟨next, between⟩, hwalk, h⟩⟩ := h
      · exact (reaches_of_mem_tracedWalk setting _ _ span node f h).append_right _
      · exact .append_left (walk_run setting _ _ span node f hwalk)
          (reaches_of_mem_tracedMembers setting own inherited path members _ _ h)

end

theorem reaches_of_mem_tracedSection {setting : Setting} {key : String} {path : ItemPath}
    {node : Option Node} {f g : Findings}
    (h : g ∈ (tracedSection setting key path node f).states) :
    Reaches setting (sectionVisits setting.platforms path node) f g := by
  cases node with
  | none => cases h
  | some node =>
      simp only [tracedSection, Traced.mem_states_bind, Traced.states_lift, Traced.states_pure,
        Traced.result_lift, List.not_mem_nil, false_or, and_false, exists_false, or_false] at h
      obtain ⟨span, -, h⟩ := h
      exact reaches_of_mem_tracedWalk setting _ path span node f h

/-- Every state of a pass is reached along the visits of the document. -/
theorem reaches_of_mem_tracedPass {options : Options} {text : List Char} {document : Document}
    {f : Findings} (h : f ∈ (tracedPass options text document).states) :
    ∃ themes diagnostics, readThemes text document = .ok (themes, diagnostics) ∧
      Reaches (settingOf options text document themes) (documentVisits themes document)
        (Findings.empty.addDiagnostics diagnostics) f := by
  simp only [tracedPass, Traced.mem_states_bind, Traced.states_lift, Traced.states_reach,
    Traced.states_pure, Traced.result_lift, Traced.result_reach, result_tracedSection,
    List.not_mem_nil, false_or, and_false, exists_false, or_false, List.mem_singleton,
    Except.ok.injEq, exists_eq_left'] at h
  obtain ⟨⟨themes, diagnostics⟩, hthemes, h⟩ := h
  refine ⟨themes, diagnostics, hthemes, ?_⟩
  rcases h with rfl | h | ⟨between, hshared, h⟩
  · exact .start _ _
  · exact (reaches_of_mem_tracedSection h).append_right _
  · exact .append_left (walkSection_run hshared) (reaches_of_mem_tracedSection h)

mutual

theorem mem_tracedWalk (setting : Setting) (inherited : List String) (path : ItemPath) (key : Span)
    (node : Node) (f : Findings) {next : Nat} {g : Findings}
    (h : walk setting inherited path key node f = .ok (next, g)) :
    g = f ∨ g ∈ (tracedWalk setting inherited path key node f).states := by
  cases node with
  | item content =>
      simp only [walk, bind_eq_ok, pure_eq_ok] at h
      obtain ⟨report, hreport, h⟩ := h
      cases h
      right
      rw [tracedWalk, Traced.mem_states_bind]
      exact .inr ⟨report, hreport, Traced.mem_states_bind.mpr (.inl List.mem_cons_self)⟩
  | collection own members =>
      rw [walk] at h
      rw [tracedWalk]
      exact mem_tracedMembers setting own inherited path members key.stop f h

theorem mem_tracedMembers (setting : Setting) (own : Option (List String))
    (inherited : List String) (path : ItemPath) (members : List Member) (offset : Nat)
    (f : Findings) {next : Nat} {g : Findings}
    (h : walkMembers setting own inherited path members offset f = .ok (next, g)) :
    g = f ∨ g ∈ (tracedMembers setting own inherited path members offset f).states := by
  match members with
  | [] =>
      rw [walkMembers] at h
      cases h
      exact .inl rfl
  | .platforms :: members =>
      simp only [walkMembers, bind_eq_ok] at h
      obtain ⟨⟨after, diagnostics⟩, hcheck, h⟩ := h
      right
      simp only [tracedMembers, Traced.mem_states_bind, Traced.states_reach, List.mem_singleton]
      refine .inr ⟨(after, diagnostics), hcheck, ?_⟩
      rcases mem_tracedMembers setting own inherited path members _ _ h with rfl | hmem
      · exact .inl rfl
      · exact .inr ⟨_, rfl, hmem⟩
  | .child key node :: members =>
      simp only [walkMembers, bind_eq_ok] at h
      obtain ⟨span, hspan, ⟨offset', between⟩, hwalk, h⟩ := h
      have hresult := result_tracedWalk setting (own.getD inherited) (path.child key) span node f
      rw [hwalk] at hresult
      simp only [tracedMembers, Traced.mem_states_bind]
      rcases mem_tracedMembers setting own inherited path members _ _ h with rfl | hmem
      · rcases mem_tracedWalk setting _ _ span node f hwalk with rfl | hmem
        · exact .inl rfl
        · exact .inr (.inr ⟨span, hspan, .inl hmem⟩)
      · exact .inr (.inr ⟨span, hspan, .inr ⟨_, hresult, hmem⟩⟩)

end

theorem mem_tracedSection {setting : Setting} {key : String} {path : ItemPath}
    {node : Option Node} {f g : Findings} (h : walkSection setting key path node f = .ok g) :
    g = f ∨ g ∈ (tracedSection setting key path node f).states := by
  cases node with
  | none =>
      cases h
      exact .inl rfl
  | some node =>
      simp only [walkSection, bind_eq_ok, pure_eq_ok] at h
      obtain ⟨span, hspan, ⟨next, g⟩, hwalk, rfl⟩ := h
      refine (mem_tracedWalk setting _ path span node f hwalk).imp id fun hmem => ?_
      rw [tracedSection, Traced.mem_states_bind]
      exact .inr ⟨span, hspan, Traced.mem_states_bind.mpr (.inl hmem)⟩

/-- What a pass that succeeds has found is one of its states. -/
theorem mem_tracedPass {options : Options} {text : List Char} {document : Document}
    {a : Analysis} (h : ofDocument options text document = .ok a) :
    ⟨a.registry, a.diagnostics, a.decorations, a.hovers⟩ ∈
      (tracedPass options text document).states := by
  simp only [ofDocument, bind_eq_ok, pure_eq_ok] at h
  obtain ⟨⟨themes, diagnostics⟩, hthemes, f, hshared, g, hthemed, rfl⟩ := h
  simp only [tracedPass, Traced.mem_states_bind, Traced.states_reach, List.mem_singleton,
    result_tracedSection]
  refine .inr ⟨(themes, diagnostics), hthemes, ?_⟩
  rcases mem_tracedSection hthemed with rfl | hmem
  · rcases mem_tracedSection hshared with rfl | hmem
    · exact .inl rfl
    · exact .inr ⟨_, rfl, .inl hmem⟩
  · exact .inr ⟨_, rfl, .inr ⟨f, hshared, .inl hmem⟩⟩

end Analysis

/-! ## Registries of the right types -/

namespace Bundle

/-- The values belong to the type, and those of a themed bundle are for distinct themes in their
order. -/
def WellTyped (themes : Themes) : Bundle → Prop
  | .shared type value => ∀ v ∈ value, v.type = type
  | .themed type values => (∀ entry ∈ values.entries, entry.2.type = type) ∧
      values.keys.Nodup ∧ values.keys.Sublist themes.names

theorem WellTyped.typed {themes : Themes} {bundle : Bundle} (h : bundle.WellTyped themes) :
    bundle.Typed := by
  refine ⟨fun {key v} hv => ?_⟩
  cases bundle with
  | shared type value => exact h v hv
  | themed type values => exact h.1 (key, v) (OrderedMap.mem_of_find_eq_some hv)

end Bundle

/-- The item that a path leads to: the last one of a known type that prints as the path. -/
def owner? (items : List (ItemPath × Item)) (path : String) : Option Item :=
  (items.reverse.find? fun (itemPath, item) => item.type.isOk && itemPath.text = path).map Prod.snd

theorem owner?_concat (items : List (ItemPath × Item)) (itemPath : ItemPath) (item : Item)
    (path : String) : owner? (items ++ [(itemPath, item)]) path =
      if item.type.isOk = true ∧ itemPath.text = path then some item else owner? items path := by
  rw [owner?, List.reverse_concat, List.find?_cons]
  by_cases h : item.type.isOk = true ∧ itemPath.text = path
  · simp [h]
  · have hnot : (item.type.isOk && decide (itemPath.text = path)) = false := by
      simpa using h
    rw [if_neg h]
    simp only [hnot]
    rfl

namespace Registry

/-- The registry of the given items: a path leads to a bundle exactly if it leads to an item, whose
declared type the bundle has. -/
structure Sound (themes : Themes) (items : List (ItemPath × Item)) (registry : Registry) :
    Prop where
  declared : ∀ path,
    (registry.get? path).map (Except.ok ·.type) = (owner? items path).map Item.type
  wellTyped : ∀ {path bundle}, registry.get? path = some bundle → bundle.WellTyped themes

theorem empty_sound (themes : Themes) : Sound themes [] OrderedMap.empty where
  declared _ := rfl
  wellTyped h := by cases h

variable {themes : Themes} {items : List (ItemPath × Item)} {registry : Registry}

theorem Sound.typed (h : registry.Sound themes items) : registry.Typed :=
  ⟨fun hbundle => (h.wellTyped hbundle).typed⟩

/-- An item whose type is not known leaves the registry as it is. -/
theorem Sound.passOver (h : registry.Sound themes items) (path : ItemPath) {item : Item}
    {marker : String} (htype : item.type = .error marker) :
    registry.Sound themes (items ++ [(path, item)]) := by
  refine ⟨fun other => ?_, h.wellTyped⟩
  have hunknown : ¬(item.type.isOk = true ∧ path.text = other) := by
    simp [htype, Except.isOk, Except.toBool]
  rw [owner?_concat, if_neg hunknown]
  exact h.declared other

theorem Sound.register (h : registry.Sound themes items) (path : ItemPath) {item : Item}
    {bundle : Bundle} (htype : item.type = .ok bundle.type) (hbundle : bundle.WellTyped themes) :
    (registry.register path bundle).Sound themes (items ++ [(path, item)]) := by
  refine ⟨fun other => ?_, forall_get?_register h.wellTyped path hbundle⟩
  rw [Registry.register, OrderedMap.get?_insert, owner?_concat]
  by_cases hpath : other = path.text
  · have hknown : item.type.isOk = true ∧ path.text = other :=
      ⟨by rw [htype]; rfl, hpath.symm⟩
    rw [if_pos hpath, if_pos hknown, Option.map_some, Option.map_some, htype]
  · have hother : ¬(item.type.isOk = true ∧ path.text = other) :=
      fun hknown => hpath hknown.2.symm
    rw [if_neg hpath, if_neg hother]
    exact h.declared other

end Registry

namespace Analysis

open EntryContext

/-- Whatever entry is resolved against the registry, the value that a color starts from is a color,
and what is imported as an opacity is a number (`resolve_mapping`, `fade`). -/
structure CastsSucceed (registry : Registry) : Prop where
  color : ∀ c : EntryContext, c.registry = registry → c.type = .color →
    ∀ parts key origin v, c.base parts key origin = .ok v → ∃ color, v.color? = some color
  opacity : ∀ c : EntryContext, c.registry = registry →
    ∀ path key v, c.importValue path .double key = .ok v → ∃ x, v.double? = some x

theorem castsSucceed_of_typed {registry : Registry} (h : registry.Typed) :
    CastsSucceed registry where
  color _ hregistry htype _ _ _ _ hbase :=
    color?_of_type ((base_type (hregistry ▸ h) hbase).trans htype)
  opacity _ hregistry _ _ _ himport :=
    double?_of_type (importValue_type (hregistry ▸ h) himport)

/-- What an item of a known type is resolved to. -/
theorem ItemContext.resolve_wellTyped {c : ItemContext} (hordered : c.setting.themes.Ordered)
    (hregistry : c.registry.Typed) {type : ItemType} {bundle : Bundle}
    {diagnostics : List Diagnostic} (h : c.resolve type = .ok (bundle, diagnostics)) :
    bundle.type = type ∧ bundle.WellTyped c.setting.themes := by
  have htyped := resolve_typed hordered hregistry h
  cases hshared : c.path.isShared with
  | true =>
      obtain ⟨value, rfl⟩ := resolve_shared hshared h
      refine ⟨rfl, fun v hv => ?_⟩
      have hvalue : (Bundle.shared type value).valueFor Keyword.value = some v := hv
      exact htyped.type_eq hvalue
  | false =>
      obtain ⟨values, hvalues, rfl⟩ := resolve_themed hshared h
      have hnodup := resolveThemes_nodup hordered hvalues
      have hkeys : (OrderedMap.ofList values).keys = values.map Prod.fst := by
        rw [OrderedMap.keys, OrderedMap.entries_ofList hnodup]
      refine ⟨rfl, fun entry hentry => ?_, hkeys ▸ hnodup, hkeys ▸ resolveThemes_keys hvalues⟩
      rw [OrderedMap.entries_ofList hnodup] at hentry
      exact htyped.type_eq ((valueFor_themed hordered hvalues entry.1 entry.2).mpr hentry)

/-- The step: an item is added to a sound registry. -/
theorem sound_addItem {setting : Setting} (hordered : setting.themes.Ordered) {f : Findings}
    {items : List (ItemPath × Item)} (hf : f.registry.Sound setting.themes items) {content : Item}
    {path : ItemPath} {key : Span} {inherited : List String} {report : ItemReport}
    (hreport : ItemContext.report ⟨setting, f.registry, content, path, key⟩ inherited = .ok report) :
    (f.addItem path report).registry.Sound setting.themes (items ++ [(path, content)]) := by
  rcases (ItemContext.report_cases hreport).2 with ⟨marker, huntyped⟩ | ⟨type, bundle, htyped⟩
  · rw [Findings.addItem, huntyped.bundle_eq]
    exact hf.passOver path huntyped.type_eq
  · rw [Findings.addItem, htyped.bundle_eq]
    obtain ⟨platforms, themes, values, -, hresolve, -⟩ := htyped.diagnostics_eq
    obtain ⟨rfl, hbundle⟩ := ItemContext.resolve_wellTyped hordered hf.typed hresolve
    exact hf.register path htyped.type_eq hbundle

/-- The run: the registry stays sound for the items walked so far. -/
theorem Run.sound {setting : Setting} (hordered : setting.themes.Ordered) {visits : List Visit}
    {f f' : Findings} (hrun : Run setting visits f f') {items : List (ItemPath × Item)}
    (hf : f.registry.Sound setting.themes items) :
    f'.registry.Sound setting.themes (items ++ visits.filterMap Visit.subject?) := by
  induction hrun generalizing items with
  | nil => simpa using hf
  | platforms _ _ _ ih => exact ih hf
  | @item content inherited path key report visits f f' hreport _ ih =>
      have hrest := ih (sound_addItem hordered hf hreport)
      rwa [List.append_assoc] at hrest

theorem documentVisits_subjects (themes : Themes) (document : Document) :
    (documentVisits themes document).filterMap Visit.subject? = walkOrder themes document := by
  rw [documentVisits, List.filterMap_append, sectionVisits_subjects, sectionVisits_subjects]
  rfl

/-! ## The theorem -/

/-- In every state that a pass comes to, whether or not it succeeds, the registry is that of the
items walked so far, with values of the declared types only. -/
theorem registry_sound_in_every_state (options : Options) (text : List Char)
    (document : Document) :
    (tracedPass options text document).result = ofDocument options text document ∧
    (∀ a, ofDocument options text document = .ok a →
      ⟨a.registry, a.diagnostics, a.decorations, a.hovers⟩ ∈
        (tracedPass options text document).states) ∧
    ∀ f ∈ (tracedPass options text document).states, ∃ themes diagnostics items,
      readThemes text document = .ok (themes, diagnostics) ∧
      items <+: walkOrder themes document ∧
      f.registry.Sound themes items ∧ CastsSucceed f.registry := by
  refine ⟨result_tracedPass options text document, fun a ha => mem_tracedPass ha, fun f hf => ?_⟩
  obtain ⟨themes, diagnostics, hthemes, visits, hvisits, hrun⟩ := reaches_of_mem_tracedPass hf
  have hsound : f.registry.Sound themes ([] ++ visits.filterMap Visit.subject?) :=
    hrun.sound (readThemes_ordered hthemes) (Registry.empty_sound themes)
  refine ⟨themes, diagnostics, _, hthemes, ?_, hsound, castsSucceed_of_typed hsound.typed⟩
  rw [← documentVisits_subjects, List.nil_append]
  exact hvisits.filterMap Visit.subject?

/-- A color, a themed item that imports it, and an item whose keys are not at the start of a line. -/
def brokenOffText : List Char :=
  (".themes: [t, u]\n.shared:\n a:\n  .type: color\n  .value: ff102030\n.themed:\n b:\n"
    ++ "  .type: color\n  t: \x7bimport: .shared.a\x7d\n c: \x7b.type: int, t: 1\x7d\n").toList

/-- Whether a text is read, its pass fails, and the last of its states passes a test. -/
def breaksOff (options : Options) (text : List Char) (test : Findings → Bool) : Bool :=
  match Document.ofText text with
  | .error _ => false
  | .ok document =>
      let pass := tracedPass options text document
      !pass.result.isOk && pass.states.getLast?.any test

theorem brokenOffText_sound : ∃ document f themes items,
    Document.ofText brokenOffText = .ok document ∧
    (ofDocument .default brokenOffText document).isOk = false ∧
    f ∈ (tracedPass .default brokenOffText document).states ∧
    f.registry.keys = [".shared.a", "b"] ∧ items <+: walkOrder themes document ∧
    f.registry.Sound themes items ∧ CastsSucceed f.registry := by
  have hbreaks : breaksOff .default brokenOffText (fun f =>
      decide (f.registry.keys = [".shared.a", "b"])) = true := by
    decide +kernel
  rw [breaksOff] at hbreaks
  split at hbreaks
  · cases hbreaks
  · next document hread =>
      rw [Bool.and_eq_true, Bool.not_eq_true', Option.any_eq_true] at hbreaks
      obtain ⟨hresult, f, hlast, hkeys⟩ := hbreaks
      obtain ⟨heq, -, hstates⟩ := registry_sound_in_every_state .default brokenOffText document
      have hf := List.mem_of_getLast? hlast
      obtain ⟨themes, diagnostics, items, -, hitems, hsound, hcasts⟩ := hstates f hf
      exact ⟨document, f, themes, items, hread, heq ▸ hresult, hf, of_decide_eq_true hkeys, hitems,
        hsound, hcasts⟩

end Analysis
end DesignTokens
