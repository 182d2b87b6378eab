import DesignTokens.Proofs.Block.Item

/-!
What is marked of an item whose lines are found where they are written.

The report gives its problems in the order platforms, themes, type; `itemMarks` lists them in the same
order, each at the place of its line.
-/

namespace DesignTokens
namespace Block

open Text Locate Analysis

/-! ## Places -/

theorem itemPlaces_append (indent start : Nat) (first second : List ItemLine) :
    itemPlaces indent start (first ++ second) = itemPlaces indent start first ++
      itemPlaces indent (behind start (first.map (ItemLine.line indent))) second := by
  induction first generalizing start with
  | nil => rfl
  | cons line first ih =>
      rw [List.cons_append, itemPlaces, itemPlaces, ih, List.cons_append, List.map_cons, behind_cons,
        behind_singleton]

theorem map_fst_itemPlaces (indent start : Nat) (content : List ItemLine) :
    (itemPlaces indent start content).map Prod.fst = content := by
  induction content generalizing start with
  | nil => rfl
  | cons line content ih => rw [itemPlaces, List.map_cons, ih]

/-- The place of a line behind others. -/
theorem mem_itemPlaces {indent start : Nat} {content : List ItemLine} {place : ItemLine × Span}
    (h : place ∈ itemPlaces indent start content) : ∃ before after,
      content = before ++ place.1 :: after ∧
        place.2 =
          (place.1.line indent).keyPlace (behind start (before.map (ItemLine.line indent))) := by
  induction content generalizing start with
  | nil => cases h
  | cons line content ih =>
      rw [itemPlaces] at h
      rcases List.mem_cons.mp h with rfl | h
      · exact ⟨[], content, rfl, rfl⟩
      · obtain ⟨before, after, rfl, hplace⟩ := ih h
        refine ⟨line :: before, after, rfl, ?_⟩
        rw [hplace, List.map_cons, behind_cons start, behind_singleton start]

/-- What concerns one key concerns one line. -/
theorem flatMap_itemPlaces {f : ItemLine × Span → List Diagnostic} {key : String}
    (hf : ∀ place, place.1.key ≠ key → f place = []) {before after : List ItemLine} {line : ItemLine}
    (hkey : line.key = key) (hnodup : ((before ++ line :: after).map ItemLine.key).Nodup)
    (indent start : Nat) :
    (itemPlaces indent start (before ++ line :: after)).flatMap f =
      f (line, (line.line indent).keyPlace (behind start (before.map (ItemLine.line indent)))) := by
  have hnone : ∀ content start, key ∉ content.map ItemLine.key →
      (itemPlaces indent start content).flatMap f = [] := by
    intro content start hmem
    refine List.flatMap_eq_nil_iff.mpr fun place hplace => hf place fun heq => hmem ?_
    rw [← heq, ← map_fst_itemPlaces indent start content, List.map_map]
    exact List.mem_map_of_mem (f := ItemLine.key ∘ Prod.fst) hplace
  rw [List.map_append, List.map_cons, List.nodup_append, List.nodup_cons] at hnodup
  obtain ⟨-, ⟨hafter, -⟩, hbefore⟩ := hnodup
  have hbefore' : key ∉ before.map ItemLine.key := fun hmem =>
    hbefore key hmem line.key List.mem_cons_self hkey.symm
  rw [itemPlaces_append, itemPlaces, List.flatMap_append, List.flatMap_cons, hnone _ _ hbefore',
    hnone _ _ (hkey ▸ hafter), List.nil_append, List.append_nil]

/-- A line among lines with other keys is found where it is written. -/
theorem Ahead.lineKey {text rest : List Char} {offset start indent : Nat}
    {before after : List ItemLine} {line : ItemLine}
    (hvalid : ∀ l ∈ before ++ line :: after, l.isValid = true)
    (hnodup : ((before ++ line :: after).map ItemLine.key).Nodup)
    (h : Ahead text offset [] start (itemText indent (before ++ line :: after) ++ rest)) :
    Locate.key text offset line.key =
        .ok ((line.line indent).keyPlace (behind start (before.map (ItemLine.line indent)))) ∧
      Reads text ((line.line indent).keyPlace
          (behind start (before.map (ItemLine.line indent)))).stop
        (':' :: ((line.line indent).rest ++ '\n' :: (itemText indent after ++ rest))) := by
  have hsplit : Ahead text offset [] start (textOf (before.map (ItemLine.line indent)) ++
      ((line.line indent).text ++ (itemText indent after ++ rest))) := by
    rw [itemText_append, itemText_cons] at h
    simpa [itemText] using h
  have hbefore : ∀ l ∈ before.map (ItemLine.line indent),
      l.Regular ∧ l.key ≠ (line.line indent).key := by
    intro l hl
    obtain ⟨l, hmem, rfl⟩ := List.mem_map.mp hl
    refine ⟨ItemLine.regular (hvalid l (List.mem_append_left _ hmem)) indent, ?_⟩
    rw [List.map_append, List.map_cons, List.nodup_append] at hnodup
    rw [ItemLine.line_key, ItemLine.line_key]
    exact hnodup.2.2 _ (List.mem_map_of_mem hmem) _ List.mem_cons_self
  have hline : (line.line indent).Regular :=
    ItemLine.regular (hvalid line (List.mem_append_right _ List.mem_cons_self)) indent
  have hfound := hsplit.key (.inl rfl) hbefore hline
  rwa [ItemLine.line_key] at hfound

/-- Every line of an item is found where it is written. -/
theorem Ahead.itemKey {text rest : List Char} {offset start indent : Nat}
    {before after : List ItemLine} {line : ItemLine} (hvalid : ValidItem (before ++ line :: after))
    (h : Ahead text offset [] start (itemText indent (before ++ line :: after) ++ rest)) :
    Locate.key text offset line.key =
        .ok ((line.line indent).keyPlace (behind start (before.map (ItemLine.line indent)))) ∧
      Reads text ((line.line indent).keyPlace
          (behind start (before.map (ItemLine.line indent)))).stop
        (':' :: ((line.line indent).rest ++ '\n' :: (itemText indent after ++ rest))) :=
  h.lineKey hvalid.lines hvalid.nodup

theorem Ahead.placeKey {text rest : List Char} {offset start indent : Nat} {content : List ItemLine}
    (hvalid : ValidItem content)
    (h : Ahead text offset [] start (itemText indent content ++ rest)) {place : ItemLine × Span}
    (hplace : place ∈ itemPlaces indent start content) :
    Locate.key text offset place.1.key = .ok place.2 := by
  obtain ⟨before, after, rfl, heq⟩ := mem_itemPlaces hplace
  rw [heq]
  exact (h.itemKey hvalid).1

/-! ## Problems of declarations and of values -/

theorem filter_structural {diagnostics : List Diagnostic}
    (h : ∀ d ∈ diagnostics, Marks.isStructural d = true) :
    diagnostics.filter Marks.isStructural = diagnostics :=
  List.filter_eq_self.mpr h

theorem isStructural_placedAt (problem : Problem) (span : Span) :
    Marks.isStructural (problem.placedAt span) = true := by
  cases problem <;> rfl

theorem structural_of_mem_map {problem? : Option Problem} {span : Span} {d : Diagnostic}
    (h : d ∈ (problem?.map (·.placedAt span)).toList) : Marks.isStructural d = true := by
  obtain ⟨problem, -, rfl⟩ := Option.map_eq_some_iff.mp (Option.mem_toList.mp h)
  exact isStructural_placedAt problem span

theorem listProblems_structural {setting : Setting} {inherited : List String} {path : ItemPath}
    {key : Span} {names : List String} {d : Diagnostic}
    (h : d ∈ listProblems setting inherited path key names) : Marks.isStructural d = true := by
  obtain ⟨place, -, hd⟩ := List.mem_flatMap.mp h
  exact structural_of_mem_map hd

theorem platformProblems_structural {setting : Setting} {inherited : List String} {path : ItemPath}
    {places : List (ItemLine × Span)} {d : Diagnostic}
    (h : d ∈ places.flatMap (ItemLine.platformProblems setting inherited path)) :
    Marks.isStructural d = true := by
  obtain ⟨⟨line, place⟩, -, hd⟩ := List.mem_flatMap.mp h
  cases line with
  | platforms names => exact listProblems_structural hd
  | _ => cases hd

theorem themeProblems_structural {c : ItemContext} {places : List (ItemLine × Span)} {d : Diagnostic}
    (h : d ∈ if c.path.isShared then [] else
      ((defaultProblem? c.setting.themes c.item).map (·.placedAt c.key)).toList ++
        places.flatMap (ItemLine.themeProblems c.setting)) :
    Marks.isStructural d = true := by
  split at h
  · cases h
  · rcases List.mem_append.mp h with h | h
    · exact structural_of_mem_map h
    · obtain ⟨⟨line, place⟩, -, hd⟩ := List.mem_flatMap.mp h
      cases line with
      | entry key written value =>
          rw [ItemLine.themeProblems] at hd
          split at hd
          · cases hd
          · rw [List.mem_singleton] at hd
            exact hd ▸ isStructural_placedAt _ place
      | _ => cases hd

theorem report?_not_structural {fault : EntryFault} {setting : Setting} {site : Span}
    {d : Diagnostic} (h : fault.report? setting site = some d) : Marks.isStructural d = false := by
  rw [EntryFault.report?] at h
  split at h
  · cases fault <;> simp only [EntryFault.subject?, EntryFault.diagnosticAt?, Option.bind_eq_bind,
      Option.bind_some, Option.bind_none, Option.some.injEq, reduceCtorEq] at h <;> (rw [← h]; rfl)
  · cases h

theorem settle_filter (c : ItemContext) (site : Option Span) (result : Except EntryFault Value) :
    (c.settle site result).2.filter Marks.isStructural = [] := by
  rw [List.filter_eq_nil_iff]
  intro d hd
  cases result with
  | ok v => cases hd
  | error fault =>
      simp only [ItemContext.settle, Option.mem_toList, Option.bind_eq_some_iff] at hd
      obtain ⟨span, -, hd⟩ := hd
      rw [report?_not_structural hd]
      exact Bool.false_ne_true

theorem resolveThemes_filter {c : ItemContext} {type : ItemType} {themes : List String}
    {values : List (String × Value)} {diagnostics : List Diagnostic}
    (h : c.resolveThemes type themes = .ok (values, diagnostics)) :
    diagnostics.filter Marks.isStructural = [] := by
  induction themes generalizing values diagnostics with
  | nil =>
      cases h
      rfl
  | cons theme themes ih =>
      simp only [ItemContext.resolveThemes] at h
      split at h
      · exact ih h
      · simp only [bind_eq_ok, pure_eq_ok] at h
        obtain ⟨origin, -, ⟨others, rest⟩, hrest, h⟩ := h
        cases h
        rw [List.filter_append, settle_filter, ih hrest, List.nil_append]

/-- Of resolving an item, only a shared value that is missing counts. -/
theorem resolve_filter {c : ItemContext} {type : ItemType} {bundle : Bundle}
    {diagnostics : List Diagnostic} (h : c.resolve type = .ok (bundle, diagnostics)) :
    diagnostics.filter Marks.isStructural =
      if c.path.isShared && (c.item.entry? Keyword.value).isNone then
        [(Problem.missingValue c.path).placedAt c.key]
      else [] := by
  rw [ItemContext.resolve] at h
  split at h
  · next hshared =>
      rw [ItemContext.resolveShared] at h
      cases hentry : c.item.entry? Keyword.value with
      | none =>
          rw [hentry] at h
          cases h
          rw [hshared]
          rfl
      | some entry =>
          simp only [hentry, bind_eq_ok, pure_eq_ok] at h
          obtain ⟨site, -, h⟩ := h
          cases h
          rw [settle_filter]
          simp
  · next hshared =>
      simp only [bind_eq_ok, pure_eq_ok] at h
      obtain ⟨⟨values, problems⟩, hvalues, h⟩ := h
      cases h
      rw [resolveThemes_filter hvalues]
      simp [hshared]

/-! ## The report -/

section

variable {c : ItemContext} {content : List ItemLine} {indent start : Nat} {rest : List Char}

theorem check_item (hvalid : ValidItem content) (hitem : c.item = itemOf content)
    (h : Ahead c.setting.text c.key.stop [] start (itemText indent content ++ rest))
    {inherited : List String} {after : Cursor} {problems : List Diagnostic}
    (hcheck : Platforms.check c.setting (c.item.platforms.getD []) inherited c.path c.body =
      .ok (after, problems)) :
    problems = (itemPlaces indent start content).flatMap
      (ItemLine.platformProblems c.setting inherited c.path) := by
  have hother : ∀ place : ItemLine × Span, place.1.key ≠ Keyword.platforms →
      ItemLine.platformProblems c.setting inherited c.path place = [] := by
    rintro ⟨line, place⟩ hne
    cases line with
    | platforms names => exact absurd rfl hne
    | _ => rfl
  by_cases hnames : ∃ names, .platforms names ∈ content
  · obtain ⟨names, hmem⟩ := hnames
    obtain ⟨before, after', rfl⟩ := List.append_of_mem hmem
    obtain ⟨hkey, hreads⟩ := h.itemKey hvalid
    have hvalidNames : names.all isName = true :=
      hvalid.lines _ (List.mem_append_right _ List.mem_cons_self)
    rw [flatMap_itemPlaces hother rfl hvalid.nodup]
    rw [hitem, platforms_itemOf hvalid hmem, Option.getD_some] at hcheck
    by_cases hne : names = []
    · subst hne
      cases hcheck
      rfl
    · have hle := h.toBehind.le.trans (Line.le_keyPlace_stop
        ((ItemLine.platforms names).line indent) start (before.map (ItemLine.line indent)))
      have hopening : Reads c.setting.text (((ItemLine.platforms names).line indent).keyPlace
          (behind start (before.map (ItemLine.line indent)))).stop
          (opening ++ (elements names ++ '\n' :: (itemText indent after' ++ rest))) := hreads
      obtain ⟨stop, hfrom, -⟩ := checkFrom_eq hvalidNames (misses_opening hvalidNames) hopening
      rw [ItemContext.body, Setting.cursorAt, check_eq_of_key hne hkey hle, hfrom] at hcheck
      cases hcheck
      rfl
  · rw [not_exists] at hnames
    rw [hitem, platforms_itemOf_none hvalid hnames] at hcheck
    cases hcheck
    refine (List.flatMap_eq_nil_iff.mpr fun place hplace => hother place fun hkey => ?_).symm
    obtain ⟨before, after, hcontent, -⟩ := mem_itemPlaces hplace
    have hmem : place.1 ∈ content := by simp [hcontent]
    obtain ⟨names, hline⟩ := eq_platforms_of_key (hvalid.lines _ hmem) hkey
    exact hnames names (hline ▸ hmem)

theorem mapM_of_ok {ε α β : Type} {f : α → Except ε β} {g : α → β} {xs : List α}
    (h : ∀ x ∈ xs, f x = .ok (g x)) : xs.mapM f = .ok (xs.map g) := by
  rw [mapM_eq_ok, List.forall₂_map_right_iff, List.forall₂_same]
  exact h

theorem map_unknownTheme (setting : Setting) (places : List (ItemLine × Span)) :
    (places.filter fun place =>
        !isReserved place.1.key && !setting.themes.contains place.1.key).map
      (fun place => (Problem.unknownTheme place.1.key).placedAt place.2) =
    places.flatMap (ItemLine.themeProblems setting) := by
  have htype : isReserved Keyword.type = true := by decide
  have hplatforms : isReserved Keyword.platforms = true := by decide
  induction places with
  | nil => rfl
  | cons place places ih =>
      obtain ⟨line, span⟩ := place
      rw [List.flatMap_cons, ← ih]
      cases line with
      | type word => simp [ItemLine.key, ItemLine.themeProblems, htype]
      | platforms names => simp [ItemLine.key, ItemLine.themeProblems, hplatforms]
      | entry key written value =>
          by_cases hreserved : isReserved key = true <;>
            by_cases hcontains : setting.themes.contains key = true <;>
            simp [ItemLine.key, ItemLine.themeProblems, hreserved, hcontains]

theorem unknownThemes_item (hvalid : ValidItem content) (hitem : c.item = itemOf content)
    (h : Ahead c.setting.text c.key.stop [] start (itemText indent content ++ rest)) :
    c.unknownThemes =
      .ok ((itemPlaces indent start content).flatMap (ItemLine.themeProblems c.setting)) := by
  have hkeys : c.item.themeKeys.filter (!c.setting.themes.contains ·) =
      ((itemPlaces indent start content).filter fun place =>
        !isReserved place.1.key && !c.setting.themes.contains place.1.key).map (·.1.key) := by
    rw [hitem, Item.themeKeys, keys_itemOf, List.filter_filter]
    conv_lhs => rw [← map_fst_itemPlaces indent start content, List.map_map, List.filter_map]
    congr 1
    refine List.filter_congr fun place _ => ?_
    simp [Bool.and_comm]
  rw [ItemContext.unknownThemes, hkeys, List.mapM_map, ← map_unknownTheme]
  refine mapM_of_ok fun place hplace => ?_
  have hkey : c.body.key place.1.key = .ok place.2 :=
    h.placeKey hvalid (List.mem_of_mem_filter hplace)
  exact bind_eq_ok.mpr ⟨place.2, hkey, rfl⟩

theorem themeProblems_item (hvalid : ValidItem content) (hitem : c.item = itemOf content)
    (h : Ahead c.setting.text c.key.stop [] start (itemText indent content ++ rest))
    {problems : List Diagnostic} (hproblems : c.themeProblems = .ok problems) :
    problems = if c.path.isShared then [] else
      ((defaultProblem? c.setting.themes c.item).map (·.placedAt c.key)).toList ++
        (itemPlaces indent start content).flatMap (ItemLine.themeProblems c.setting) := by
  rw [ItemContext.themeProblems] at hproblems
  split at hproblems
  · next hshared =>
      cases hproblems
      rw [if_pos hshared]
  · next hshared =>
      simp only [unknownThemes_item hvalid hitem h, bind_eq_ok, pure_eq_ok, Except.ok.injEq]
        at hproblems
      obtain ⟨unknown, rfl, rfl⟩ := hproblems
      rw [if_neg hshared, ItemContext.missingDefault?_eq]

/-- The word of a type that is none is found behind the key. -/
theorem badType_item {before after : List ItemLine} {word : String}
    (hvalid : ValidItem (before ++ .type word :: after))
    (h : Ahead c.setting.text c.key.stop [] start
      (itemText indent (before ++ .type word :: after) ++ rest))
    {problem : Diagnostic} (hproblem : c.badType word = .ok problem) :
    let place := ((ItemLine.type word).line indent).keyPlace
      (behind start (before.map (ItemLine.line indent)))
    problem = (Problem.unknownType word).placedAt
      ⟨place.stop + 2, place.stop + 2 + bytes word.toList⟩ := by
  intro place
  obtain ⟨hkey, hreads⟩ := h.itemKey hvalid
  have hkey : c.body.key Keyword.type = .ok place := hkey
  have hname : isName word = true := hvalid.lines _ (List.mem_append_right _ List.mem_cons_self)
  have hmisses : Misses word.toList [':', ' '] := misses_of_separators hname (by decide)
  have hne := (isName_iff.mp hname).1
  have hword : Reads c.setting.text place.stop
      ([':', ' '] ++ (word.toList ++ '\n' :: (itemText indent after ++ rest))) := hreads
  have hfound := literal?_eq hword hne (find_append hne hmisses.last hmisses.absent _)
  simp only [ItemContext.badType, hkey, bind_eq_ok, pure_eq_ok, Except.ok.injEq] at hproblem
  obtain ⟨_, rfl, rfl⟩ := hproblem
  rw [hfound, Option.getD_some]
  rfl

theorem ending_item (hvalid : ValidItem content) (hitem : c.item = itemOf content)
    (h : Ahead c.setting.text c.key.stop [] start (itemText indent content ++ rest)) {next : Nat}
    (hnext : c.ending = .ok next) :
    Ahead c.setting.text next [] (behind start (content.map (ItemLine.line indent))) rest := by
  obtain ⟨word, hword⟩ := hvalid.typed
  obtain ⟨before, line, rfl⟩ : ∃ before line, content = before ++ [line] := by
    rcases List.eq_nil_or_concat content with rfl | ⟨before, line, rfl⟩
    · cases hword
    · exact ⟨before, line, List.concat_eq_append⟩
  obtain ⟨hkey, hreads⟩ := h.itemKey hvalid
  have hlast : c.item.lastKey? = some line.key := by
    rw [hitem, Item.lastKey?, keys_itemOf, List.map_append]
    simp
  have hkey : c.body.key line.key = .ok _ := hkey
  simp only [ItemContext.ending, hlast, hkey, bind_eq_ok, pure_eq_ok, Except.ok.injEq] at hnext
  obtain ⟨_, rfl, rfl⟩ := hnext
  rw [Cursor.advanceTo_of_le (h.toBehind.le.trans (Line.le_keyPlace_stop _ _ _))]
  have hregular := ItemLine.regular (hvalid.lines line (by simp)) indent
  exact Ahead.of_colon hregular.rest (by simpa [itemText, textOf] using hreads) (Reads.behind h.there)

theorem map_hover (c : ItemContext) (type : ItemType) (bundle : Bundle) :
    ((if c.Decorated type then c.hover? bundle else none).toList.map fun hover =>
        (hover.span, hover.path)) =
      if (Except.ok type : Except String ItemType) = .ok .color ∧ c.setting.options.decorateColors ∧
          ¬c.path.isShared then [(c.key, c.path.text)] else [] := by
  by_cases hdecorated : c.Decorated type
  · obtain ⟨rfl, hdecorate⟩ := id hdecorated
    rw [if_pos hdecorated, ItemContext.hover?]
    cases c.path.isShared <;> simp [hdecorate]
  · have hnot : ¬((Except.ok type : Except String ItemType) = .ok .color ∧
        c.setting.options.decorateColors = true ∧ ¬c.path.isShared = true) :=
      fun hall => hdecorated ⟨Except.ok.inj hall.1, hall.2.1⟩
    rw [if_neg hdecorated, if_neg hnot]
    rfl

/-- The marks of an item are at the places of its lines, and the search goes on right behind it. -/
theorem Ahead.report (hvalid : ValidItem content) (hitem : c.item = itemOf content)
    (h : Ahead c.setting.text c.key.stop [] start (itemText indent content ++ rest))
    {inherited : List String} {r : ItemReport} (hr : c.report inherited = .ok r) :
    Marks.of r.diagnostics r.hover.toList =
        itemMarks c inherited (itemPlaces indent start content) ∧
      Ahead c.setting.text r.next [] (behind start (content.map (ItemLine.line indent))) rest := by
  obtain ⟨hnext, hcases⟩ := ItemContext.report_cases hr
  refine ⟨?_, ending_item hvalid hitem h hnext⟩
  obtain ⟨word, hword⟩ := hvalid.typed
  obtain ⟨before, after, rfl⟩ := List.append_of_mem hword
  have htype := type_itemOf hvalid hword
  rw [← hitem] at htype
  have hother : ∀ place : ItemLine × Span, place.1.key ≠ Keyword.type →
      ItemLine.typeProblems c place = [] := by
    rintro ⟨line, place⟩ hne
    cases line with
    | type word => exact absurd rfl hne
    | _ => rfl
  have htypeProblems := flatMap_itemPlaces hother rfl hvalid.nodup indent start
  -- The checks before the type are the same in both cases; only what the type leads to differs.
  rcases hcases with ⟨marker, huntyped⟩ | ⟨type, bundle, htyped⟩
  · obtain ⟨platforms, themes, problem, ⟨⟨cursor, hplatforms⟩, hthemes⟩, hproblem, hdiagnostics⟩ :=
      huntyped.diagnostics_eq
    have hmarker := htype.symm.trans huntyped.type_eq
    cases hname : ItemType.ofName? word with
    | some type => simp [hname] at hmarker
    | none =>
        simp only [hname, Except.error.injEq] at hmarker
        subst hmarker
        have hbad := badType_item hvalid h hproblem
        rw [Marks.of, hdiagnostics, huntyped.hover_eq, check_item hvalid hitem h hplatforms,
          themeProblems_item hvalid hitem h hthemes, List.filter_append, List.filter_append,
          filter_structural fun _ hd => platformProblems_structural hd,
          filter_structural fun _ hd => themeProblems_structural hd, hbad,
          itemMarks, htypeProblems, huntyped.type_eq]
        simp only [ItemLine.typeProblems, hname]
        simp [isStructural_placedAt]
  · obtain ⟨platforms, themes, values, ⟨⟨cursor, hplatforms⟩, hthemes⟩, hresolve, hdiagnostics⟩ :=
      htyped.diagnostics_eq
    have hok := htype.symm.trans htyped.type_eq
    cases hname : ItemType.ofName? word with
    | none => simp [hname] at hok
    | some named =>
        simp only [hname, Except.ok.injEq] at hok
        subst hok
        rw [Marks.of, hdiagnostics, htyped.hover_eq, check_item hvalid hitem h hplatforms,
          themeProblems_item hvalid hitem h hthemes, List.filter_append, List.filter_append,
          filter_structural fun _ hd => platformProblems_structural hd,
          filter_structural fun _ hd => themeProblems_structural hd,
          resolve_filter hresolve, itemMarks, htypeProblems, htyped.type_eq]
        simp only [ItemLine.typeProblems, hname, map_hover]

end

end Block
end DesignTokens
