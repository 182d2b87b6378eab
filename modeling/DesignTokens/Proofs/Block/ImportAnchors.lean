import DesignTokens.Proofs.Block.ItemSites

/-!
Where the import of a path is marked.

An entry may be written as a mapping on the line of its key.  A fault of the import and the swatch of
the imported color are then marked at the first occurrence of the path behind the key.  The text
between the key and the path holds the word `import`, so a path that occurs in this word is marked
there, and every other path where it is written.
-/

namespace DesignTokens
namespace Block

open Text Locate Analysis

/-! ## Paths -/

/-- Whether a text can be a path: names with dots between them. -/
def isPath (path : String) : Bool :=
  !path.toList.isEmpty && path.toList.all fun c => c == '.' || c ∉ separators

theorem isPath_iff {path : String} :
    isPath path = true ↔ path.toList ≠ [] ∧ ∀ c ∈ path.toList, c = '.' ∨ c ∉ separators := by
  simp [isPath]

theorem not_mem_of_isPath {path : String} (h : isPath path = true) {c : Char}
    (hc : c ∈ separators) (hdot : c ≠ '.') : c ∉ path.toList := by
  intro hmem
  rcases (isPath_iff.mp h).2 c hmem with heq | hsep
  · exact hdot heq
  · exact hsep hc

/-- What stands between the key of an entry and the path that it imports. -/
def importGap : List Char :=
  [':', ' ', '\x7b'] ++ (Keyword.importKey.toList ++ [':', ' '])

theorem infix_importGap_iff {path : String} (h : isPath path = true) :
    path.toList <:+: importGap ↔ path.toList <:+: Keyword.importKey.toList := by
  have hne := (isPath_iff.mp h).1
  constructor
  · intro hgap
    by_contra hnot
    have hfirst : ∀ c ∈ [':', ' ', '\x7b'], c ∉ path.toList := by
      intro c hc
      have hall : [':', ' ', '\x7b'].all (fun c => c ∈ separators ∧ c ≠ '.') = true := by decide
      have hc := List.all_eq_true.mp hall c hc
      rw [decide_eq_true_eq] at hc
      exact not_mem_of_isPath h hc.1 hc.2
    refine not_infix_append hne hfirst (fun hrest => ?_) hgap
    rcases infix_append_cons (hfirst ':' (by simp)) hrest with hword | hspace
    · exact hnot hword
    · have hcons : path.toList <:+: [] ++ ' ' :: [] := hspace
      rcases infix_append_cons (hfirst ' ' (by simp)) hcons with hnil | hnil
      all_goals exact hne (List.infix_nil.mp hnil)
  · rintro ⟨before, after, heq⟩
    refine ⟨[':', ' ', '\x7b'] ++ before, after ++ [':', ' '], ?_⟩
    rw [importGap, ← heq]
    simp

/-- Where a path is written that is imported on the line of a key. -/
def pathPlace (key : Span) (path : String) : Span :=
  ⟨key.stop + bytes importGap, key.stop + bytes importGap + bytes path.toList⟩

theorem pathPlace_marks {text rest : List Char} {key : Span} {path : String}
    (h : Reads text key.stop (importGap ++ (path.toList ++ rest))) :
    (pathPlace key path).Marks text path.toList := by
  obtain ⟨before, htext, hbytes⟩ := reads_iff.mp h.skip
  exact ⟨before, rest, htext, by rw [pathPlace, hbytes]⟩

theorem exists_anchor {text rest : List Char} {key : Span} {path : String}
    (h : isPath path = true) (hreads : Reads text key.stop (importGap ++ (path.toList ++ rest))) :
    ∃ anchor, literal? text key.stop path = some anchor ∧
      (anchor = pathPlace key path ↔ ¬path.toList <:+: Keyword.importKey.toList) := by
  have hne := (isPath_iff.mp h).1
  rw [← infix_importGap_iff h]
  by_cases hoccurs : path.toList <:+: importGap
  · -- The path is found in the gap, which ends where it is written.
    obtain ⟨n, hfind, hlt⟩ := exists_find_lt hne hoccurs (path.toList ++ rest)
    refine ⟨_, literal?_eq hreads hne hfind, ?_⟩
    have hwrong : (⟨key.stop + n, key.stop + n + bytes path.toList⟩ : Span) ≠ pathPlace key path := by
      intro heq
      have hstart := congrArg Span.start heq
      simp only [pathPlace] at hstart
      omega
    exact ⟨fun heq => absurd heq hwrong, fun hnot => absurd hoccurs hnot⟩
  · have hlast : ∀ c ∈ importGap.getLast?, c ∉ path.toList := by
      intro c hc
      have hspace : importGap.getLast? = some ' ' := by decide
      rw [hspace] at hc
      cases hc
      exact not_mem_of_isPath h (by decide) (by decide)
    refine ⟨_, literal?_eq hreads hne (find_append hne hlast hoccurs rest), ?_⟩
    exact ⟨fun _ => hoccurs, fun _ => rfl⟩

/-! ## Entries that import a path -/

def importEntry (path : Yaml.Value) : Yaml.Value :=
  .mapping [(.string Keyword.importKey, path)]

def importLine (key : String) (path : Yaml.Value) : ItemLine :=
  .entry key ('\x7b' :: (Keyword.importKey.toList ++ [':', ' '] ++ path.render.toList ++ ['\x7d']))
    (importEntry path)

theorem rest_importLine (indent : Nat) (key : String) (path : Yaml.Value) (rest : List Char) :
    ':' :: (((importLine key path).line indent).rest ++ '\n' :: rest) =
      importGap ++ (path.render.toList ++ ('\x7d' :: '\n' :: rest)) := by
  simp [importLine, ItemLine.line, importGap]

/-- What is reported of an import at the anchor. -/
def importReports (c : ItemContext) (path : String) (type : ItemType) (anchor : Span) :
    List Diagnostic :=
  match c.registry.get? path with
  | none => ((EntryFault.missingImport path).diagnosticAt? anchor).toList
  | some bundle =>
      if bundle.type = type then []
      else ((EntryFault.importType path type bundle.type).diagnosticAt? anchor).toList

def importColor? (c : ItemContext) (path key : String) : Option Color := do
  let bundle ← c.registry.get? path
  (← bundle.valueFor key).color?

section

variable {c : ItemContext} {key : String} {path : Yaml.Value} {site anchor : Span}

theorem resolve_importEntry (type : ItemType) (key : String) (origin : Span) :
    (c.entryContext type).resolve (importEntry path) key origin =
      (c.entryContext type).importValue path.render type key := by
  rw [importEntry, EntryContext.resolve_mapping]
  have hbase : (c.entryContext type).base [(.string Keyword.importKey, path)] key origin =
      (c.entryContext type).importValue path.render type key := rfl
  rw [hbase]
  cases (c.entryContext type).importValue path.render type key with
  | error fault => rfl
  | ok v => cases type <;> rfl

theorem ownReports_importEntry (hentry : c.item.entry? key = some (importEntry path))
    (hsite : c.body.key key = .ok site)
    (hanchor : literal? c.setting.text site.stop path.render = some anchor) (type : ItemType) :
    c.ownReports type key = importReports c path.render type anchor := by
  simp only [ItemContext.ownReports, hentry, hsite, resolve_importEntry, EntryContext.importValue,
    importReports]
  have hregistry : (c.entryContext type).registry = c.registry := rfl
  rw [hregistry]
  cases c.registry.get? path.render with
  | none => simp [ItemContext.settle, EntryFault.report?, EntryFault.isWanted, EntryFault.subject?,
      hanchor]
  | some bundle =>
      by_cases htype : bundle.type = type
      · simp only [if_pos htype]
        cases bundle.valueFor key <;> rfl
      · simp [htype, ItemContext.settle, EntryFault.report?, EntryFault.isWanted,
          EntryFault.subject?, hanchor]

theorem swatch?_importEntry : c.swatch? (importEntry path) key site =
    (importColor? c path.render key).map (path.render, ·) := by
  have hswatch : c.swatch? (importEntry path) key site = (do
      let bundle ← c.registry.get? path.render
      let color ← (← bundle.valueFor key).color?
      pure (path.render, color)) := rfl
  simp only [hswatch, importColor?, Option.bind_eq_bind, Option.map_eq_bind, Option.bind_assoc]
  rfl

theorem swatchAt?_importEntry (hentry : c.item.entry? key = some (importEntry path))
    (hanchor : literal? c.setting.text site.stop path.render = some anchor) :
    c.swatchAt? key site = (importColor? c path.render key).map (·, anchor) := by
  simp only [ItemContext.swatchAt?, hentry, Option.bind_eq_bind, Option.bind_some,
    swatch?_importEntry]
  cases importColor? c path.render key with
  | none => rfl
  | some color => simp [hanchor]

theorem primarySpan?_importReports {type : ItemType} {d : Diagnostic}
    (h : d ∈ importReports c path.render type anchor) : d.primarySpan? = some anchor := by
  rw [importReports] at h
  split at h
  · rw [Option.mem_toList] at h
    cases h
    rfl
  · split at h
    · cases h
    · rw [Option.mem_toList] at h
      cases h
      rfl

end

/-! ## Where the swatches are searched -/

/-- Behind the key of a line, the search stands before the lines below it. -/
theorem Ahead.belowLine {text rest : List Char} {offset start indent : Nat}
    {skipped content : List ItemLine} {line : ItemLine}
    (hvalid : ∀ l ∈ skipped ++ line :: content, l.isValid = true)
    (hnodup : ((skipped ++ line :: content).map ItemLine.key).Nodup)
    (h : Ahead text offset [] start (itemText indent (skipped ++ line :: content) ++ rest)) :
    let place := (line.line indent).keyPlace (behind start (skipped.map (ItemLine.line indent)))
    offset ≤ place.stop ∧ Ahead text place.stop []
      (behind (behind start (skipped.map (ItemLine.line indent))) [line.line indent])
      (itemText indent content ++ rest) := by
  intro place
  have hreads := (h.lineKey hvalid hnodup).2
  have hline := hvalid line (List.mem_append_right _ List.mem_cons_self)
  constructor
  · exact Nat.le_trans h.toBehind.le (Line.le_keyPlace_stop _ _ _)
  · rw [itemText_append, List.append_assoc, itemText_cons, List.append_assoc] at h
    have hbelow := Reads.behind_line (Reads.behind h.there)
    exact Ahead.of_colon (ItemLine.regular hline indent).rest hreads hbelow

/-- The keys that are searched one behind the other are found where they are written.  The lines of
keys that are not searched stay ahead of the cursor, so the induction keeps them as `skipped`. -/
theorem Ahead.located {c : ItemContext} {indent start : Nat} {rest : List Char}
    {skipped content : List ItemLine} {cursor : Cursor}
    (hvalid : ∀ line ∈ skipped ++ content, line.isValid = true)
    (hnodup : ((skipped ++ content).map ItemLine.key).Nodup)
    (h : Ahead cursor.text cursor.offset [] start (itemText indent (skipped ++ content) ++ rest))
    {sites : List (String × Span)}
    (hsites : c.located cursor ((content.map ItemLine.key).filter (!isReserved ·)) = .ok sites)
    {key : String} {site : Span} (hsite : (key, site) ∈ sites) :
    ∃ line, line.key = key ∧ (line, site) ∈ itemPlaces indent start (skipped ++ content) := by
  induction content generalizing skipped cursor start sites with
  | nil =>
      cases hsites
      cases hsite
  | cons line content ih =>
      have hskip : c.located cursor ((content.map ItemLine.key).filter (!isReserved ·)) = .ok sites →
          ∃ line', line'.key = key ∧
            (line', site) ∈ itemPlaces indent start (skipped ++ line :: content) := by
        intro hrest
        rw [List.append_cons] at hvalid hnodup h ⊢
        exact ih hvalid hnodup h hrest hsite
      rw [List.map_cons, List.filter_cons] at hsites
      split at hsites
      · rw [ItemContext.located] at hsites
        split at hsites
        · exact hskip hsites
        · obtain ⟨found, hfound, hsites⟩ := bind_eq_ok.mp hsites
          obtain ⟨others, hothers, hpure⟩ := bind_eq_ok.mp hsites
          cases hpure
          cases hfound.symm.trans (h.lineKey hvalid hnodup).1
          rw [itemPlaces_append, itemPlaces]
          rcases List.mem_cons.mp hsite with hhere | hsite
          · cases hhere
            exact ⟨line, rfl, List.mem_append_right _ List.mem_cons_self⟩
          · obtain ⟨hle, hbelow⟩ := h.belowLine hvalid hnodup
            rw [Cursor.advanceTo_of_le hle] at hothers
            have hvalid' : ∀ l ∈ [] ++ content, l.isValid = true := fun l hl =>
              hvalid l (List.mem_append_right _ (List.mem_cons_of_mem _ hl))
            rw [List.map_append, List.map_cons] at hnodup
            have hnodup' := hnodup.of_append_right.of_cons
            obtain ⟨other, hother, hmem⟩ := ih hvalid' hnodup' hbelow hothers hsite
            rw [List.nil_append, behind_singleton] at hmem
            exact ⟨other, hother, List.mem_append_right _ (List.mem_cons_of_mem _ hmem)⟩
      · exact hskip hsites

theorem Placed.key_eq {v : ItemVisit} {item : ItemSite} (h : Placed v item) {line : ItemLine}
    {place : Span} (hplace : (line, place) ∈ itemPlaces item.indent item.start item.content) :
    v.context.body.key line.key = .ok place := by
  obtain ⟨rest, hahead⟩ := h.ahead
  have hfound := hahead.placeKey h.valid hplace
  exact hfound

theorem Placed.located_eq {v : ItemVisit} {item : ItemSite} (h : Placed v item)
    {sites : List (String × Span)}
    (hsites : v.context.located v.context.body v.context.swatchKeys = .ok sites)
    {line : ItemLine} {place span : Span}
    (hplace : (line, place) ∈ itemPlaces item.indent item.start item.content)
    (hspan : (line.key, span) ∈ sites) : span = place := by
  suffices hfound : v.context.body.key line.key = .ok span by
    cases hfound.symm.trans (h.key_eq hplace)
    rfl
  rw [ItemContext.swatchKeys] at hsites
  split at hsites
  · rw [ItemContext.located] at hsites
    split at hsites
    · cases hsites
      cases hspan
    · obtain ⟨found, hfound, hsites⟩ := bind_eq_ok.mp hsites
      obtain ⟨others, hothers, hpure⟩ := bind_eq_ok.mp hsites
      cases hothers
      cases hpure
      rw [List.mem_singleton, Prod.mk.injEq] at hspan
      rw [hspan.1, hspan.2, hfound]
  · rw [h.item_eq, Item.themeKeys, keys_itemOf] at hsites
    obtain ⟨rest, hahead⟩ := h.ahead
    have hlines : ∀ line ∈ [] ++ item.content, line.isValid = true := h.valid.lines
    obtain ⟨other, hother, hmem⟩ := Ahead.located hlines h.valid.nodup hahead hsites hspan
    rw [← hother]
    exact h.key_eq hmem

/-! ## The anchor -/

/-- What a visit reports and shows of the import of a path under a key is at the anchor. -/
structure Anchored (v : ItemVisit) (a : Analysis) (key path : String) (anchor : Span) : Prop where
  reports : ∀ type, v.context.ownReports type key = importReports v.context path type anchor
  primary : ∀ type, ∀ d ∈ v.context.ownReports type key, d.primarySpan? = some anchor
  told : ∀ type, v.context.item.type = .ok type → key ∈ v.context.ownKeys →
    v.context.ownReports type key ⊆ a.diagnostics
  swatch : ∀ sites, v.context.located v.context.body v.context.swatchKeys = .ok sites →
    ∀ site, (key, site) ∈ sites →
      v.context.swatchAt? key site = (importColor? v.context path key).map (·, anchor)
  shown : v.context.item.type = .ok .color → v.context.setting.options.decorateColors = true →
    key ∈ v.context.swatchKeys → ∀ color, importColor? v.context path key = some color →
      anchor ∈ a.decorations.placesOf color

namespace Placed

variable {v : ItemVisit} {item : ItemSite} {key : String} {path : Yaml.Value} {place : Span}

theorem entry_of_mem (h : Placed v item)
    (hplace : (importLine key path, place) ∈ itemPlaces item.indent item.start item.content) :
    v.context.item.entry? key = some (importEntry path) := by
  have hmem : importLine key path ∈ item.content := by
    rw [← map_fst_itemPlaces item.indent item.start item.content]
    exact List.mem_map_of_mem (f := Prod.fst) hplace
  have hget : Yaml.get? key (itemOf item.content).entries = some (importEntry path) :=
    get?_of_mem h.valid.nodup hmem
  rw [h.item_eq, Item.entry?, hget]
  rfl

theorem reads_importGap (h : Placed v item)
    (hplace : (importLine key path, place) ∈ itemPlaces item.indent item.start item.content) :
    ∃ rest, Reads v.context.setting.text place.stop
      (importGap ++ (path.render.toList ++ rest)) := by
  obtain ⟨rest, hahead⟩ := h.ahead
  obtain ⟨before, after, hcontent, hkey⟩ := mem_itemPlaces hplace
  have hvalid := h.valid
  rw [hcontent] at hvalid hahead
  have hreads := (hahead.itemKey hvalid).2
  rw [rest_importLine, ← hkey] at hreads
  exact ⟨_, hreads⟩

theorem anchored (h : Placed v item) {a : Analysis}
    (hreport : v.context.report v.inherited = .ok v.report)
    (htold : v.report.diagnostics ⊆ a.diagnostics)
    (hfiled : ∀ color, v.report.placesOf color ⊆ a.decorations.placesOf color)
    (hplace : (importLine key path, place) ∈ itemPlaces item.indent item.start item.content)
    {anchor : Span} (hanchor : literal? v.context.setting.text place.stop path.render = some anchor) :
    Anchored v a key path.render anchor := by
  have hentry := h.entry_of_mem hplace
  have hkey := h.key_eq hplace
  have hreports := ownReports_importEntry hentry hkey hanchor
  refine ⟨hreports, ?_, ?_, ?_, ?_⟩
  · intro type d hd
    rw [hreports] at hd
    exact primarySpan?_importReports hd
  · intro type htype hown
    exact List.Subset.trans (ItemContext.ownReports_subset hreport htype hown) htold
  · intro sites hsites site hsite
    rw [h.located_eq hsites hplace hsite]
    exact swatchAt?_importEntry hentry hanchor
  · intro htype hdecorate hkeys color hcolor
    obtain ⟨sites, hsites, hshows⟩ := ItemContext.exists_located hreport htype hdecorate
    obtain ⟨site, hsite⟩ := ItemContext.exists_site hsites hkeys (by rw [hentry]; rfl)
    apply hfiled
    apply hshows hsite
    rw [h.located_eq hsites hplace hsite, swatchAt?_importEntry hentry hanchor, hcolor]
    rfl

end Placed

/-- A block document whose lists of platforms are found is analyzed, and comes to its items in order.
Each import of a path that is written on the line of its key has one anchor, where its faults are
reported and its color is shown.  The anchor covers an occurrence of the path; it is the place where
the path is written exactly if the path does not occur in the word `import`. -/
theorem anchor_iff_not_infix (shape : Shape) (hvalid : shape.isValid = true)
    (hclear : shape.isClear = true) (platforms : Option (List String))
    (hplatforms : platforms.all (·.all isName) = true) (layout : Layout) (options : Options) :
    ∃ a visits, shape.analysis layout platforms options = .ok a ∧
      (Yaml.Value.ofText (shape.text layout platforms) = .ok (shape.value platforms) →
        ofText options (shape.text layout platforms) = .ok a) ∧
      Tells (shape.setting layout platforms options)
        ((shape.itemSites layout platforms).map ItemSite.subject) visits .empty
        ⟨a.registry, a.diagnostics, a.decorations, a.hovers⟩ ∧
      List.Forall₂ (fun v item => ∀ key path place,
        (importLine key path, place) ∈ itemPlaces item.indent item.start item.content →
        isPath path.render = true → ∃ anchor, Anchored v a key path.render anchor ∧
          anchor.Marks (shape.text layout platforms) path.render.toList ∧
          (pathPlace place path.render).Marks (shape.text layout platforms) path.render.toList ∧
          (anchor = pathPlace place path.render ↔
            ¬path.render.toList <:+: Keyword.importKey.toList))
        visits (shape.itemSites layout platforms) := by
  have hshape := Shape.valid_of_isValid hvalid hplatforms
  obtain ⟨a, ha⟩ := exists_analysis hshape layout options
  obtain ⟨visits, hvisits⟩ := analysis_visits hshape hclear ha
  refine ⟨a, visits, ha, ofText_of_analysis ha, hvisits.toTells, ?_⟩
  rw [List.forall₂_iff_zip]
  refine ⟨hvisits.placed.length_eq, fun {v item} hzip key path place hplace hpath => ?_⟩
  have hplaced := List.forall₂_zip hvisits.placed hzip
  have hv := (List.of_mem_zip hzip).1
  obtain ⟨rest, hreads⟩ := hplaced.reads_importGap hplace
  obtain ⟨anchor, hanchor, hiff⟩ := exists_anchor hpath hreads
  refine ⟨anchor, hplaced.anchored (hvisits.report_eq v hv) (hvisits.told v hv)
    (hvisits.mem_places hv) hplace hanchor, ?_, ?_, hiff⟩
  all_goals rw [hvisits.setting_eq v hv] at hanchor hreads
  · exact literal?_marks hanchor
  · exact pathPlace_marks hreads

/-- A path that is one letter of the word `import`. -/
def shortImport : Shape :=
  ⟨["light"], none, some (.collection [.child "a" (.item
    [.type "color", importLine "light" (.string "m")])])⟩

theorem shortImport_text : shortImport.text twoSpaces none =
    (".themes: [light]\n.themed:\n  a:\n    .type: color\n" ++
      "    light: \x7bimport: m\x7d\n").toList := by
  decide

theorem shortImport_read : Yaml.Value.ofText (shortImport.text twoSpaces none) =
    .ok (shortImport.value none) :=
  ofText_of_equals (by decide +kernel)

/-- The path `m` is written at 68, but reported missing in the word before it. -/
theorem shortImport_misplaced : ∃ a,
    ofText .default (".themes: [light]\n.themed:\n  a:\n    .type: color\n" ++
      "    light: \x7bimport: m\x7d\n").toList = .ok a ∧
      ∃ d ∈ a.diagnostics, d.code = some .missingImport ∧ d.primarySpan? ≠ some ⟨68, 69⟩ := by
  have hvalid : shortImport.isValid = true := by decide +kernel
  have hclear : shortImport.isClear = true := by decide +kernel
  obtain ⟨a, visits, -, hofText, htells, hanchors⟩ :=
    anchor_iff_not_infix shortImport hvalid hclear none rfl twoSpaces .default
  have hsites : shortImport.itemSites twoSpaces none = [⟨.child .themed "a",
      [.type "color", importLine "light" (.string "m")], 4, 31⟩] := rfl
  rw [hsites] at htells hanchors
  obtain ⟨v, rest, hanchor, hnil, rfl⟩ := List.forall₂_cons_right_iff.mp hanchors
  cases hnil
  have hplace : (importLine "light" (.string "m"), (⟨52, 57⟩ : Span)) ∈ itemPlaces 4 31
      [.type "color", importLine "light" (.string "m")] :=
    List.mem_cons_of_mem _ List.mem_cons_self
  obtain ⟨anchor, hat, -, -, hiff⟩ := hanchor _ _ _ hplace (by decide)
  have hwrong : anchor ≠ ⟨68, 69⟩ := by
    intro heq
    have hinfix : (Yaml.Value.string "m").render.toList <:+: Keyword.importKey.toList := by decide
    exact hiff.mp heq hinfix
  -- The item is the only one, so there is nothing to import.
  have hfirst : [v] = [] ++ v :: [] := rfl
  have hregistry : v.context.registry = .empty := htells.above hfirst
  obtain ⟨hpath, hitem⟩ := Prod.mk.inj (List.cons.inj htells.subjects).1
  have hsetting := htells.setting_eq v List.mem_cons_self
  have htype : v.context.item.type = .ok .color := by
    rw [hitem]
    rfl
  have hown : "light" ∈ v.context.ownKeys := by
    rw [ItemContext.ownKeys, hpath, hsetting]
    decide
  obtain ⟨d, hd, hcode⟩ : ∃ d ∈ v.context.ownReports .color "light",
      d.code = some .missingImport := by
    rw [hat.reports, importReports, hregistry]
    exact ⟨_, List.mem_cons_self, rfl⟩
  rw [← shortImport_text]
  refine ⟨a, hofText shortImport_read, d, hat.told .color htype hown hd, hcode, ?_⟩
  rw [hat.primary .color d hd]
  exact fun heq => hwrong (Option.some.inj heq)

end Block
end DesignTokens
