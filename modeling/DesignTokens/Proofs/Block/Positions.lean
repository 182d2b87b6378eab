import DesignTokens.Proofs.Block.Themes
import DesignTokens.Proofs.Block.Walk
import DesignTokens.Proofs.Equality
import DesignTokens.Proofs.Findings
import Mathlib.Data.List.TakeWhile

/-!
Where the analysis of a block document marks its findings.

The keys of the sections are searched from the beginning of the text.  No line above a section has
its key, so every section is found, and the walk over it begins right below.
-/

namespace DesignTokens
namespace Block

open Text Locate Analysis

/-! ## The lines of a node -/

/-- A line that is not that of a section. -/
structure Line.Inner (line : Line) : Prop where
  regular : line.Regular
  not_shared : line.key ≠ Keyword.shared
  not_themed : line.key ≠ Keyword.themed

theorem isKey_shared : IsKey Keyword.shared.toList :=
  isKey_of_all (by decide) (by decide)

theorem isKey_themed : IsKey Keyword.themed.toList :=
  isKey_of_all (by decide) (by decide)

theorem inner_of_isName {line : Line} (h : line.Regular) (hkey : isName line.key = true) :
    line.Inner :=
  ⟨h, ne_of_isName hkey rfl, ne_of_isName hkey rfl⟩

theorem inner_platformsLine {names : List String} (h : names.all isName = true) (indent : Nat) :
    (platformsLine indent names).Inner := by
  have hkeys : Keyword.platforms ≠ Keyword.shared ∧ Keyword.platforms ≠ Keyword.themed := by decide
  exact ⟨regular_platformsLine h indent, hkeys.1, hkeys.2⟩

theorem inner_themesLine {names : List String} (h : names.all isName = true) (indent : Nat) :
    (themesLine indent names).Inner := by
  have hkey : IsKey Keyword.themes.toList := isKey_of_all (by decide) (by decide)
  have hkeys : Keyword.themes ≠ Keyword.shared ∧ Keyword.themes ≠ Keyword.themed := by decide
  exact ⟨⟨hkey, (regular_platformsLine h indent).rest⟩, hkeys.1, hkeys.2⟩

theorem ItemLine.inner {line : ItemLine} (h : line.isValid = true) (indent : Nat) :
    (line.line indent).Inner := by
  have hregular := ItemLine.regular h indent
  cases line with
  | type word =>
      have hkeys : Keyword.type ≠ Keyword.shared ∧ Keyword.type ≠ Keyword.themed := by decide
      exact ⟨hregular, hkeys.1, hkeys.2⟩
  | platforms names => exact inner_platformsLine h indent
  | entry key written value =>
      exact ⟨hregular, ItemLine.ne_of_entry h rfl (by decide), ItemLine.ne_of_entry h rfl (by decide)⟩

mutual

theorem inner_lines (layout : Layout) (level : Nat) (node : Node) (hvalid : node.isValid = true) :
    ∀ line ∈ node.lines layout level, line.Inner := by
  cases node with
  | item content =>
      intro line hline
      rw [Node.lines] at hline
      obtain ⟨line, hmem, rfl⟩ := List.mem_map.mp hline
      exact ItemLine.inner ((validItem_iff.mp hvalid).lines line hmem) _
  | collection members =>
      rw [Node.isValid, Bool.and_eq_true] at hvalid
      rw [Node.lines]
      exact inner_memberLines layout level members hvalid.2

theorem inner_memberLines (layout : Layout) (level : Nat) (members : List Member)
    (hvalid : Node.areValid members = true) :
    ∀ line ∈ Node.memberLines layout level members, line.Inner := by
  match members with
  | [] => exact fun _ hline => absurd hline List.not_mem_nil
  | .platforms names :: members =>
      obtain ⟨hnames, hmembers⟩ := Node.areValid_platforms.mp hvalid
      rw [Node.memberLines, List.forall_mem_cons]
      exact ⟨inner_platformsLine hnames _, inner_memberLines layout level members hmembers⟩
  | .child key node :: members =>
      obtain ⟨hkey, hnode, hmembers⟩ := Node.areValid_child.mp hvalid
      rw [Node.memberLines, List.forall_mem_cons, List.forall_mem_append]
      exact ⟨inner_of_isName (regular_childLine hkey _) hkey,
        inner_lines layout (level + 1) node hnode, inner_memberLines layout level members hmembers⟩

end

/-! ## Sections -/

/-- The section that a node describes.  A collection without members is none. -/
def sectionOf (node : Option Node) : Option DesignTokens.Node :=
  ((node.map Node.value).filter (!·.isNull)).map DesignTokens.Node.ofValue

theorem sectionOf_some (node : Node) :
    node = .collection [] ∧ sectionOf (some node) = none ∨
      sectionOf (some node) = some (.ofValue node.value) := by
  cases node with
  | item content => exact .inr rfl
  | collection members =>
      cases members with
      | nil => exact .inl ⟨rfl, rfl⟩
      | cons member members => exact .inr rfl

section

variable {setting : Setting} {layout : Layout} {key : String} {path : ItemPath} {f f' : Findings}
  {before : List Line} {rest : List Char}

/-- The key of a section is found, and the walk begins right below it. -/
theorem Ahead.of_section {node : Node} (hkey : IsKey key.toList)
    (htext : setting.text =
      textOf before ++ (textOf (Shape.sectionLines layout key (some node)) ++ rest))
    (hbefore : ∀ line ∈ before, line.Regular ∧ line.key ≠ key) :
    let place := (childLine (layout.width 0) key).keyPlace (behind 0 before)
    Locate.key setting.text 0 key = .ok place ∧
      Ahead setting.text place.stop []
        (behind (behind 0 before) [childLine (layout.width 0) key])
        (textOf (node.lines layout 1) ++ rest) := by
  intro place
  rw [Shape.sectionLines, textOf_cons, List.append_assoc] at htext
  have hregular : (childLine (layout.width 0) key).Regular := ⟨hkey, List.not_mem_nil⟩
  have hstart : Reads setting.text 0 ([] ++ (textOf before ++
      ((childLine (layout.width 0) key).text ++ (textOf (node.lines layout 1) ++ rest)))) :=
    reads_iff.mpr ⟨[], htext, rfl⟩
  have hthere : Reads setting.text (behind 0 before)
      ((childLine (layout.width 0) key).text ++ (textOf (node.lines layout 1) ++ rest)) :=
    Reads.behind hstart
  have hfound := key_of_reads (.inl rfl) hstart hbefore hregular
  exact ⟨hfound.1, Ahead.of_colon List.not_mem_nil hfound.2 (Reads.behind_line hthere)⟩

theorem exists_walkSection {node : Option Node} (hkey : IsKey key.toList)
    (hvalid : node.all Node.isValid = true)
    (htext : setting.text = textOf before ++ (textOf (Shape.sectionLines layout key node) ++ rest))
    (hbefore : ∀ line ∈ before, line.Regular ∧ line.key ≠ key) :
    ∃ f', walkSection setting key path (sectionOf node) f = .ok f' := by
  cases node with
  | none => exact ⟨f, rfl⟩
  | some node =>
      rcases sectionOf_some node with ⟨-, hnone⟩ | hsome
      · rw [hnone]
        exact ⟨f, rfl⟩
      · obtain ⟨hplace, hahead⟩ := Ahead.of_section hkey htext hbefore
        obtain ⟨next, f', hwalk, -⟩ := hahead.toBehind.walk node hvalid
        rw [hsome]
        exact ⟨f', bind_eq_ok.mpr ⟨_, hplace, bind_eq_ok.mpr ⟨_, hwalk, rfl⟩⟩⟩

/-- What the walk over a section marks. -/
theorem walkSection_adds {node : Option Node} (hkey : IsKey key.toList)
    (hvalid : node.all Node.isValid = true)
    (htext : setting.text = textOf before ++ (textOf (Shape.sectionLines layout key node) ++ rest))
    (hbefore : ∀ line ∈ before, line.Regular ∧ line.key ≠ key)
    (h : walkSection setting key path (sectionOf node) f = .ok f') :
    Adds setting f (Shape.sectionMarks layout setting key path (behind 0 before) node)
      (node.all Node.isClear) f' := by
  have hempty : Adds setting f .empty true f :=
    ⟨fun _ => (Marks.append_empty _).symm, fun hclear => (by cases hclear)⟩
  cases node with
  | none =>
      cases h
      exact hempty
  | some node =>
      rcases sectionOf_some node with ⟨rfl, hnone⟩ | hsome
      · rw [hnone] at h
        cases h
        exact hempty
      · obtain ⟨hplace, hahead⟩ := Ahead.of_section hkey htext hbefore
        rw [hsome, walkSection] at h
        obtain ⟨span, hspan, hbelow⟩ := bind_eq_ok.mp h
        obtain ⟨⟨next, g⟩, hwalk, hpure⟩ := bind_eq_ok.mp hbelow
        cases hspan.symm.trans hplace
        cases hpure
        exact (hahead.walk node hvalid hwalk).adds

end

/-! ## The document -/

theorem ofValue_value (shape : Shape) (platforms : Option (List String)) :
    Document.ofValue (shape.value platforms) =
      ⟨some (shape.themes.map .string), platforms, sectionOf shape.shared,
        sectionOf shape.themed⟩ := by
  obtain ⟨themes, shared, themed⟩ := shape
  rw [Shape.value, Document.ofValue, Document.mk.injEq]
  refine ⟨rfl, ?_, ?_, ?_⟩
  · cases platforms with
    | none => cases shared <;> cases themed <;> rfl
    | some names => exact platformsOf_strings rfl
  · cases platforms <;> cases shared <;> cases themed <;> rfl
  · cases platforms <;> cases shared <;> cases themed <;> rfl

theorem isEmpty_registered (shape : Shape) : shape.registered.isEmpty = shape.themes.isEmpty := by
  rw [Shape.registered, Themes.isEmpty, OrderedMap.isEmpty]
  cases shape.themes with
  | nil => rfl
  | cons name names =>
      have hget := OrderedMap.get?_ofList_const (name :: names) (none : Option String) name
      rw [if_pos List.mem_cons_self] at hget
      have hmem := OrderedMap.mem_keys_of_get? hget
      rw [List.isEmpty_cons, List.isEmpty_eq_false_iff]
      intro hnil
      rw [OrderedMap.keys, hnil] at hmem
      cases hmem

section

variable {shape : Shape} {layout : Layout} {platforms : Option (List String)} {options : Options}

/-- The themes are those of the list, and names that come again are reported where they are
written. -/
theorem readThemes_value (hvalid : shape.themes.all isName = true) :
    readThemes (shape.text layout platforms) (.ofValue (shape.value platforms)) =
      .ok (shape.registered, Shape.duplicateThemes []
        (elementPlaces (((themesLine (layout.width 0) shape.themes).keyPlace 0).stop + 3)
          shape.themes)) := by
  let line := themesLine (layout.width 0) shape.themes
  obtain ⟨rest, hrest⟩ : ∃ rest, shape.text layout platforms = line.text ++ rest :=
    ⟨_, by rw [Shape.text, Shape.lines, Shape.headLines, List.cons_append, textOf_cons]⟩
  have hstart : Reads (shape.text layout platforms) 0 ([] ++ (textOf [] ++ (line.text ++ rest))) :=
    reads_iff.mpr ⟨[], hrest, rfl⟩
  obtain ⟨hkey, hreads⟩ := key_of_reads (.inl rfl) hstart (by simp)
    (inner_themesLine hvalid _).regular
  have hplain : Plain ⟨.empty, .empty, ⟨shape.text layout platforms, (line.keyPlace 0).stop⟩, []⟩
      [] := ⟨fun _ => rfl, fun hplace => (by cases hplace)⟩
  obtain ⟨hthemes, hproblems⟩ := hplain.declareAll (line.keyPlace 0) hvalid (misses_opening hvalid)
    hreads
  rw [ofValue_value, readThemes]
  refine bind_eq_ok.mpr ⟨line.keyPlace 0, hkey, ?_⟩
  rw [pure_eq_ok, Themes.build, Prod.mk.injEq]
  refine ⟨congrArg Themes.mk (hthemes.trans ?_), hproblems⟩
  rw [OrderedMap.ofList, List.foldl_map]
  rfl

/-- A document whose names are names and whose nodes are valid. -/
structure Shape.Valid (shape : Shape) (platforms : Option (List String)) : Prop where
  themes : shape.themes.all isName = true
  shared : shape.shared.all Node.isValid = true
  themed : shape.themed.all Node.isValid = true
  platforms : platforms.all (·.all isName) = true

theorem Shape.valid_of_isValid (h : shape.isValid = true)
    (hplatforms : platforms.all (·.all isName) = true) : shape.Valid platforms := by
  rw [Shape.isValid, Bool.and_eq_true, Bool.and_eq_true] at h
  exact ⟨h.1.1, h.1.2, h.2, hplatforms⟩

theorem Shape.Valid.visited (hvalid : shape.Valid platforms) :
    shape.visited.all Node.isValid = true := by
  rw [Shape.visited]
  split
  · rfl
  · exact hvalid.themed

theorem inner_headLines (hvalid : shape.Valid platforms) :
    ∀ line ∈ shape.headLines layout platforms, line.Inner := by
  rw [Shape.headLines, List.forall_mem_cons]
  refine ⟨inner_themesLine hvalid.themes _, fun line hline => ?_⟩
  obtain ⟨names, hnames, rfl⟩ := List.mem_map.mp hline
  rw [Option.mem_toList] at hnames
  have hnames : names.all isName = true := by simpa [hnames] using hvalid.platforms
  exact inner_platformsLine hnames _

theorem before_shared (hvalid : shape.Valid platforms) :
    ∀ line ∈ shape.headLines layout platforms, line.Regular ∧ line.key ≠ Keyword.shared := by
  intro line hline
  have hinner := inner_headLines hvalid line hline
  exact ⟨hinner.regular, hinner.not_shared⟩

theorem before_themed (hvalid : shape.Valid platforms) :
    ∀ line ∈ shape.headLines layout platforms ++
        Shape.sectionLines layout Keyword.shared shape.shared,
      line.Regular ∧ line.key ≠ Keyword.themed := by
  have hinner : ∀ line : Line, line.Inner → line.Regular ∧ line.key ≠ Keyword.themed :=
    fun line hline => ⟨hline.regular, hline.not_themed⟩
  rw [List.forall_mem_append]
  refine ⟨fun line hline => hinner line (inner_headLines hvalid line hline), ?_⟩
  cases hshared : shape.shared with
  | none => exact fun _ hline => absurd hline List.not_mem_nil
  | some node =>
      have hnode : node.isValid = true := by simpa [hshared] using hvalid.shared
      have hne : Keyword.shared ≠ Keyword.themed := by decide
      rw [Shape.sectionLines, List.forall_mem_cons]
      refine ⟨⟨⟨isKey_shared, List.not_mem_nil⟩, hne⟩, fun line hline => ?_⟩
      exact hinner line (inner_lines layout 1 node hnode line hline)

theorem text_shared : (shape.setting layout platforms options).text =
    textOf (shape.headLines layout platforms) ++
      (textOf (Shape.sectionLines layout Keyword.shared shape.shared) ++
        textOf (Shape.sectionLines layout Keyword.themed shape.themed)) := by
  rw [Shape.setting, Shape.text, Shape.lines, textOf_append, textOf_append]

theorem text_themed : ∃ rest, (shape.setting layout platforms options).text =
    textOf (shape.headLines layout platforms ++
        Shape.sectionLines layout Keyword.shared shape.shared) ++
      (textOf (Shape.sectionLines layout Keyword.themed shape.visited) ++ rest) := by
  rw [text_shared, textOf_append, ← List.append_assoc, Shape.visited]
  by_cases hempty : shape.themes.isEmpty = true
  · -- The section is written, but nothing comes to it.
    exact ⟨_, by rw [if_pos hempty]; rfl⟩
  · exact ⟨[], by rw [if_neg hempty, List.append_nil]⟩

/-- What is found before the sections are walked. -/
def Shape.declared (shape : Shape) (layout : Layout) : Findings :=
  Findings.empty.addDiagnostics (Shape.duplicateThemes []
    (elementPlaces (((themesLine (layout.width 0) shape.themes).keyPlace 0).stop + 3) shape.themes))

/-- An analysis walks the two sections one after the other. -/
theorem analysis_eq_ok (hvalid : shape.Valid platforms) {a : Analysis} :
    shape.analysis layout platforms options = .ok a ↔
      ∃ f g, walkSection (shape.setting layout platforms options) Keyword.shared .shared
          (sectionOf shape.shared) (shape.declared layout) = .ok f ∧
        walkSection (shape.setting layout platforms options) Keyword.themed .themed
          (sectionOf shape.visited) f = .ok g ∧
        a = ⟨g.diagnostics, g.decorations, g.hovers, g.registry, shape.registered,
          LineIndex.ofText (shape.text layout platforms)⟩ := by
  have hvisited : sectionOf shape.visited =
      if shape.registered.isEmpty = true then none else sectionOf shape.themed := by
    rw [isEmpty_registered, Shape.visited]
    split <;> rfl
  rw [Shape.analysis, ofDocument, readThemes_value hvalid.themes, ofValue_value, hvisited]
  simp only [bind_eq_ok, pure_eq_ok, Except.ok.injEq]
  constructor
  · rintro ⟨-, rfl, f, hf, g, hg, rfl⟩
    exact ⟨f, g, hf, hg, rfl⟩
  · rintro ⟨f, g, hf, hg, rfl⟩
    exact ⟨_, rfl, f, hf, g, hg, rfl⟩

theorem exists_analysis (hvalid : shape.Valid platforms) (layout : Layout) (options : Options) :
    ∃ a, shape.analysis layout platforms options = .ok a := by
  obtain ⟨rest, hthemed⟩ := text_themed
  obtain ⟨f, hf⟩ := exists_walkSection isKey_shared hvalid.shared text_shared (before_shared hvalid)
  obtain ⟨g, hg⟩ := exists_walkSection isKey_themed hvalid.visited hthemed (before_themed hvalid)
  exact ⟨_, (analysis_eq_ok hvalid).mpr ⟨f, g, hf, hg, rfl⟩⟩

/-- What an analysis marks. -/
theorem analysis_adds (hvalid : shape.Valid platforms) {a : Analysis}
    (ha : shape.analysis layout platforms options = .ok a) :
    ∃ g, Marks.of a.diagnostics a.hovers = marked g ∧
      Adds (shape.setting layout platforms options) (shape.declared layout)
        (Shape.sectionMarks layout (shape.setting layout platforms options) Keyword.shared .shared
            (behind 0 (shape.headLines layout platforms)) shape.shared ++
          Shape.sectionMarks layout (shape.setting layout platforms options) Keyword.themed .themed
            (behind (behind 0 (shape.headLines layout platforms))
              (Shape.sectionLines layout Keyword.shared shape.shared)) shape.visited)
        shape.isClear g := by
  obtain ⟨f, g, hf, hg, rfl⟩ := (analysis_eq_ok hvalid).mp ha
  obtain ⟨rest, hthemed⟩ := text_themed
  have hshared := walkSection_adds isKey_shared hvalid.shared text_shared (before_shared hvalid) hf
  have hvisits := walkSection_adds isKey_themed hvalid.visited hthemed (before_themed hvalid) hg
  rw [behind_append] at hvisits
  exact ⟨g, rfl, hshared.trans (walkSection_run hg).diagnostics_append fun _ => hvisits⟩

end

theorem duplicateThemes_structural {seen places : List (String × Span)} {d : Diagnostic}
    (h : d ∈ Shape.duplicateThemes seen places) : Marks.isStructural d = true := by
  induction places generalizing seen with
  | nil => cases h
  | cons place places ih =>
      rw [Shape.duplicateThemes] at h
      split at h
      · rcases List.mem_cons.mp h with rfl | h
        · exact isStructural_placedAt _ place.2
        · exact ih h
      · exact ih h

theorem marked_declared (shape : Shape) (layout : Layout) :
    marked (shape.declared layout) = ⟨Shape.duplicateThemes [] (elementPlaces
      (((themesLine (layout.width 0) shape.themes).keyPlace 0).stop + 3) shape.themes), []⟩ := by
  rw [Shape.declared, marked_addDiagnostics, Marks.of,
    filter_structural fun d hd => duplicateThemes_structural hd]
  rfl

theorem ofText_of_analysis {shape : Shape} {layout : Layout} {platforms : Option (List String)}
    {options : Options} {a : Analysis} (ha : shape.analysis layout platforms options = .ok a)
    (hread : Yaml.Value.ofText (shape.text layout platforms) = .ok (shape.value platforms)) :
    ofText options (shape.text layout platforms) = .ok a := by
  have hdot : '.' ∈ shape.text layout platforms := by
    have hkey : '.' ∈ Keyword.themes.toList := by decide
    simp [Shape.text, Shape.lines, Shape.headLines, textOf, themesLine, Line.text, hkey]
  have htrim := mem_trim hdot (by decide)
  have hblank : ¬(Text.trim (shape.text layout platforms)).isEmpty = true := by
    rw [List.isEmpty_iff]
    intro hnil
    rw [hnil] at htrim
    cases htrim
  refine ofText_eq_ok.mpr ⟨_, ?_, ha⟩
  rw [Document.ofText, if_neg hblank, hread]
  rfl

theorem ofText_of_equals {text : List Char} {value : Yaml.Value}
    (h : (Yaml.Value.ofText text).toOption.any (Yaml.Value.equals · value) = true) :
    Yaml.Value.ofText text = .ok value := by
  cases hread : Yaml.Value.ofText text with
  | error fault =>
      rw [hread] at h
      cases h
  | ok found =>
      rw [hread] at h
      rw [(Yaml.Value.equals_iff _ _).mp h]

/-! ## Where everything is marked -/

/-- Whether every problem and every hover is at the place where its subject is written. -/
def Shape.Faithful (shape : Shape) (layout : Layout) (platforms : Option (List String))
    (options : Options) : Prop :=
  ∀ a, shape.analysis layout platforms options = .ok a →
    Marks.of a.diagnostics a.hovers = shape.marks layout platforms options

theorem faithful_of_isClear {shape : Shape} {platforms : Option (List String)}
    (hvalid : shape.Valid platforms) (hclear : shape.isClear = true) (layout : Layout)
    (options : Options) : shape.Faithful layout platforms options := by
  intro a ha
  obtain ⟨g, hmarks, hadds⟩ := analysis_adds hvalid ha
  rw [hmarks, hadds.right hclear, marked_declared]
  rfl

theorem not_faithful {shape : Shape} (hvalid : shape.Valid none) (hclear : shape.isClear = false)
    (layout : Layout) (options : Options) : ¬shape.Faithful layout none options := by
  intro hfaithful
  obtain ⟨a, ha⟩ := exists_analysis hvalid layout options
  obtain ⟨g, hmarks, hadds⟩ := analysis_adds hvalid ha
  obtain ⟨found, hfound, hdiverges⟩ := hadds.wrong hclear rfl
  have hproblems := congrArg Marks.problems (hmarks.symm.trans (hfaithful a ha))
  rw [hfound, marked_declared] at hproblems
  exact hdiverges.ne (List.append_cancel_left hproblems)

/-- A block document is always analyzed, and every row of colors is at a hover.  Everything is marked
where it is written, whatever the platforms of the document are, exactly if no list of platforms has
its first name taken from its own key; a document without platforms shows the difference. -/
theorem faithful_iff_isClear (shape : Shape) (hvalid : shape.isValid = true) (layout : Layout)
    (options : Options) :
    (∀ platforms : Option (List String), platforms.all (·.all isName) = true →
      ∃ a, shape.analysis layout platforms options = .ok a ∧
        (Yaml.Value.ofText (shape.text layout platforms) = .ok (shape.value platforms) →
          ofText options (shape.text layout platforms) = .ok a) ∧
        a.decorations.multi = rowsOf a.hovers) ∧
      (shape.Faithful layout none options ↔ shape.isClear = true) ∧
      ((∀ platforms : Option (List String), platforms.all (·.all isName) = true →
        shape.Faithful layout platforms options) ↔ shape.isClear = true) := by
  have hclear_of_faithful : shape.Faithful layout none options → shape.isClear = true := by
    intro hfaithful
    by_contra hclear
    rw [Bool.not_eq_true] at hclear
    exact not_faithful (Shape.valid_of_isValid hvalid rfl) hclear layout options hfaithful
  refine ⟨fun platforms hplatforms => ?_, ⟨hclear_of_faithful, fun hclear => ?_⟩,
    fun hall => hclear_of_faithful (hall none rfl), fun hclear platforms hplatforms => ?_⟩
  · obtain ⟨a, ha⟩ := exists_analysis (Shape.valid_of_isValid hvalid hplatforms) layout options
    exact ⟨a, ha, ofText_of_analysis ha, (ofDocument_wellFormed ha).rows⟩
  · exact faithful_of_isClear (Shape.valid_of_isValid hvalid rfl) hclear layout options
  · exact faithful_of_isClear (Shape.valid_of_isValid hvalid hplatforms) hclear layout options

/-! ## A list behind an empty one -/

/-- Every level is indented by two more spaces. -/
def twoSpaces : Layout :=
  ⟨fun level => 2 * level, fun level => by omega⟩

/-- The platforms of `a` are written behind the empty list of `b`. -/
def behindEmpty : Shape :=
  ⟨["light"], some (.collection [.child "a" (.collection
    [.child "b" (.collection [.platforms []]), .platforms ["p"]])]), none⟩

theorem behindEmpty_text : behindEmpty.text twoSpaces none =
    (".themes: [light]\n.shared:\n  a:\n    b:\n      .platforms: []\n" ++
      "    .platforms: [p]\n").toList := by
  decide

theorem behindEmpty_read : Yaml.Value.ofText (behindEmpty.text twoSpaces none) =
    .ok (behindEmpty.value none) :=
  ofText_of_equals (by decide +kernel)

/-- The platform `p` is not found in its list, but in the key of the list. -/
theorem behindEmpty_misplaced : ∃ a,
    ofText .default (".themes: [light]\n.shared:\n  a:\n    b:\n      .platforms: []\n" ++
      "    .platforms: [p]\n").toList = .ok a ∧
      Marks.of a.diagnostics a.hovers ≠ behindEmpty.marks twoSpaces none .default := by
  have hvalid : behindEmpty.isValid = true := by decide +kernel
  have hclear : ¬behindEmpty.isClear = true := by decide +kernel
  obtain ⟨hanalyzed, hfaithful, -⟩ := faithful_iff_isClear behindEmpty hvalid twoSpaces .default
  obtain ⟨a, ha, hofText, -⟩ := hanalyzed none rfl
  rw [← behindEmpty_text]
  refine ⟨a, hofText behindEmpty_read, fun hmarks => hclear (hfaithful.mp ?_)⟩
  intro b hb
  cases ha.symm.trans hb
  exact hmarks

end Block
end DesignTokens
