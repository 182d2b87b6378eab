import DesignTokens.Proofs.ColorText
import DesignTokens.Proofs.Findings
import DesignTokens.Proofs.RegistryTypes

/-!
Every themed color item has one hover and one row of swatches.

A visit to such an item adds a hover with the colors of its bundle, and no other visit adds one
(`ItemVisit.hover_eq`); so the hovers of a pass are those of its items, in walk order
(`Run.hovered`).  The rows of swatches are the hovers grouped by a key, which joins the texts of the
colors.  Texts of colors are neither empty nor hold a comma, so rows of one length have the same key
only if they show the same colors (`rowKey_eq_iff`).
-/

namespace DesignTokens

/-! ## The key of a row -/

namespace Color

theorem comma_not_mem_text (c : Color) : ',' ∉ c.text.toList := by
  have hdigit : ∀ d : Fin 16, ',' ≠ Nat.digitChar d := by decide
  have hlow (b : UInt8) : ',' ≠ Nat.digitChar (b.toNat % 16) := hdigit ⟨_, Nat.mod_lt _ (by decide)⟩
  have hhigh (b : UInt8) : ',' ≠ Nat.digitChar (b.toNat / 16) := by
    have hlt := b.toNat_lt
    exact hdigit ⟨_, by omega⟩
  simp [text, hexByte, hlow, hhigh]

end Color

namespace Hover

/-- What the key of a row has in the place of a color. -/
def slot (color : Option Color) : String :=
  (color.map Color.text).getD ""

theorem slot_injective {c d : Option Color} (h : slot c = slot d) : c = d := by
  have hne (c : Color) : c.text ≠ "" := by
    intro hempty
    have hlist := congrArg String.toList hempty
    simp [Color.text, Color.hexByte] at hlist
  cases c with
  | none =>
      cases d with
      | none => rfl
      | some d => exact absurd h.symm (hne d)
  | some c =>
      cases d with
      | none => exact absurd h (hne c)
      | some d => exact congrArg some (Color.text_injective h)

theorem comma_not_mem_slot (color : Option Color) : ',' ∉ (slot color).toList := by
  cases color with
  | none => exact List.not_mem_nil
  | some c => exact c.comma_not_mem_text

/-- The colors can be read off the key of a row that is not empty. -/
theorem splitOn_rowKey {colors : List ThemedColor} (h : colors ≠ []) :
    (rowKey colors).toList.splitOn ',' = colors.map fun c => (slot c.color).toList := by
  have hkey : (rowKey colors).toList =
      [','].intercalate (colors.map fun c => (slot c.color).toList) := by
    rw [rowKey, String.toList_intercalate, List.map_map]
    rfl
  rw [hkey, List.splitOn_intercalate]
  · intro cs hcs
    obtain ⟨c, -, hc⟩ := List.mem_map.mp hcs
    rw [← hc]
    exact comma_not_mem_slot c.color
  · simpa using h

theorem rowKey_eq_iff {first second : List ThemedColor} (h : first.length = second.length) :
    rowKey first = rowKey second ↔
      first.map ThemedColor.color = second.map ThemedColor.color := by
  constructor
  · intro hkey
    by_cases hnil : first = []
    · subst hnil
      rw [List.eq_nil_of_length_eq_zero h.symm]
    · have hnil' : second ≠ [] := by
        intro heq
        rw [heq] at h
        exact hnil (List.eq_nil_of_length_eq_zero h)
      have hslots : first.map (fun c => (slot c.color).toList) =
          second.map fun c => (slot c.color).toList := by
        rw [← splitOn_rowKey hnil, ← splitOn_rowKey hnil', hkey]
      have hinj : Function.Injective fun color : Option Color => (slot color).toList :=
        fun c d hcd => slot_injective (String.toList_inj.mp hcd)
      apply hinj.list_map
      rw [List.map_map, List.map_map]
      exact hslots
  · intro hcolors
    have hkey (colors : List ThemedColor) :
        rowKey colors = ",".intercalate ((colors.map ThemedColor.color).map slot) := by
      rw [rowKey, List.map_map]
      rfl
    rw [hkey, hkey, hcolors]

end Hover

namespace Analysis

/-! ## Grouping -/

/-- The hovers grouped by the keys of their rows: the keys in the order in which they come first, and
under each the places in order. -/
def rowGroups (hovers : List Hover) : List (String × List Span) :=
  (hovers.map fun h => Hover.rowKey h.colors).eraseDups.map fun key =>
    (key, (hovers.filter fun h => Hover.rowKey h.colors = key).map Hover.span)

theorem rowsOf_concat (hovers : List Hover) (h : Hover) :
    rowsOf (hovers ++ [h]) = (rowsOf hovers).extend (Hover.rowKey h.colors) [h.span] := by
  rw [rowsOf, List.foldl_append]
  rfl

theorem keys_rowsOf (hovers : List Hover) :
    (rowsOf hovers).keys = (hovers.map fun h => Hover.rowKey h.colors).eraseDups := by
  induction hovers using List.reverseRecOn with
  | nil => rfl
  | append_singleton hovers h ih =>
      have hkeys : (rowsOf hovers).entries.map Prod.fst =
          (hovers.map fun h => Hover.rowKey h.colors).eraseDups := ih
      have hput := OrderedMap.keys_put (Hover.rowKey h.colors)
        (fun old => old.getD [] ++ [h.span]) (rowsOf hovers).entries
      rw [rowsOf_concat, List.map_append, List.map_singleton, List.eraseDups_append]
      show ((OrderedMap.put _ _ _).map Prod.fst : List String) = _
      rw [hput, hkeys]
      by_cases hmem : Hover.rowKey h.colors ∈ hovers.map fun h => Hover.rowKey h.colors
      · have hnone : [Hover.rowKey h.colors].removeAll (hovers.map fun h => Hover.rowKey h.colors) =
            [] := by
          simpa [List.removeAll] using hmem
        rw [if_pos (List.mem_eraseDups.mpr hmem), hnone]
        exact (List.append_nil _).symm
      · have hnew : [Hover.rowKey h.colors].removeAll (hovers.map fun h => Hover.rowKey h.colors) =
            [Hover.rowKey h.colors] := by
          simpa [List.removeAll] using hmem
        rw [if_neg (fun hin => hmem (List.mem_eraseDups.mp hin)), hnew]
        rfl

theorem getD_rowsOf (hovers : List Hover) (key : String) :
    ((rowsOf hovers).get? key).getD [] =
      (hovers.filter fun h => Hover.rowKey h.colors = key).map Hover.span := by
  induction hovers using List.reverseRecOn with
  | nil => rfl
  | append_singleton hovers h ih =>
      rw [rowsOf_concat, OrderedMap.get?_extend, List.filter_append, List.map_append, ← ih]
      by_cases hkey : key = Hover.rowKey h.colors
      · simp [hkey]
      · simp [hkey, Ne.symm hkey]

theorem entries_rowsOf {hovers : List Hover} (h : (rowsOf hovers).Distinct) :
    (rowsOf hovers).entries = rowGroups hovers := by
  rw [rowGroups, ← keys_rowsOf, OrderedMap.keys, List.map_map]
  calc (rowsOf hovers).entries
      = (rowsOf hovers).entries.map id := (List.map_id _).symm
    _ = _ := List.map_congr_left fun entry hentry => ?_
  have hget : (rowsOf hovers).get? entry.1 = some entry.2 := h.mem_entries.mp hentry
  have hspans := getD_rowsOf hovers entry.1
  rw [hget] at hspans
  exact Prod.ext rfl hspans

/-! ## The hover of a visit -/

/-- Whether an item shows a row of colors: it is themed and its type is `color`. -/
def showsRow (subject : ItemPath × Item) : Bool :=
  !subject.1.isShared && subject.2.type = .ok .color

namespace ItemVisit

def colorFor (v : ItemVisit) (theme : String) : Option Color :=
  v.report.bundle.bind fun bundle => (bundle.valueFor theme).bind Value.color?

def row (v : ItemVisit) (themes : List String) : Hover :=
  ⟨v.context.key, v.context.path.text, themes.map fun theme => ⟨theme, v.colorFor theme⟩⟩

/-- A visit adds the row of the item if it shows one, and no hover otherwise. -/
theorem hover_eq {v : ItemVisit} (h : v.context.report v.inherited = .ok v.report)
    (hdecorate : v.context.setting.options.decorateColors = true) :
    v.report.hover =
      if showsRow v.subject then some (v.row v.context.setting.themes.names) else none := by
  rcases (ItemContext.report_cases h).2 with ⟨marker, hr⟩ | ⟨type, bundle, hr⟩
  · have hshows : showsRow v.subject = false := by simp [showsRow, subject, hr.type_eq]
    rw [hr.hover_eq, hshows]
    rfl
  · have hcolor (theme : String) :
        v.colorFor theme = (bundle.valueFor theme).bind Value.color? := by
      rw [colorFor, hr.bundle_eq]
      rfl
    rw [hr.hover_eq]
    by_cases htype : type = .color
    · rw [if_pos ⟨htype, hdecorate⟩, ItemContext.hover?]
      cases hshared : v.context.path.isShared with
      | true => simp [showsRow, subject, hshared]
      | false => simp [showsRow, subject, hshared, hr.type_eq, htype, row, hcolor]
    · have hshows : showsRow v.subject = false := by simp [showsRow, subject, hr.type_eq, htype]
      rw [if_neg (fun hdecorated => htype hdecorated.1), hshows]
      rfl

theorem isSome_bundle_of_showsRow {v : ItemVisit}
    (h : v.context.report v.inherited = .ok v.report) (hshows : showsRow v.subject = true) :
    v.report.bundle.isSome = true := by
  rcases (ItemContext.report_cases h).2 with ⟨marker, hr⟩ | ⟨type, bundle, hr⟩
  · simp [showsRow, subject, hr.type_eq] at hshows
  · rw [hr.bundle_eq]
    rfl

/-- Two rows have the same key exactly if they show the same color for every theme. -/
theorem rowKey_row_iff (v w : ItemVisit) (themes : List String) :
    Hover.rowKey (v.row themes).colors = Hover.rowKey (w.row themes).colors ↔
      ∀ theme ∈ themes, v.colorFor theme = w.colorFor theme := by
  have hlength : (v.row themes).colors.length = (w.row themes).colors.length := by simp [row]
  rw [Hover.rowKey_eq_iff hlength]
  simp only [row, List.map_map]
  exact List.map_inj_left

end ItemVisit

/-! ## The hovers of a pass -/

/-- The step and the run: each visit adds its hover behind those before it. -/
theorem Run.hovered {setting : Setting} {visits : List Visit} {f f' : Findings}
    (hrun : Run setting visits f f') :
    ∃ log, Tells setting (visits.filterMap Visit.subject?) log f f' ∧
      f'.hovers = f.hovers ++ log.flatMap (·.report.hover.toList) := by
  induction hrun with
  | nil => exact ⟨[], .nil _, (List.append_nil _).symm⟩
  | @platforms own inherited path cursor after diagnostics visits f f' _ _ _ ih =>
      obtain ⟨log, htells, hhovers⟩ := ih
      exact ⟨log, (Tells.addDiagnostics f diagnostics).append htells, hhovers⟩
  | item hreport _ ih =>
      obtain ⟨log, htells, hhovers⟩ := ih
      refine ⟨_, (Tells.item hreport).append htells, ?_⟩
      rw [hhovers, List.singleton_append, List.flatMap_cons, ← List.append_assoc]
      rfl

theorem flatMap_hover {setting : Setting} {visits : List ItemVisit}
    (hsetting : ∀ v ∈ visits, v.context.setting = setting)
    (hreport : ∀ v ∈ visits, v.context.report v.inherited = .ok v.report)
    (hdecorate : setting.options.decorateColors = true) :
    visits.flatMap (·.report.hover.toList) =
      (visits.filter fun v => showsRow v.subject).map (·.row setting.themes.names) := by
  induction visits with
  | nil => rfl
  | cons v visits ih =>
      rw [List.forall_mem_cons] at hsetting hreport
      have hhover := ItemVisit.hover_eq hreport.1 (by rw [hsetting.1]; exact hdecorate)
      rw [hsetting.1] at hhover
      rw [List.flatMap_cons, ih hsetting.2 hreport.2, hhover, List.filter_cons]
      by_cases hshows : showsRow v.subject = true
      · rw [if_pos hshows, if_pos hshows]
        rfl
      · rw [if_neg hshows, if_neg hshows]
        rfl

/-- If swatches are collected, then the hovers are the rows of the themed color items in walk order,
each with the color that the bundle of the item has for every theme; the rows of swatches are these
hovers grouped by key, and two items are in one group exactly if they have the same color for every
theme, or none. -/
theorem hovers_are_rows {options : Options} (hdecorate : options.decorateColors = true)
    {text : List Char} {document : Document} {a : Analysis}
    (h : ofDocument options text document = .ok a) :
    ∃ visits rows,
      Tells (settingOf options text document a.themes) (walkOrder a.themes document) visits .empty
        ⟨a.registry, a.diagnostics, a.decorations, a.hovers⟩ ∧
      rows = visits.filter (fun v => showsRow v.subject) ∧
      rows.map ItemVisit.subject = (walkOrder a.themes document).filter showsRow ∧
      (∀ v ∈ rows, v.report.bundle.isSome = true) ∧
      a.themes.names.Nodup ∧
      a.hovers = rows.map (·.row a.themes.names) ∧
      a.decorations.multi.entries = rowGroups a.hovers ∧
      ∀ v ∈ rows, ∀ w ∈ rows,
        (∃ group ∈ a.decorations.multi.entries,
          group.1 = Hover.rowKey (v.row a.themes.names).colors ∧
          group.1 = Hover.rowKey (w.row a.themes.names).colors) ↔
        ∀ theme ∈ a.themes.names, v.colorFor theme = w.colorFor theme := by
  obtain ⟨diagnostics, hthemes, -, hrun⟩ := ofDocument_run h
  obtain ⟨visits, htold, hadded⟩ := hrun.hovered
  have htells := (Tells.addDiagnostics .empty diagnostics).append htold
  rw [documentVisits_subjects] at htells
  have hreports : ∀ v ∈ visits, v.context.report v.inherited = .ok v.report := htold.report_eq
  have hhovers : a.hovers =
      (visits.filter fun v => showsRow v.subject).map (·.row a.themes.names) :=
    hadded.trans (flatMap_hover htold.setting_eq hreports hdecorate)
  have hgroups : a.decorations.multi.entries = rowGroups a.hovers := by
    have hwell := ofDocument_wellFormed h
    have hrows : a.decorations.multi = rowsOf a.hovers := hwell.rows
    have hdistinct : a.decorations.multi.Distinct := hwell.decorations.2.distinct
    rw [hrows] at hdistinct ⊢
    exact entries_rowsOf hdistinct
  refine ⟨visits, _, htells, rfl, ?_, ?_, (readThemes_ordered hthemes).distinct, hhovers, hgroups,
    ?_⟩
  · have hsubjects : visits.map ItemVisit.subject = walkOrder a.themes document := htells.subjects
    rw [← hsubjects, List.filter_map]
    rfl
  · intro v hv
    obtain ⟨hmem, hshows⟩ := List.mem_filter.mp hv
    exact ItemVisit.isSome_bundle_of_showsRow (hreports v hmem) hshows
  · intro v hv w _
    rw [← ItemVisit.rowKey_row_iff]
    constructor
    · intro hshare
      obtain ⟨group, -, hfirst, hsecond⟩ := hshare
      rw [← hfirst, hsecond]
    · intro hkey
      -- The key of a hover is the key of a group.
      have hmem : Hover.rowKey (v.row a.themes.names).colors ∈
          (a.hovers.map fun h => Hover.rowKey h.colors).eraseDups := by
        rw [List.mem_eraseDups, hhovers, List.map_map]
        exact List.mem_map.mpr ⟨v, hv, rfl⟩
      rw [hgroups]
      exact ⟨_, List.mem_map.mpr ⟨_, hmem, rfl⟩, rfl, hkey⟩

/-- A color, one that imports it for both themes, and one that is no color for the second theme. -/
def threeRowsText : List Char :=
  (".themes: [light, dark]\n.themed:\n"
    ++ "  a:\n    .type: color\n    light: ff102030\n    dark: ff405060\n"
    ++ "  b:\n    .type: color\n    light: \x7bimport: a\x7d\n    dark: \x7bimport: a\x7d\n"
    ++ "  c:\n    .type: color\n    light: ff102030\n    dark: none\n").toList

/-- The first two items share a row; the third one has a row of its own. -/
theorem threeRowsText_grouped : ∃ document a, ∃ rows : List ItemVisit,
    Document.ofText threeRowsText = .ok document ∧
    ofDocument .default threeRowsText document = .ok a ∧
    a.hovers.map Hover.path = ["a", "b", "c"] ∧
    a.decorations.multi.entries =
      [("ff102030,ff405060", [⟨34, 35⟩, ⟨95, 96⟩]), ("ff102030,", [⟨162, 163⟩])] ∧
    a.hovers = rows.map (·.row ["light", "dark"]) ∧
    ∀ v ∈ rows, ∀ w ∈ rows,
      (∃ group ∈ a.decorations.multi.entries,
        group.1 = Hover.rowKey (v.row ["light", "dark"]).colors ∧
        group.1 = Hover.rowKey (w.row ["light", "dark"]).colors) ↔
      ∀ theme ∈ ["light", "dark"], v.colorFor theme = w.colorFor theme := by
  have hpasses : passes .default threeRowsText (fun _ a =>
      decide (a.themes.names = ["light", "dark"] ∧ a.hovers.map Hover.path = ["a", "b", "c"] ∧
        a.decorations.multi.entries =
          [("ff102030,ff405060", [⟨34, 35⟩, ⟨95, 96⟩]), ("ff102030,", [⟨162, 163⟩])])) = true := by
    decide +kernel
  obtain ⟨document, a, hread, ha, htest⟩ := passes_iff.mp hpasses
  obtain ⟨hnames, hpaths, hentries⟩ := of_decide_eq_true htest
  obtain ⟨read, hsame, hdocument⟩ := ofText_eq_ok.mp ha
  cases hread.symm.trans hsame
  have hdecorate : Options.default.decorateColors = true := rfl
  obtain ⟨visits, rows, -, -, -, -, -, hhovers, -, hshare⟩ := hovers_are_rows hdecorate hdocument
  rw [hnames] at hhovers hshare
  exact ⟨document, a, rows, hread, hdocument, hpaths, hentries, hhovers, hshare⟩

end Analysis
end DesignTokens
