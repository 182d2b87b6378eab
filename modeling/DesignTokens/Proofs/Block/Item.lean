import DesignTokens.Proofs.Block.Lists
import DesignTokens.Proofs.Pass

/-!
The report on an item of a block document.

The lines of an item stand right below its key and have distinct keys, so each of them is found where
it is written.  Even if the search begins too early, every key is found, and the search does not go
behind the item.
-/

namespace DesignTokens
namespace Block

open Text Locate Analysis

/-! ## The item that lines describe -/

theorem ItemLine.pair_fst (line : ItemLine) : line.pair.1 = .string line.key := by
  cases line <;> rfl

theorem ItemLine.line_key (indent : Nat) (line : ItemLine) : (line.line indent).key = line.key := by
  cases line <;> rfl

theorem ItemLine.isValid_entry {key : String} {written : List Char} {value : Yaml.Value} :
    (ItemLine.entry key written value).isValid = true ↔
      (isName key = true ∨ key = Keyword.value) ∧ '\n' ∉ written := by
  simp only [ItemLine.isValid, Bool.and_eq_true, Bool.or_eq_true, beq_iff_eq, decide_eq_true_eq]

/-- An entry is under a name or under the keyword for shared values, so under no other keyword. -/
theorem ItemLine.ne_of_entry {key keyword : String} {written : List Char} {value : Yaml.Value}
    (h : (ItemLine.entry key written value).isValid = true) (hkeyword : isReserved keyword = true)
    (hne : Keyword.value ≠ keyword) : key ≠ keyword := by
  rcases (ItemLine.isValid_entry.mp h).1 with hname | rfl
  · exact ne_of_isName hname hkeyword
  · exact hne

theorem ItemLine.regular {line : ItemLine} (h : line.isValid = true) (indent : Nat) :
    (line.line indent).Regular := by
  cases line with
  | type word =>
      have hno := not_mem_of_isName h (c := '\n') (by decide)
      exact ⟨isKey_type, by simp [ItemLine.line, hno]⟩
  | platforms names => exact regular_platformsLine h indent
  | entry key written value =>
      obtain ⟨hkey, hwritten⟩ := ItemLine.isValid_entry.mp h
      refine ⟨?_, by simp [ItemLine.line, hwritten]⟩
      rcases hkey with hname | rfl
      · exact isKey_of_isName hname
      · exact isKey_value

theorem keys_itemOf (content : List ItemLine) :
    (itemOf content).keys = content.map ItemLine.key := by
  induction content with
  | nil => rfl
  | cons line content ih =>
      have htext : keyText? line.pair.1 = some line.key := by
        rw [line.pair_fst]
        rfl
      simp only [itemOf, Item.keys, List.map_cons, List.filterMap_cons, htext]
      exact congrArg (line.key :: ·) ih

theorem isString_pair (line : ItemLine) (key : String) :
    line.pair.1.isString key = (line.key == key) := by
  rw [line.pair_fst]
  rfl

theorem get?_of_mem {content : List ItemLine} (hnodup : (content.map ItemLine.key).Nodup)
    {line : ItemLine} (h : line ∈ content) :
    Yaml.get? line.key (content.map ItemLine.pair) = some line.pair.2 := by
  induction content with
  | nil => cases h
  | cons first content ih =>
      rw [List.map_cons, List.nodup_cons] at hnodup
      simp only [Yaml.get?, List.map_cons, List.find?_cons, isString_pair]
      rcases List.mem_cons.mp h with rfl | h
      · simp
      · have hne : (first.key == line.key) = false := by
          rw [beq_eq_false_iff_ne]
          intro heq
          exact hnodup.1 (heq ▸ List.mem_map_of_mem h)
        rw [hne]
        exact ih hnodup.2 h

theorem mem_of_get? {content : List ItemLine} {key : String} {value : Yaml.Value}
    (h : Yaml.get? key (content.map ItemLine.pair) = some value) :
    ∃ line ∈ content, line.key = key ∧ line.pair.2 = value := by
  simp only [Yaml.get?, Option.map_eq_some_iff] at h
  obtain ⟨pair, hpair, rfl⟩ := h
  obtain ⟨line, hline, rfl⟩ := List.mem_map.mp (List.mem_of_find?_eq_some hpair)
  have hkey := List.find?_some hpair
  rw [isString_pair, beq_iff_eq] at hkey
  exact ⟨line, hline, hkey, rfl⟩

theorem mem_keys_of_entry {content : List ItemLine} {key : String} {entry : Yaml.Value}
    (h : Item.entry? (itemOf content) key = some entry) : key ∈ content.map ItemLine.key := by
  obtain ⟨line, hline, rfl, -⟩ := mem_of_get? (Option.filter_eq_some_iff.mp h).1
  exact List.mem_map_of_mem hline

/-- A valid item. -/
structure ValidItem (content : List ItemLine) : Prop where
  lines : ∀ line ∈ content, line.isValid = true
  nodup : (content.map ItemLine.key).Nodup
  typed : ∃ word, .type word ∈ content

theorem validItem_iff {content : List ItemLine} :
    (Node.item content).isValid = true ↔ ValidItem content := by
  rw [Node.isValid]
  simp only [Bool.and_eq_true, List.all_eq_true, decide_eq_true_eq]
  constructor
  · rintro ⟨⟨hlines, hnodup⟩, htype⟩
    obtain ⟨line, hline, hkey⟩ := List.mem_map.mp htype
    refine ⟨hlines, hnodup, ?_⟩
    cases line with
    | type word => exact ⟨word, hline⟩
    | platforms names => exact absurd hkey (show Keyword.platforms ≠ Keyword.type by decide)
    | entry key written value =>
        exact absurd hkey (ItemLine.ne_of_entry (hlines _ hline) rfl (by decide))
  · rintro ⟨hlines, hnodup, word, hword⟩
    exact ⟨⟨hlines, hnodup⟩, List.mem_map_of_mem hword⟩

theorem type_itemOf {content : List ItemLine} (h : ValidItem content) {word : String}
    (hword : .type word ∈ content) :
    (itemOf content).type = match ItemType.ofName? word with
      | some type => .ok type
      | none => .error word := by
  have hget : Yaml.get? Keyword.type (content.map ItemLine.pair) = some (.string word) :=
    get?_of_mem h.nodup hword
  simp only [Item.type, Item.typeMarker, itemOf, hget, Option.getD_some]
  cases ItemType.ofName? word <;> rfl

/-- A line with the key of the lists declares a list. -/
theorem eq_platforms_of_key {line : ItemLine} (h : line.isValid = true)
    (hkey : line.key = Keyword.platforms) : ∃ names, line = .platforms names := by
  cases line with
  | type word => exact absurd hkey (show Keyword.type ≠ Keyword.platforms by decide)
  | platforms names => exact ⟨names, rfl⟩
  | entry key written value => exact absurd hkey (ItemLine.ne_of_entry h rfl (by decide))

theorem render_strings (names : List String) :
    (names.map Yaml.Value.string).map Yaml.Value.render = names := by
  rw [List.map_map]
  exact List.map_id'' (fun _ => rfl) names

theorem platformsOf_strings {entries : List (Yaml.Value × Yaml.Value)} {names : List String}
    (h : Yaml.get? Keyword.platforms entries = some (.sequence (names.map .string))) :
    platformsOf entries = some names := by
  simp only [platformsOf, h, render_strings]

theorem platforms_itemOf {content : List ItemLine} (h : ValidItem content) {names : List String}
    (hnames : .platforms names ∈ content) : (itemOf content).platforms = some names :=
  platformsOf_strings (get?_of_mem h.nodup hnames)

theorem platforms_itemOf_none {content : List ItemLine} (h : ValidItem content)
    (hnames : ∀ names, .platforms names ∉ content) : (itemOf content).platforms = none := by
  have hget : Yaml.get? Keyword.platforms (content.map ItemLine.pair) = none := by
    rw [Option.eq_none_iff_forall_ne_some]
    intro value hvalue
    obtain ⟨line, hline, hkey, -⟩ := mem_of_get? hvalue
    obtain ⟨names, rfl⟩ := eq_platforms_of_key (h.lines line hline) hkey
    exact hnames names hline
  simp only [Item.platforms, platformsOf, itemOf, hget]

/-! ## Every key is found -/

/-- The text of the lines of an item. -/
def itemText (indent : Nat) (content : List ItemLine) : List Char :=
  textOf (content.map (ItemLine.line indent))

theorem itemText_append (indent : Nat) (first second : List ItemLine) :
    itemText indent (first ++ second) = itemText indent first ++ itemText indent second := by
  rw [itemText, List.map_append, textOf_append]
  rfl

theorem itemText_cons (indent : Nat) (line : ItemLine) (content : List ItemLine) :
    itemText indent (line :: content) = (line.line indent).text ++ itemText indent content := by
  rw [itemText, List.map_cons, textOf_cons]
  rfl

theorem regular_itemLines {content : List ItemLine} (h : ∀ line ∈ content, line.isValid = true)
    (indent : Nat) : ∀ line ∈ content.map (ItemLine.line indent), line.Regular := by
  intro line hline
  obtain ⟨line, hmem, rfl⟩ := List.mem_map.mp hline
  exact ItemLine.regular (h line hmem) indent

theorem Behind.itemKey {text rest : List Char} {offset start indent : Nat}
    {content : List ItemLine} (hvalid : ∀ line ∈ content, line.isValid = true)
    (h : Behind text offset start (itemText indent content ++ rest)) {key : String}
    (hkey : key ∈ content.map ItemLine.key) :
    ∃ span, Locate.key text offset key = .ok span ∧ offset ≤ span.stop ∧
      Behind text span.stop (behind start (content.map (ItemLine.line indent))) rest := by
  obtain ⟨line, hline, rfl⟩ := List.mem_map.mp hkey
  obtain ⟨before, after, rfl⟩ := List.append_of_mem hline
  have hbefore : ∀ l ∈ before.map (ItemLine.line indent), l.Regular :=
    regular_itemLines (fun l hl => hvalid l (List.mem_append_left _ hl)) indent
  have hsplit : Behind text offset start (textOf (before.map (ItemLine.line indent)) ++
      ((line.line indent).text ++ (itemText indent after ++ rest))) := by
    rw [itemText_append, itemText_cons] at h
    simpa [itemText] using h
  obtain ⟨span, hfound, hle, hstop, hreads⟩ := hsplit.key hbefore
    (ItemLine.regular (hvalid line hline) indent)
  rw [ItemLine.line_key] at hfound
  have hforward : Behind text offset _ rest := h.forward
  refine ⟨span, hfound, hle, hforward.move ?_ hreads⟩
  refine Nat.le_trans hstop (Nat.le_trans (Line.keyPlace_stop_le _ _) ?_)
  rw [List.map_append, List.map_cons, behind_append]
  exact (le_behind _ _).trans_eq (behind_cons _ _ _).symm

theorem exists_swatches {c : ItemContext} {rest : List Char} {indent : Nat}
    {content : List ItemLine} (hvalid : ∀ line ∈ content, line.isValid = true) {cursor : Cursor}
    {start : Nat} (h : Behind cursor.text cursor.offset start (itemText indent content ++ rest)) :
    ∃ swatches, c.swatches cursor ((content.map ItemLine.key).filter (!isReserved ·)) =
      .ok swatches := by
  induction content generalizing cursor start with
  | nil => exact ⟨[], rfl⟩
  | cons line content ih =>
      have hvalid' : ∀ l ∈ content, l.isValid = true := fun l hl =>
        hvalid l (List.mem_cons_of_mem _ hl)
      have hskip : Behind cursor.text cursor.offset (behind start [line.line indent])
          (itemText indent content ++ rest) := by
        rw [itemText_cons, List.append_assoc] at h
        exact h.forward_line
      by_cases hreserved : isReserved line.key = true
      · have hfilter : (List.map ItemLine.key (line :: content)).filter (!isReserved ·) =
            (content.map ItemLine.key).filter (!isReserved ·) := by
          simp [hreserved]
        rw [hfilter]
        exact ih hvalid' hskip
      · have hfilter : (List.map ItemLine.key (line :: content)).filter (!isReserved ·) =
            line.key :: (content.map ItemLine.key).filter (!isReserved ·) := by
          simp [hreserved]
        rw [hfilter, ItemContext.swatches]
        cases c.item.entry? line.key with
        | none => exact ih hvalid' hskip
        | some entry =>
            have hline : Behind cursor.text cursor.offset start (itemText indent [line] ++
                (itemText indent content ++ rest)) := by
              rw [itemText_cons] at h
              simpa [itemText, textOf] using h
            have hmem : line.key ∈ [line].map ItemLine.key := List.mem_cons_self
            obtain ⟨site, hsite, hle, hbehind⟩ := hline.itemKey
              (by simpa using hvalid line List.mem_cons_self) hmem
            have hnext : Behind (Cursor.mk cursor.text site.stop).text
                (Cursor.mk cursor.text site.stop).offset _ _ := hbehind
            obtain ⟨swatches, hswatches⟩ := ih hvalid' hnext
            simp [Cursor.advanceTo_of_le hle, Cursor.key, hsite, hswatches, bind, Except.bind, pure,
              Except.pure]

section

variable {c : ItemContext} {content : List ItemLine} {indent start : Nat} {rest : List Char}

theorem exists_check (hvalid : ValidItem content) (hitem : c.item = itemOf content)
    (h : Behind c.setting.text c.key.stop start (itemText indent content ++ rest))
    (inherited : List String) : ∃ found,
      Platforms.check c.setting (c.item.platforms.getD []) inherited c.path c.body = .ok found := by
  by_cases hnames : ∃ names, .platforms names ∈ content
  · obtain ⟨names, hmem⟩ := hnames
    obtain ⟨span, hspan, hle, -⟩ := h.itemKey hvalid.lines (List.mem_map_of_mem hmem)
    rw [hitem, platforms_itemOf hvalid hmem, Option.getD_some]
    by_cases hne : names = []
    · subst hne
      exact ⟨_, rfl⟩
    · exact ⟨_, check_eq_of_key hne hspan hle⟩
  · rw [not_exists] at hnames
    rw [hitem, platforms_itemOf_none hvalid hnames]
    exact ⟨_, rfl⟩

theorem exists_themeProblems (hvalid : ValidItem content) (hitem : c.item = itemOf content)
    (h : Behind c.setting.text c.key.stop start (itemText indent content ++ rest)) :
    ∃ problems, c.themeProblems = .ok problems := by
  rw [ItemContext.themeProblems]
  split
  · exact ⟨[], rfl⟩
  · obtain ⟨unknown, hunknown⟩ : ∃ unknown, c.unknownThemes = .ok unknown := by
      refine exists_mapM fun name hname => ?_
      have hmem : name ∈ content.map ItemLine.key := by
        rw [hitem, Item.themeKeys, keys_itemOf] at hname
        exact List.mem_of_mem_filter (List.mem_of_mem_filter hname)
      obtain ⟨span, hspan, -⟩ := h.itemKey hvalid.lines hmem
      have hspan : c.body.key name = .ok span := hspan
      exact ⟨_, bind_eq_ok.mpr ⟨span, hspan, rfl⟩⟩
    exact ⟨_, bind_eq_ok.mpr ⟨unknown, hunknown, rfl⟩⟩

theorem exists_resolve (hvalid : ValidItem content) (hitem : c.item = itemOf content)
    (h : Behind c.setting.text c.key.stop start (itemText indent content ++ rest))
    (type : ItemType) : ∃ resolved, c.resolve type = .ok resolved := by
  have hkey : ∀ {key entry}, c.item.entry? key = some entry → ∃ span, c.body.key key = .ok span := by
    intro key entry hentry
    rw [hitem] at hentry
    obtain ⟨span, hspan, -⟩ := h.itemKey hvalid.lines (mem_keys_of_entry hentry)
    exact ⟨span, hspan⟩
  have hthemes : ∀ themes, ∃ resolved, c.resolveThemes type themes = .ok resolved := by
    intro themes
    induction themes with
    | nil => exact ⟨_, rfl⟩
    | cons theme themes ih =>
        obtain ⟨⟨values, problems⟩, hrest⟩ := ih
        rw [ItemContext.resolveThemes]
        cases hraw : c.rawEntry? theme with
        | none => exact ⟨_, hrest⟩
        | some raw =>
            obtain ⟨entry, under⟩ := raw
            obtain ⟨name, -, hname⟩ := List.exists_of_findSome?_eq_some hraw
            obtain ⟨found, hfound, heq⟩ := Option.map_eq_some_iff.mp hname
            cases heq
            obtain ⟨span, hspan⟩ := hkey hfound
            exact ⟨_, bind_eq_ok.mpr ⟨span, hspan, bind_eq_ok.mpr ⟨(values, problems), hrest, rfl⟩⟩⟩
  rw [ItemContext.resolve]
  split
  · rw [ItemContext.resolveShared]
    cases hentry : c.item.entry? Keyword.value with
    | none => exact ⟨_, rfl⟩
    | some entry =>
        obtain ⟨span, hspan⟩ := hkey hentry
        exact ⟨_, bind_eq_ok.mpr ⟨span, hspan, rfl⟩⟩
  · obtain ⟨resolved, hresolved⟩ := hthemes c.setting.themes.names
    exact ⟨_, bind_eq_ok.mpr ⟨resolved, hresolved, rfl⟩⟩

theorem exists_itemSwatches (hvalid : ValidItem content) (hitem : c.item = itemOf content)
    (h : Behind c.setting.text c.key.stop start (itemText indent content ++ rest)) :
    ∃ swatches, c.swatches c.body c.swatchKeys = .ok swatches := by
  rw [ItemContext.swatchKeys]
  split
  · rw [ItemContext.swatches]
    cases hentry : c.item.entry? Keyword.value with
    | none => exact ⟨_, rfl⟩
    | some entry =>
        rw [hitem] at hentry
        obtain ⟨span, hspan, -⟩ := h.itemKey hvalid.lines (mem_keys_of_entry hentry)
        have hspan : c.body.key Keyword.value = .ok span := hspan
        exact ⟨_, bind_eq_ok.mpr ⟨span, hspan, bind_eq_ok.mpr ⟨[], rfl, rfl⟩⟩⟩
  · rw [hitem, Item.themeKeys, keys_itemOf]
    exact exists_swatches hvalid.lines h

theorem exists_ending (hvalid : ValidItem content) (hitem : c.item = itemOf content)
    (h : Behind c.setting.text c.key.stop start (itemText indent content ++ rest)) :
    ∃ next, c.ending = .ok next ∧
      Behind c.setting.text next (behind start (content.map (ItemLine.line indent))) rest := by
  rw [ItemContext.ending]
  cases hlast : c.item.lastKey? with
  | none => exact ⟨_, rfl, h.forward⟩
  | some key =>
      have hmem : key ∈ content.map ItemLine.key := by
        rw [hitem, Item.lastKey?, keys_itemOf] at hlast
        exact List.mem_of_mem_getLast? hlast
      obtain ⟨span, hspan, hle, hbehind⟩ := h.itemKey hvalid.lines hmem
      have hspan : c.body.key key = .ok span := hspan
      have hadvance : c.body.advanceTo span.stop = ⟨c.setting.text, span.stop⟩ :=
        Cursor.advanceTo_of_le hle
      refine ⟨_, bind_eq_ok.mpr ⟨span, hspan, rfl⟩, ?_⟩
      rw [hadvance]
      exact hbehind

/-- However early the search begins, an item is reported on, and the search goes on before the lines
behind it. -/
theorem Behind.report (hvalid : ValidItem content) (hitem : c.item = itemOf content)
    (h : Behind c.setting.text c.key.stop start (itemText indent content ++ rest))
    (inherited : List String) : ∃ r, c.report inherited = .ok r ∧
      Behind c.setting.text r.next (behind start (content.map (ItemLine.line indent))) rest := by
  obtain ⟨word, hword⟩ := hvalid.typed
  obtain ⟨next, hnext, hbehind⟩ := exists_ending hvalid hitem h
  have htype : ∀ marker, ∃ problem, c.badType marker = .ok problem := by
    intro marker
    obtain ⟨span, hspan, -⟩ := h.itemKey hvalid.lines (List.mem_map_of_mem hword)
    have hspan : c.body.key Keyword.type = .ok span := hspan
    exact ⟨_, bind_eq_ok.mpr ⟨span, hspan, rfl⟩⟩
  obtain ⟨r, hr⟩ := ItemContext.exists_report (exists_check hvalid hitem h inherited)
    (exists_themeProblems hvalid hitem h) htype (exists_resolve hvalid hitem h)
    (exists_itemSwatches hvalid hitem h) ⟨next, hnext⟩
  have hreported := (ItemContext.report_cases hr).1
  rw [hnext] at hreported
  cases hreported
  exact ⟨r, hr, hbehind⟩

end

end Block
end DesignTokens
