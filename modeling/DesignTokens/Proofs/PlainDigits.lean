import DesignTokens.Proofs.ColorText
import DesignTokens.Proofs.Equality
import DesignTokens.Proofs.Search
import DesignTokens.Proofs.ThemeEntries

/-!
Colors that are written as numbers.

A number is read again from the text, because its value does not say how it is written.  The place is
searched behind the key of the item: the first line that declares the key of the entry, and for an
entry that is a mapping the next occurrence of `value`.  What stands there (`shownNumber?`) is taken
for the color if it reads as one, and else the digits of the number are.
-/

namespace DesignTokens
namespace Text

/-- What stands behind the first occurrence of a word. -/
def behindWord? (word : List Char) : List Char → Option (List Char)
  | [] => none
  | c :: cs =>
      if word.isPrefixOf (c :: cs) then some ((c :: cs).drop word.length) else behindWord? word cs

theorem find_eq_behindWord? {word : List Char} (hword : word ≠ []) (cs : List Char) :
    (find word cs = none ∧ behindWord? word cs = none) ∨
      ∃ before after, cs = before ++ (word ++ after) ∧ find word cs = some (bytes before) ∧
        behindWord? word cs = some after := by
  induction cs with
  | nil => exact .inl ⟨by simp [find, hword], rfl⟩
  | cons c cs ih =>
      by_cases hprefix : word <+: c :: cs
      · obtain ⟨after, hafter⟩ := hprefix
        refine .inr ⟨[], after, hafter.symm, find_of_prefix hword ⟨after, hafter⟩, ?_⟩
        rw [behindWord?, if_pos (List.isPrefixOf_iff_prefix.mpr ⟨after, hafter⟩), ← hafter,
          List.drop_left]
      · have hbehind : behindWord? word (c :: cs) = behindWord? word cs := by
          rw [behindWord?, if_neg]
          rwa [List.isPrefixOf_iff_prefix]
        rw [hbehind, find_skip hprefix]
        rcases ih with ⟨hfind, hnone⟩ | ⟨before, after, rfl, hfind, hsome⟩
        · exact .inl ⟨by rw [hfind, Option.map_none], hnone⟩
        · refine .inr ⟨c :: before, after, rfl, ?_, hsome⟩
          rw [hfind, Option.map_some, bytes, Nat.add_comm]

end Text

namespace Locate

open Text

/-! ## What stands behind a key -/

/-- What stands behind the key in the first line that declares it, and below that line. -/
def behindKey? (key : List Char) : List (List Char) → Option (List Char)
  | [] => none
  | line :: lines =>
      match keyInLine? key line with
      | some n => (dropBytes (n + bytes key) line).map (· ++ lines.flatten)
      | none => behindKey? key lines

theorem keyInLines?_behindKey? {key before : List Char} {lines : List (List Char)} {span : Span}
    (h : keyInLines? key (bytes before) lines = some span) :
    ∃ rest, behindKey? key lines = some rest ∧ Reads (before ++ lines.flatten) span.stop rest := by
  induction lines generalizing before with
  | nil => cases h
  | cons line lines ih =>
      rw [keyInLines?] at h
      cases hline : keyInLine? key line with
      | some n =>
          simp only [hline, Option.some.injEq] at h
          subst h
          obtain ⟨lead, after, rfl, rfl⟩ := exists_of_keyInLine? hline
          have hdrop : dropBytes (bytes lead + bytes key) (lead ++ (key ++ after)) = some after :=
            dropBytes_eq_some_iff.mpr ⟨lead ++ key, by simp, bytes_append lead key⟩
          refine ⟨after ++ lines.flatten, by simp only [behindKey?, hline, hdrop, Option.map_some],
            reads_iff.mpr ⟨before ++ (lead ++ key), by simp, ?_⟩⟩
          simp only [bytes_append, Nat.add_assoc]
      | none =>
          simp only [hline, ← bytes_append] at h
          obtain ⟨rest, hrest, hreads⟩ := ih h
          refine ⟨rest, by simp only [behindKey?, hline, hrest], ?_⟩
          rwa [List.flatten_cons, ← List.append_assoc]

/-- A key that is found is one that a line behind the offset declares, and no line before that one
does. -/
theorem key_behindKey? {text : List Char} {offset : Nat} {key : String} {span : Span}
    (h : Locate.key text offset key = .ok span) : ∃ body rest, Reads text offset body ∧
      behindKey? key.toList (lines body) = some rest ∧ Reads text span.stop rest := by
  rw [Locate.key] at h
  cases hbody : dropBytes offset text with
  | none => simp [hbody] at h
  | some body =>
      cases hfound : keyInLines? key.toList offset (lines body) with
      | none => simp [hbody, hfound] at h
      | some found =>
          simp only [hbody, hfound, Except.ok.injEq] at h
          subst h
          obtain ⟨before, rfl, rfl⟩ := dropBytes_eq_some_iff.mp hbody
          obtain ⟨rest, hrest, hreads⟩ := keyInLines?_behindKey? hfound
          rw [flatten_lines] at hreads
          exact ⟨body, rest, hbody, hrest, hreads⟩

theorem literal?_behindWord? {text : List Char} {offset : Nat} {rest : List Char}
    (h : Reads text offset rest) {word : String} (hword : word.toList ≠ []) :
    (literal? text offset word = none ∧ behindWord? word.toList rest = none) ∨
      ∃ span after, literal? text offset word = some span ∧
        behindWord? word.toList rest = some after ∧ Reads text span.stop after := by
  rcases find_eq_behindWord? hword rest with ⟨hfind, hnone⟩ | ⟨before, after, rfl, hfind, hsome⟩
  · have hdrop : dropBytes offset text = some rest := h
    exact .inl ⟨by simp [literal?, hdrop, hfind], hnone⟩
  · refine .inr ⟨_, after, literal?_eq h hword hfind, hsome, ?_⟩
    exact h.skip.skip

/-! ## The scalar behind a key -/

def scalarBehind? (rest : List Char) : Option (List Char) :=
  match (splitQuote rest).2 with
  | ':' :: rest =>
      let scalar := trimEnd ((rest.dropWhile isIndent).takeWhile (!endsScalar ·))
      if scalar.isEmpty then none else some scalar
  | _ => none

theorem scalar?_behind {text : List Char} {key : Span} {rest : List Char}
    (h : Reads text key.stop rest) :
    (scalar? text key).bind (fun span => slice span.start span.stop text) =
      scalarBehind? rest := by
  have hdrop : dropBytes key.stop text = some rest := h
  rw [← splitQuote_append rest] at h
  rw [scalar?, hdrop]
  simp only [bind, Option.bind_some]
  rw [scalarBehind?]
  cases hrest : (splitQuote rest).2 with
  | nil => rfl
  | cons c more =>
      by_cases hc : c = ':'
      · subst hc
        rw [hrest] at h
        by_cases hempty : (trimEnd ((more.dropWhile isIndent).takeWhile (!endsScalar ·))).isEmpty
        · simp [hempty]
        · simp only [hempty, Bool.false_eq_true, if_false, Option.bind_some]
          -- Behind the colon stand the indentation, the scalar, the white space cut off its end,
          -- and what ends it.
          obtain ⟨gap, hgap⟩ :=
            trimEnd_prefix ((more.dropWhile isIndent).takeWhile (!endsScalar ·))
          have hmore : more = more.takeWhile isIndent ++
              (trimEnd ((more.dropWhile isIndent).takeWhile (!endsScalar ·)) ++
                (gap ++ (more.dropWhile isIndent).dropWhile (!endsScalar ·))) := by
            rw [← List.append_assoc (trimEnd _), hgap, List.takeWhile_append_dropWhile,
              List.takeWhile_append_dropWhile]
          have hcolon : Reads text (key.stop + bytes (splitQuote rest).1 + 1) more := by
            have hone : bytes [':'] = 1 := rfl
            rw [← hone]
            exact h.skip.skip
          rw [hmore] at hcolon
          exact hcolon.skip.slice
      · simp [hc]

end Locate

namespace Analysis

open Text Locate

theorem literalText_behind {text : List Char} {site : Span} {rest : List Char}
    (h : Reads text site.stop rest) (n : Yaml.Number) :
    literalText text (.number n) (some site) =
      ((scalarBehind? rest).map String.ofList).getD n.text := by
  have hnumber : (Yaml.Value.number n).number?.isSome = true := rfl
  have hscalar := scalar?_behind h
  simp only [literalText, Option.filter_some, hnumber, if_true, bind, Option.bind_some, hscalar]
  rfl

/-! ## The color that a number names -/

def colorOf? (scalar : List Char) : Option Color :=
  Color.ofText? (String.ofList scalar)

/-- Read as a color, the digits of a number name the color of the number or none at all. -/
theorem text_of_colorOf?_digits {n : Nat} {color : Color}
    (h : colorOf? (Nat.toDigits 10 n) = some color) : color.text = padEight n := by
  have hlength : (Nat.toDigits 10 n).length = 8 := by
    simp only [colorOf?, Color.ofText?, Option.ite_none_right_eq_some, String.toList_ofList] at h
    exact h.1.1
  have hpad : String.ofList (Nat.toDigits 10 n) = padEight n := digitText_eq_padEight hlength
  have hbound : n < 10 ^ 8 :=
    (Nat.length_toDigits_le_iff (by decide) (by decide)).mp hlength.le
  obtain ⟨color', hcolor'⟩ := exists_text_eq_padEight hbound
  rw [colorOf?, hpad, ← hcolor', Color.ofText?_text, Option.some.injEq] at h
  rw [← h, hcolor']

theorem castColor_number {n : Nat} (hn : n < 10 ^ 8) (shown : Option (List Char)) :
    ∃ color, castColor (.number (.int n)) ((shown.map String.ofList).getD (Yaml.Number.int n).text) =
        some color ∧
      (∀ found ∈ shown.bind colorOf?, color = found) ∧
      (shown.bind colorOf? = none → color.text = padEight n) := by
  obtain ⟨digits, hdigits⟩ := exists_text_eq_padEight hn
  have hpad : Color.ofText? (padEight n) = some digits := hdigits ▸ Color.ofText?_text digits
  have hcast (written : String) : castColor (.number (.int n)) written =
      (Color.ofText? written).orElse fun _ => some digits := by
    simp [castColor, Yaml.Number.nat?, hpad]
  rw [hcast]
  cases shown with
  | none =>
      -- Nothing is found in the text, and the number is written out: again its plain digits.
      have htext : (Yaml.Number.int n).text = String.ofList (Nat.toDigits 10 n) := rfl
      simp only [Option.map_none, Option.getD_none, htext]
      cases hwritten : Color.ofText? (String.ofList (Nat.toDigits 10 n)) with
      | none => exact ⟨digits, rfl, by simp, fun _ => hdigits⟩
      | some color => exact ⟨color, rfl, by simp, fun _ => text_of_colorOf?_digits hwritten⟩
  | some scalar =>
      simp only [Option.map_some, Option.getD_some, Option.bind_some, colorOf?]
      cases hscalar : Color.ofText? (String.ofList scalar) with
      | none => exact ⟨digits, rfl, by simp, fun _ => hdigits⟩
      | some color => exact ⟨color, rfl, by simp, by simp⟩

/-! ## Entries that are numbers -/

/-- The entry is the number, or a mapping that holds it and leaves the opacity alone. -/
inductive HoldsNumber (n : Nat) : Yaml.Value → Prop
  | number : HoldsNumber n (.number (.int n))
  | mapping {parts : List (Yaml.Value × Yaml.Value)} :
      Yaml.get? Keyword.importKey parts = none →
      EntryContext.written? parts Keyword.literal = some (.number (.int n)) →
      EntryContext.written? parts Keyword.opacity = none → HoldsNumber n (.mapping parts)

/-- The text behind which the number of an entry is read again, given the text behind the key of the
entry: in a mapping it begins behind the next `value`. -/
def behindNumber? (rest : List Char) : Yaml.Value → Option (List Char)
  | .mapping _ => behindWord? Keyword.literal.toList rest
  | _ => some rest

/-- An entry that holds a number below `10 ^ 8` is the color that is shown in its place, or else the
one that its digits name. -/
theorem resolve_number {c : EntryContext} (hcolor : c.type = .color) {n : Nat} (hn : n < 10 ^ 8)
    {entry : Yaml.Value} (hentry : HoldsNumber n entry) (key : String) {origin : Span}
    {rest : List Char} (hrest : Reads c.text origin.stop rest) :
    ∃ color, c.resolve entry key origin = .ok (.color color) ∧
      (∀ found ∈ ((behindNumber? rest entry).bind scalarBehind?).bind colorOf?, color = found) ∧
      (((behindNumber? rest entry).bind scalarBehind?).bind colorOf? = none →
        color.text = padEight n) := by
  have hcast {site : Option Span} {shown : Option (List Char)}
      (hwritten : literalText c.text (.number (.int n)) site =
        (shown.map String.ofList).getD (Yaml.Number.int n).text) :
      ∃ color, c.cast (.number (.int n)) site = .ok (.color color) ∧
        (∀ found ∈ shown.bind colorOf?, color = found) ∧
        (shown.bind colorOf? = none → color.text = padEight n) := by
    obtain ⟨color, hcolor', hkeeps⟩ := castColor_number hn shown
    refine ⟨color, ?_, hkeeps⟩
    simp only [EntryContext.cast, hwritten, hcolor, castLiteral, hcolor', Option.map_some]
  cases hentry with
  | number => exact hcast (literalText_behind hrest _)
  | @mapping parts himport hliteral hopacity =>
      have hshade (v : Value) : c.shade parts key v = .ok v := by
        simp [EntryContext.shade, hopacity]
      have hresolve : c.resolve (.mapping parts) key origin =
          c.cast (.number (.int n)) (literal? c.text origin.stop Keyword.literal) := by
        rw [EntryContext.resolve_mapping, EntryContext.base, himport, hliteral]
        cases hvalue : c.cast (.number (.int n)) (literal? c.text origin.stop Keyword.literal) with
        | error fault => simp only [hvalue]; rfl
        | ok v => simp only [hvalue]; exact hshade v
      have hword : Keyword.literal.toList ≠ [] := by decide
      rw [hresolve, behindNumber?]
      rcases literal?_behindWord? hrest hword with
        ⟨hnone, hbehind⟩ | ⟨site, after, hsite, hbehind, hreads⟩
      · rw [hnone, hbehind]
        exact hcast rfl
      · rw [hsite, hbehind]
        exact hcast (literalText_behind hreads _)

/-! ## Where the digits are written -/

/-- Behind a key, the digits of the number are written as a scalar of their own. -/
def WritesDigits (n : Nat) (rest : List Char) : Prop :=
  ∃ indent gap after, (splitQuote rest).2 = ':' :: (indent ++ (Nat.toDigits 10 n ++ (gap ++ after))) ∧
    (∀ c ∈ indent, isIndent c = true) ∧
    (∀ c ∈ gap, isBlank c = true ∧ endsScalar c = false) ∧
    ∀ c ∈ after.head?, endsScalar c = true

theorem digit_not_end {c : Char} (h : c.isDigit = true) :
    isIndent c = false ∧ endsScalar c = false := by
  have hall : ∀ d : Fin 16, isIndent (Nat.digitChar d) = false ∧
      endsScalar (Nat.digitChar d) = false := by decide
  obtain ⟨d, hd, rfl⟩ := Color.exists_digitChar h
  exact hall ⟨d, hd⟩

theorem scalarBehind?_of_writesDigits {n : Nat} {rest : List Char} (h : WritesDigits n rest) :
    scalarBehind? rest = some (Nat.toDigits 10 n) := by
  obtain ⟨indent, gap, after, hrest, hindent, hgap, hafter⟩ := h
  have hdigits : ∀ c ∈ Nat.toDigits 10 n, c.isDigit = true := fun c hc =>
    Nat.isDigit_of_mem_toDigits (by decide) (by decide) hc
  have hne : Nat.toDigits 10 n ≠ [] := List.ne_nil_of_length_pos Nat.length_toDigits_pos
  obtain ⟨first, more, hcons⟩ := List.exists_cons_of_ne_nil hne
  have hdrop : (indent ++ (Nat.toDigits 10 n ++ (gap ++ after))).dropWhile isIndent =
      Nat.toDigits 10 n ++ (gap ++ after) := by
    refine (takeWhile_append_stop hindent fun c hc => ?_).2
    rw [hcons, List.cons_append, List.head?_cons, Option.mem_some_iff] at hc
    subst hc
    exact (digit_not_end (hdigits _ (hcons ▸ List.mem_cons_self))).1
  have htake : (Nat.toDigits 10 n ++ (gap ++ after)).takeWhile (!endsScalar ·) =
      Nat.toDigits 10 n ++ gap := by
    rw [← List.append_assoc, List.takeWhile_append_of_pos]
    · cases after with
      | nil => simp
      | cons c cs =>
          have hc : endsScalar c = true := hafter c rfl
          simp [hc]
    · intro c hc
      rcases List.mem_append.mp hc with hc | hc
      · simp [(digit_not_end (hdigits c hc)).2]
      · simp [(hgap c hc).2]
  have htrim : trimEnd (Nat.toDigits 10 n ++ gap) = Nat.toDigits 10 n := by
    rw [trimEnd_append fun c hc => (hgap c hc).1]
    refine trimEnd_eq_self fun c hc => ?_
    obtain ⟨d, hd, rfl⟩ := Color.exists_digitChar (hdigits c (List.mem_of_mem_getLast? hc))
    exact (Color.digitChar_plain hd).2
  simp [scalarBehind?, hrest, hdrop, htake, htrim, hne]

/-! ## The theorem -/

/-- The text behind which the number of the entry under a key is read again, given the text behind
the key of the item. -/
def numberSite? (key : String) (entry : Yaml.Value) (body : List Char) : Option (List Char) :=
  (behindKey? key.toList (lines body)).bind (behindNumber? · entry)

def shownColor? (key : String) (entry : Yaml.Value) (body : List Char) : Option Color :=
  ((numberSite? key entry body).bind scalarBehind?).bind colorOf?

/-- The color of an entry that holds a number: the one shown where the number is read again, and the
one that its digits name if none is shown.  So the digits are kept exactly if no other color is
shown, and they are if the place is one where they are written. -/
structure NumberColor (key : String) (entry : Yaml.Value) (n : Nat) (body : List Char)
    (color : Color) : Prop where
  shown : ∀ found ∈ shownColor? key entry body, color = found
  kept_iff : color.text = padEight n ↔
    ∀ found ∈ shownColor? key entry body, found.text = padEight n
  kept : ∀ rest ∈ numberSite? key entry body, WritesDigits n rest → color.text = padEight n

theorem numberColor_of_resolve {key : String} {entry : Yaml.Value} {n : Nat}
    {body rest : List Char} {color : Color}
    (hrest : behindKey? key.toList (lines body) = some rest)
    (hshown : ∀ found ∈ ((behindNumber? rest entry).bind scalarBehind?).bind colorOf?,
      color = found)
    (hdigits : ((behindNumber? rest entry).bind scalarBehind?).bind colorOf? = none →
      color.text = padEight n) : NumberColor key entry n body color := by
  have hsite : numberSite? key entry body = behindNumber? rest entry := by
    rw [numberSite?, hrest, Option.bind_some]
  rw [← hsite] at hshown hdigits
  have hiff : color.text = padEight n ↔
      ∀ found ∈ shownColor? key entry body, found.text = padEight n := by
    refine ⟨fun htext found hfound => hshown found hfound ▸ htext, fun hall => ?_⟩
    cases hcolor : shownColor? key entry body with
    | none => exact hdigits hcolor
    | some found => exact hshown found hcolor ▸ hall found hcolor
  refine ⟨hshown, hiff, fun place hplace hwrites => hiff.mpr fun found hfound => ?_⟩
  rw [shownColor?, Option.mem_def.mp hplace, Option.bind_some,
    scalarBehind?_of_writesDigits hwrites] at hfound
  exact text_of_colorOf?_digits hfound

/-- Every entry of a color item that holds a number below `10 ^ 8` gives the item a color for its
key, and the digits of the number are those of the color unless another color is shown where the
number is read again. -/
theorem number_color_kept_iff {options : Options} {text : List Char} {document : Document}
    {a : Analysis} (hread : Document.ofText text = .ok document)
    (ha : ofText options text = .ok a) :
    ∃ log, documentLog (settingOf options text document a.themes) document = .ok log ∧
      log.visits.map ItemVisit.subject = walkOrder a.themes document ∧
      ∀ v ∈ log.visits, v.context.setting = settingOf options text document a.themes ∧
        (v.context.item.type = .ok .color → ∀ key ∈ v.context.ownKeys,
          ∀ entry ∈ v.context.item.entry? key, ∀ n < 10 ^ 8, HoldsNumber n entry →
          ∃ bundle color body, v.report.bundle = some bundle ∧
            bundle.valueFor key = some (.color color) ∧ Reads text v.context.key.stop body ∧
            NumberColor key entry n body color) := by
  obtain ⟨log, hlog⟩ := exists_isLog hread ha
  refine ⟨log, hlog.made, hlog.tells.subjects, fun v hv => ?_⟩
  have hsetting := hlog.tells.setting_eq v hv
  refine ⟨hsetting, fun htype key hkey entry hentry n hn hholds => ?_⟩
  have hordered : v.context.setting.themes.Ordered := hsetting ▸ hlog.ordered
  have htext : v.context.setting.text = text := congrArg Setting.text hsetting
  rcases (ItemContext.report_cases (hlog.tells.report_eq v hv)).2 with
    ⟨marker, hr⟩ | ⟨type, bundle, hr⟩
  · cases htype.symm.trans hr.type_eq
  · cases htype.symm.trans hr.type_eq
    obtain ⟨platforms, themes, values, -, hresolve, -⟩ := hr.diagnostics_eq
    obtain ⟨origin, horigin, hvalue⟩ := ItemContext.resolve_own hordered hresolve hkey hentry
    obtain ⟨body, rest, hbody, hrest, hreads⟩ := key_behindKey? horigin
    obtain ⟨color, hcolor, hshown, hdigits⟩ :=
      resolve_number (c := v.context.entryContext .color) rfl hn hholds key hreads
    refine ⟨bundle, color, body, hr.bundle_eq, (hvalue _).mpr hcolor, htext ▸ hbody, ?_⟩
    exact numberColor_of_resolve hrest hshown hdigits

/-- A color item with the number 1 for its theme, and with a note above that looks like an entry. -/
def noteText : List Char :=
  (".themes: [light]\n.themed:\n  a:\n    .type: color\n    .note: |\n      light: 12345678\n"
    ++ "    light: 1\n").toList

def showsAnother (text : List Char) (v : ItemVisit) : Bool :=
  decide (v.context.item.type = .ok .color) && decide ("light" ∈ v.context.ownKeys) &&
    decide (v.context.item.entry? "light" = some (.number (.int 1))) &&
    decide (((dropBytes v.context.key.stop text).bind
      (shownColor? "light" (.number (.int 1)))).map Color.text = some "12345678")

/-- The digits of the note are taken for the color, and nothing is reported. -/
theorem noteText_misread : ∃ document a log, ∃ v ∈ Log.visits log, ∃ bundle color,
    Document.ofText noteText = .ok document ∧ ofText .default noteText = .ok a ∧
    a.diagnostics = [] ∧
    documentLog (settingOf .default noteText document a.themes) document = .ok log ∧
    v.context.item.entry? "light" = some (.number (.int 1)) ∧
    v.report.bundle = some bundle ∧ bundle.valueFor "light" = some (.color color) ∧
    color.text = "12345678" ∧ color.text ≠ padEight 1 := by
  have hpasses : passes .default noteText (fun document a =>
      a.diagnostics.isEmpty &&
        match documentLog (settingOf .default noteText document a.themes) document with
        | .ok log => log.visits.any (showsAnother noteText)
        | .error _ => false) = true := by
    decide +kernel
  obtain ⟨document, a, hread, ha, htest⟩ := passes_iff.mp hpasses
  obtain ⟨log, hlog, -, hvisits⟩ := number_color_kept_iff hread ha
  simp only [hlog, Bool.and_eq_true, List.any_eq_true] at htest
  obtain ⟨hempty, v, hv, hshows⟩ := htest
  simp only [showsAnother, Bool.and_eq_true, decide_eq_true_eq] at hshows
  obtain ⟨⟨⟨htype, hkey⟩, hentry⟩, hshown⟩ := hshows
  obtain ⟨bundle, color, body, hbundle, hvalue, hbody, hcolor⟩ :=
    (hvisits v hv).2 htype "light" hkey _ hentry 1 (by decide) .number
  obtain ⟨found, hfound, htext⟩ := Option.map_eq_some_iff.mp hshown
  have hdrop : dropBytes v.context.key.stop noteText = some body := hbody
  rw [hdrop, Option.bind_some] at hfound
  have hcolorText : color.text = "12345678" := hcolor.shown found hfound ▸ htext
  refine ⟨document, a, log, v, hv, bundle, color, hread, ha, List.isEmpty_iff.mp hempty, hlog,
    hentry, hbundle, hvalue, hcolorText, ?_⟩
  rw [hcolorText]
  decide +kernel

end Analysis
end DesignTokens
