import DesignTokens.Proofs.Block.Lists
import DesignTokens.Proofs.OrderedMap

/-!
The list of themes of a block document.

Every name is found where it is written.  A name that comes again is reported there, with the place
where it came first.
-/

namespace DesignTokens
namespace Block

open Text Locate Themes

/-- The names declared so far, each a theme of its own. -/
structure Plain (d : Declared) (seen : List (String × Span)) : Prop where
  places : ∀ name, seen.lookup name = d.places.get? name
  targets : ∀ {name place}, seen.lookup name = some place → d.themes.targets.get? name = some none

/-- The declaration of a name that is found at `span`. -/
theorem Plain.declare {d : Declared} {seen : List (String × Span)} (h : Plain d seen)
    (anchor : Span) {name : String} {span : Span} (hspan : d.cursor.literal? name = some span) :
    d.declare anchor (.string name) =
      match seen.lookup name with
      | some first => ⟨d.themes, d.places, d.cursor.advanceTo span.stop,
          d.diagnostics ++ [(Problem.duplicateTheme name first).placedAt span]⟩
      | none => ⟨⟨d.themes.targets.insert name none⟩, d.places.insert name span,
          d.cursor.advanceTo span.stop, d.diagnostics⟩ := by
  have hplace := (h.places name).symm
  have hfind : d.find name anchor =
      (span, ⟨d.themes, d.places, d.cursor.advanceTo span.stop, d.diagnostics⟩) := by
    rw [Declared.find, hspan]
    rfl
  cases hseen : seen.lookup name with
  | some first =>
      rw [hseen] at hplace
      simp only [Declared.declare, Declaration.ofValue?, Declaration.name, hfind, hplace]
      rfl
  | none =>
      rw [hseen] at hplace
      simp only [Declared.declare, Declaration.ofValue?, Declaration.name, Declaration.target?,
        Option.filter_none, hfind, hplace]

theorem Plain.keep {d : Declared} {seen : List (String × Span)} (h : Plain d seen) (cursor : Cursor)
    (diagnostics : List Diagnostic) : Plain ⟨d.themes, d.places, cursor, diagnostics⟩ seen :=
  ⟨h.places, h.targets⟩

theorem Plain.insert {d : Declared} {seen : List (String × Span)} (h : Plain d seen) (name : String)
    (span : Span) (cursor : Cursor) (diagnostics : List Diagnostic) :
    Plain ⟨⟨d.themes.targets.insert name none⟩, d.places.insert name span, cursor, diagnostics⟩
      ((name, span) :: seen) := by
  constructor
  · intro other
    rw [List.lookup_cons, OrderedMap.get?_insert, h.places other]
    by_cases heq : other = name
    · simp [heq]
    · rw [beq_eq_false_iff_ne.mpr heq, if_neg heq]
  · intro other place hother
    rw [List.lookup_cons] at hother
    rw [OrderedMap.get?_insert]
    by_cases heq : other = name
    · rw [if_pos heq]
    · rw [beq_eq_false_iff_ne.mpr heq] at hother
      rw [if_neg heq]
      exact h.targets hother

/-- The declaration of names that stand in a list behind the cursor. -/
theorem Plain.declareAll {d : Declared} {seen : List (String × Span)} (h : Plain d seen)
    (anchor : Span) {names : List String} (hnames : names.all isName = true) {gap rest : List Char}
    (hgap : ∀ name ∈ names.head?, Misses name.toList gap)
    (hreads : Reads d.cursor.text d.cursor.offset (gap ++ (elements names ++ rest))) :
    let d' := (names.map Yaml.Value.string).foldl (Declared.declare anchor) d
    d'.themes.targets = names.foldl (fun m name => m.insert name none) d.themes.targets ∧
      d'.diagnostics = d.diagnostics ++
        Shape.duplicateThemes seen (elementPlaces (d.cursor.offset + bytes gap) names) := by
  induction names generalizing d seen gap with
  | nil => exact ⟨rfl, (List.append_nil _).symm⟩
  | cons name names ih =>
      rw [List.all_cons, Bool.and_eq_true] at hnames
      obtain ⟨hfound, hskip⟩ := literal?_elements hnames.1 (hgap name rfl) hreads
      have hle : d.cursor.offset ≤ d.cursor.offset + bytes gap + bytes name.toList := by omega
      rw [List.map_cons, List.foldl_cons, h.declare anchor hfound, Cursor.advanceTo_of_le hle,
        elementPlaces, Shape.duplicateThemes, List.foldl_cons]
      have hmisses := misses_separator hnames.2 names
      have hplaces : elementPlaces
          (d.cursor.offset + bytes gap + bytes name.toList + bytes (separator names)) names =
          elementPlaces (d.cursor.offset + bytes gap + bytes name.toList + 2) names := by
        cases names <;> rfl
      cases hseen : seen.lookup name with
      | some first =>
          have hagain := ih (h.keep ⟨d.cursor.text, _⟩ (d.diagnostics ++
            [(Problem.duplicateTheme name first).placedAt
              ⟨d.cursor.offset + bytes gap, d.cursor.offset + bytes gap + bytes name.toList⟩]))
            hnames.2 hmisses hskip
          rw [hplaces, List.append_assoc] at hagain
          -- The name is a theme already, so declaring it again would change nothing.
          rw [OrderedMap.insert_of_get? (h.targets hseen)]
          exact hagain
      | none =>
          have hagain := ih (h.insert name
            ⟨d.cursor.offset + bytes gap, d.cursor.offset + bytes gap + bytes name.toList⟩
            ⟨d.cursor.text, _⟩ d.diagnostics) hnames.2 hmisses hskip
          rw [hplaces] at hagain
          exact hagain

end Block
end DesignTokens
