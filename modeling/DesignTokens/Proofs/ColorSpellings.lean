import DesignTokens.Proofs.ColorDigits

/-!
Which texts are read as colors.

The first two of eight characters are moved behind the others, and what then stands at the end may be
white space: the reader of style sheet colors passes over it, and takes three, four or six digits as
well as eight.  So besides eight digits a short form is read, if white space fills it up on both sides
(`IsPadded`).  It stands for the eight digits of `inFull`.  No other text is a color, and of the texts
that are none every one is reported as it is written.
-/

namespace DesignTokens
namespace Color

open Decimal Text

/-- Eight characters of ASCII that are a short form of a color between white space, of which two
characters stand in front. -/
structure IsPadded (s : String) (digits : List Char) : Prop where
  length_eq : s.toList.length = 8
  ascii : ∀ c ∈ s.toList, c.toNat < 128
  short : digits.length = 3 ∨ digits.length = 4 ∨ digits.length = 6
  isDigit : ∀ d ∈ digits, IsDigit 16 d
  between : ∃ lead trail, s.toList = lead ++ (digits ++ trail) ∧ lead.length = 2 ∧
    (∀ c ∈ lead, isBlank c = true) ∧ ∀ c ∈ trail, isBlank c = true

/-- The eight digits that a short form stands for: alpha comes first and is full if it is left out, and
a single digit is doubled. -/
def inFull : List Char → List Char
  | [r, g, b] => ['f', 'f', r, r, g, g, b, b]
  | [r, g, b, a] => [a, a, r, r, g, g, b, b]
  | digits => 'f' :: 'f' :: digits

/-! ## Style sheet colors -/

theorem ofCss?_padded {digits gap : List Char} (hdigits : ∀ d ∈ digits, IsDigit 16 d)
    (hgap : ∀ c ∈ gap, isBlank c = true) :
    ofCss? (digits ++ gap) = ofCssDigits (digits.map place) := by
  rw [← ofCss?_digits hdigits, ofCss?, trimEnd_append hgap, ofCss?]

theorem length_of_ofCssDigits {ds : List Nat} {c : Color} (h : ofCssDigits ds = some c) :
    ds.length = 3 ∨ ds.length = 4 ∨ ds.length = 6 ∨ ds.length = 8 := by
  unfold ofCssDigits at h
  split at h
  case h_5 => cases h
  all_goals simp

theorem exists_of_ofCss? {cs : List Char} {c : Color} (h : ofCss? cs = some c) :
    ∃ digits gap, cs = digits ++ gap ∧ (∀ d ∈ digits, IsDigit 16 d) ∧
      (∀ b ∈ gap, isBlank b = true) ∧
      (digits.length = 3 ∨ digits.length = 4 ∨ digits.length = 6 ∨ digits.length = 8) := by
  obtain ⟨ds, hds, hcolor⟩ := Option.bind_eq_some_iff.mp h
  obtain ⟨hdigits, hplaces⟩ := mapM_digitValue?_eq_some_iff.mp hds
  obtain ⟨gap, hgap, hblank⟩ := exists_trimEnd_append cs
  refine ⟨trimEnd cs, gap, hgap, hdigits, hblank, ?_⟩
  have hlength := length_of_ofCssDigits hcolor
  rwa [← hplaces, List.length_map] at hlength

/-! ## Colors of documents -/

/-- A text that is read as a color has eight digits or is a padded short form. -/
theorem isEightDigits_or_isPadded {s : String} {c : Color} (h : ofText? s = some c) :
    IsEightDigits s ∨ ∃ digits, IsPadded s digits := by
  simp only [ofText?, Option.ite_none_right_eq_some] at h
  obtain ⟨⟨hlength, hascii⟩, hcss⟩ := h
  have hascii' : ∀ c ∈ s.toList, c.toNat < 128 := by
    intro c hc
    exact of_decide_eq_true (List.all_eq_true.mp hascii c hc)
  obtain ⟨digits, gap, hsplit, hdigits, hgap, hsize⟩ := exists_of_ofCss? hcss
  have htotal : digits.length + gap.length = 8 := by
    rw [← List.length_append, ← hsplit, List.length_append, List.length_drop, List.length_take]
    omega
  by_cases height : digits.length = 8
  · have hnil : gap = [] := List.eq_nil_of_length_eq_zero (by omega)
    rw [hnil, List.append_nil] at hsplit
    refine .inl ⟨hlength, fun c hc => hdigits c ?_⟩
    rw [← hsplit, List.mem_append, or_comm, ← List.mem_append, List.take_append_drop]
    exact hc
  · -- The digits end before the two characters that were moved, which are white space then.
    have hdrop : (s.toList.drop 2).length = 6 := by rw [List.length_drop, hlength]
    obtain ⟨trail, htrail⟩ : digits <+: s.toList.drop 2 :=
      List.prefix_of_prefix_length_le ⟨gap, hsplit.symm⟩ (List.prefix_append _ _) (by omega)
    have hlead : gap = trail ++ s.toList.take 2 := by
      rw [← htrail, List.append_assoc] at hsplit
      exact (List.append_cancel_left hsplit).symm
    refine .inr ⟨digits, hlength, hascii', by omega, hdigits, s.toList.take 2, trail, ?_, ?_, ?_, ?_⟩
    · rw [htrail, List.take_append_drop]
    · rw [List.length_take, hlength]
      rfl
    · exact fun c hc => hgap c (hlead ▸ List.mem_append_right _ hc)
    · exact fun c hc => hgap c (hlead ▸ List.mem_append_left _ hc)

theorem isDigit_inFull {digits : List Char} (h : ∀ d ∈ digits, IsDigit 16 d) :
    ∀ d ∈ inFull digits, IsDigit 16 d := by
  have hf : IsDigit 16 'f' := by decide
  unfold inFull
  split
  all_goals simp_all

theorem pair_self (x : Char) : pair x x = .ofNat (17 * place x) := by
  rw [pair]
  congr 1
  omega

/-- A short form is read as the eight digits it stands for. -/
theorem ofCssDigits_short {digits : List Char}
    (hshort : digits.length = 3 ∨ digits.length = 4 ∨ digits.length = 6)
    (hdigits : ∀ d ∈ digits, IsDigit 16 d) :
    IsEightDigits (String.ofList (inFull digits)) ∧
      ofCssDigits (digits.map place) = ofText? (String.ofList (inFull digits)) := by
  have hfull := isDigit_inFull hdigits
  have hsolid : pair 'f' 'f' = 255 := by decide
  rw [IsEightDigits, String.toList_ofList]
  match digits, hshort with
  | [r, g, b], _ =>
      refine ⟨⟨rfl, hfull⟩, ?_⟩
      rw [inFull, ofText?_digits hfull, hsolid, pair_self, pair_self, pair_self]
      rfl
  | [r, g, b, a], _ =>
      refine ⟨⟨rfl, hfull⟩, ?_⟩
      rw [inFull, ofText?_digits hfull, pair_self, pair_self, pair_self, pair_self]
      rfl
  | [r, r', g, g', b, b'], _ =>
      refine ⟨⟨rfl, hfull⟩, ?_⟩
      have hread : ofText? (String.ofList (inFull [r, r', g, g', b, b'])) = _ := ofText?_digits hfull
      rw [hread, hsolid]
      rfl

theorem IsPadded.ofText?_eq {s : String} {digits : List Char} (h : IsPadded s digits) :
    ofText? s = ofCssDigits (digits.map place) := by
  obtain ⟨lead, trail, hsplit, hlead, hblankLead, hblankTrail⟩ := h.between
  have hascii : s.toList.all (·.toNat < 128) = true := by
    rw [List.all_eq_true]
    intro c hc
    exact decide_eq_true (h.ascii c hc)
  have hmoved : s.toList.drop 2 ++ s.toList.take 2 = digits ++ (trail ++ lead) := by
    rw [hsplit, ← hlead, List.drop_left, List.take_left, List.append_assoc]
  rw [ofText?, if_pos ⟨h.length_eq, hascii⟩, hmoved]
  apply ofCss?_padded h.isDigit
  intro c hc
  rcases List.mem_append.mp hc with hc | hc
  · exact hblankTrail c hc
  · exact hblankLead c hc

theorem IsPadded.not_isEightDigits {s : String} {digits : List Char} (h : IsPadded s digits) :
    ¬IsEightDigits s := by
  intro height
  obtain ⟨lead, trail, hsplit, hlead, hblank, -⟩ := h.between
  obtain ⟨c, hc⟩ := List.exists_mem_of_length_pos (show 0 < lead.length by omega)
  have hdigit : IsDigit 16 c := height.2 c (by rw [hsplit]; exact List.mem_append_left _ hc)
  have hnot := not_blank_of_isDigit hdigit
  rw [hblank c hc] at hnot
  cases hnot

theorem ofText_eq_ok_iff {s : String} {c : Color} : ofText s = .ok c ↔ ofText? s = some c := by
  rw [ofText]
  cases ofText? s <;> simp

theorem ofText_eq_error {s : String} (h : ¬∃ c, ofText s = .ok c) :
    ofText s = .error (.invalidFormat s) := by
  cases hs : ofText? s with
  | none => rw [ofText, hs]
  | some c => exact absurd ⟨c, ofText_eq_ok_iff.mpr hs⟩ h

/-- A padded short form is read, and so are the eight digits it stands for. -/
theorem IsPadded.exists_ofText {s : String} {digits : List Char} (h : IsPadded s digits) :
    IsEightDigits (String.ofList (inFull digits)) ∧
      ∃ c, ofText s = .ok c ∧ ofText (String.ofList (inFull digits)) = .ok c := by
  obtain ⟨hfull, hread⟩ := ofCssDigits_short h.short h.isDigit
  obtain ⟨c, hc, -⟩ := exists_ofText?_of_isEightDigits hfull
  refine ⟨hfull, c, ?_, ofText_eq_ok_iff.mpr hc⟩
  rw [ofText_eq_ok_iff, h.ofText?_eq, hread, hc]

theorem exists_ofText_iff {s : String} :
    (∃ c, ofText s = .ok c) ↔ IsEightDigits s ∨ ∃ digits, IsPadded s digits := by
  constructor
  · intro h
    obtain ⟨c, hc⟩ := h
    exact isEightDigits_or_isPadded (ofText_eq_ok_iff.mp hc)
  · rintro (h | ⟨digits, h⟩)
    · obtain ⟨c, hc, -⟩ := exists_ofText?_of_isEightDigits h
      exact ⟨c, ofText_eq_ok_iff.mpr hc⟩
    · obtain ⟨-, c, hc, -⟩ := h.exists_ofText
      exact ⟨c, hc⟩

/-- A text is read as a color exactly if it has eight hexadecimal digits or is a short form that white
space fills up to eight characters, which is then read as the eight digits it stands for; every other
text is reported.  So that only eight digits are a color is right of exactly the texts that are no
padded short form. -/
theorem only_digits_read_iff_not_padded (s : String) :
    ((∃ c, ofText s = .ok c) ↔ IsEightDigits s ∨ ∃ digits, IsPadded s digits) ∧
    ((¬∃ c, ofText s = .ok c) → ofText s = .error (.invalidFormat s)) ∧
    (∀ digits, IsPadded s digits → IsEightDigits (String.ofList (inFull digits)) ∧
      ∃ c, ofText s = .ok c ∧ ofText (String.ofList (inFull digits)) = .ok c) ∧
    (((∃ c, ofText s = .ok c) ↔ IsEightDigits s) ↔ ¬∃ digits, IsPadded s digits) := by
  refine ⟨exists_ofText_iff, ofText_eq_error, fun digits h => h.exists_ofText, ?_⟩
  rw [exists_ofText_iff]
  constructor
  · intro h hsome
    obtain ⟨digits, hdigits⟩ := hsome
    exact hdigits.not_isEightDigits (h.mp (.inr ⟨digits, hdigits⟩))
  · intro hnot
    exact or_iff_left hnot

/-- Six digits behind two spaces are read, as a color with full alpha. -/
theorem padded_aabbcc_read : ¬IsEightDigits "  aabbcc" ∧ ∃ c, ofText "  aabbcc" = .ok c ∧
    ofText "ffaabbcc" = .ok c := by
  have hpadded : IsPadded "  aabbcc" "aabbcc".toList :=
    ⟨by decide, List.forall_iff_forall_mem.mp (by decide), by decide,
      List.forall_iff_forall_mem.mp (by decide), [' ', ' '], [], by decide, rfl,
      List.forall_iff_forall_mem.mp (by decide), List.forall_mem_nil _⟩
  obtain ⟨-, -, hread, -⟩ := only_digits_read_iff_not_padded "  aabbcc"
  exact ⟨hpadded.not_isEightDigits, (hread _ hpadded).2⟩

end Color
end DesignTokens
