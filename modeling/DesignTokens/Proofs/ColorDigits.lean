import DesignTokens.Proofs.ColorText
import DesignTokens.Proofs.DigitTexts

/-!
The eight digits of a color.

Documents write a color as its number in eight hexadecimal digits, and style sheets write the same
digits with the first two at the end.  Eight digits in either case are read (`ofText?_digits`), two at
a time, so the color they name has them for its text, in lower case, and the number they denote for its
packed value.  That its text has one length and is in lower case makes the order of colors the order of
their texts (`argb_lt_iff_text_lt`).
-/

namespace DesignTokens
namespace Color

open Decimal

/-! ## Reading digits -/

/-- Eight hexadecimal digits, in either case. -/
def IsEightDigits (s : String) : Prop :=
  s.toList.length = 8 ∧ ∀ c ∈ s.toList, IsDigit 16 c

/-- The byte of two digits. -/
def pair (high low : Char) : UInt8 :=
  .ofNat (16 * place high + place low)

theorem mapM_digitValue?_eq_some_iff {cs : List Char} {ds : List Nat} :
    cs.mapM (digitValue? 16) = some ds ↔ (∀ c ∈ cs, IsDigit 16 c) ∧ cs.map place = ds := by
  induction cs generalizing ds with
  | nil => simp [eq_comm]
  | cons c cs ih =>
      rw [List.mapM_cons]
      constructor
      · intro h
        obtain ⟨d, hd, h⟩ := Option.bind_eq_some_iff.mp h
        obtain ⟨rest, hrest, h⟩ := Option.bind_eq_some_iff.mp h
        obtain ⟨hc, rfl⟩ := (digitValue?_eq_some_iff (Nat.le_refl 16)).mp hd
        obtain ⟨hcs, rfl⟩ := ih.mp hrest
        exact ⟨List.forall_mem_cons.mpr ⟨hc, hcs⟩, Option.some.inj h⟩
      · rintro ⟨h, rfl⟩
        rw [List.forall_mem_cons] at h
        rw [(digitValue?_eq_some_iff (Nat.le_refl 16)).mpr ⟨h.1, rfl⟩, ih.mpr ⟨h.2, rfl⟩]
        rfl

theorem trimEnd_digits {cs : List Char} (h : ∀ c ∈ cs, IsDigit 16 c) : Text.trimEnd cs = cs :=
  Text.trimEnd_eq_self fun c hc => not_blank_of_isDigit (h c (List.mem_of_mem_getLast? hc))

theorem ofCss?_digits {cs : List Char} (h : ∀ c ∈ cs, IsDigit 16 c) :
    ofCss? cs = ofCssDigits (cs.map place) := by
  rw [ofCss?, trimEnd_digits h, mapM_digitValue?_eq_some_iff.mpr ⟨h, rfl⟩, Option.bind_some]

/-- Eight digits name the color of their four bytes. -/
theorem ofText?_digits {a a' r r' g g' b b' : Char}
    (h : ∀ c ∈ [a, a', r, r', g, g', b, b'], IsDigit 16 c) :
    ofText? (String.ofList [a, a', r, r', g, g', b, b']) =
      some ⟨pair a a', pair r r', pair g g', pair b b'⟩ := by
  have hascii : [a, a', r, r', g, g', b, b'].all (·.toNat < 128) = true := by
    rw [List.all_eq_true]
    intro c hc
    exact decide_eq_true (h c hc).ascii
  have hcss : ∀ c ∈ [r, r', g, g', b, b', a, a'], IsDigit 16 c := by
    intro c hc
    apply h c
    simp only [List.mem_cons, List.not_mem_nil, or_false] at hc ⊢
    tauto
  rw [ofText?, String.toList_ofList, if_pos ⟨rfl, hascii⟩]
  exact ofCss?_digits hcss

/-! ## The text, the packed number and the style sheet form -/

theorem toNat_pair {x y : Char} (hx : IsDigit 16 x) (hy : IsDigit 16 y) :
    (pair x y).toNat = 16 * place x + place y := by
  rw [isDigit_iff_place_lt (Nat.le_refl 16)] at hx hy
  rw [pair, UInt8.toNat_ofNat']
  omega

theorem hexByte_pair {x y : Char} (hx : IsDigit 16 x) (hy : IsDigit 16 y) :
    hexByte (pair x y) = [x.toLower, y.toLower] := by
  have hhigh := (isDigit_iff_place_lt (Nat.le_refl 16)).mp hx
  have hlow := (isDigit_iff_place_lt (Nat.le_refl 16)).mp hy
  rw [pair, hexByte_ofNat hhigh hlow, digitChar_place hx, digitChar_place hy]

/-- Eight digits name a color, whose text is those digits in lower case. -/
theorem exists_ofText?_of_isEightDigits {s : String} (h : IsEightDigits s) :
    ∃ c, ofText? s = some c ∧ c.text = s.toLower ∧ c.argb = number 16 s.toList := by
  obtain ⟨cs, rfl⟩ : ∃ cs, s = String.ofList cs := ⟨s.toList, String.ofList_toList.symm⟩
  obtain ⟨hlength, hdigits⟩ := h
  rw [String.toList_ofList] at hlength hdigits
  match cs, hlength with
  | [a, a', r, r', g, g', b, b'], _ =>
      refine ⟨_, ofText?_digits hdigits, ?_, ?_⟩
      all_goals
        simp only [List.forall_mem_cons] at hdigits
        obtain ⟨ha, ha', hr, hr', hg, hg', hb, hb', -⟩ := hdigits
      · rw [text, hexByte_pair ha ha', hexByte_pair hr hr', hexByte_pair hg hg', hexByte_pair hb hb',
          ← String.toList_inj]
        show _ = (String.map Char.toLower _).toList
        rw [String.toList_map, String.toList_ofList, String.toList_ofList]
        rfl
      · simp only [argb, toNat_pair ha ha', toNat_pair hr hr', toNat_pair hg hg', toNat_pair hb hb',
          String.toList_ofList, number, List.length_cons, List.length_nil]
        ring

theorem css_eq_rotated (c : Color) :
    c.css.toList = '#' :: (c.text.toList.drop 2 ++ c.text.toList.take 2) := by
  simp [css, text, hexByte]

theorem length_text (c : Color) : c.text.toList.length = 8 := by
  simp [text, hexByte]

theorem mem_digitChars_of_mem_text {c : Color} {d : Char} (h : d ∈ c.text.toList) :
    d ∈ digitChars := by
  have hall : ∀ n : Fin 16, Nat.digitChar n ∈ digitChars := by decide
  have hhigh (b : UInt8) : Nat.digitChar (b.toNat / 16) ∈ digitChars := by
    have hlt := b.toNat_lt
    exact hall ⟨b.toNat / 16, by omega⟩
  have hlow (b : UInt8) : Nat.digitChar (b.toNat % 16) ∈ digitChars :=
    hall ⟨b.toNat % 16, Nat.mod_lt _ (by decide)⟩
  have hbyte : ∀ b : UInt8, ∀ e ∈ hexByte b, e ∈ digitChars := by
    intro b e he
    simp only [hexByte, List.mem_cons, List.not_mem_nil, or_false] at he
    rcases he with rfl | rfl
    · exact hhigh b
    · exact hlow b
  simp only [text, String.toList_ofList, List.mem_append] at h
  rcases h with ((h | h) | h) | h <;> exact hbyte _ d h

theorem toLower_of_mem_digitChars {d : Char} (h : d ∈ digitChars) : d.toLower = d := by
  have hall : ∀ i : Fin 16, (Nat.digitChar i).toLower = Nat.digitChar i := by decide
  obtain ⟨i, rfl⟩ := exists_of_mem_digitChars h
  exact hall i

theorem isEightDigits_text (c : Color) : IsEightDigits c.text := by
  refine ⟨c.length_text, fun d hd => ?_⟩
  have hmem := mem_digitChars_of_mem_text hd
  rw [IsDigit, toLower_of_mem_digitChars hmem]
  exact hmem

theorem number_text (c : Color) : number 16 c.text.toList = c.argb := by
  obtain ⟨d, hread, -, hargb⟩ := exists_ofText?_of_isEightDigits c.isEightDigits_text
  rw [ofText?_text, Option.some.injEq] at hread
  rw [← hargb, hread]

theorem argb_ofArgb (v : UInt32) : (ofArgb v.toNat).argb = v.toNat := by
  have hlt := v.toNat_lt
  simp only [argb, ofArgb, UInt8.toNat_ofNat']
  omega

/-! ## The order -/

theorem argb_lt_iff_text_lt (c d : Color) : c.argb < d.argb ↔ c.text < d.text := by
  have hlower (c : Color) : c.text.toList.map Char.toLower = c.text.toList := by
    rw [List.map_congr_left fun e he => toLower_of_mem_digitChars (mem_digitChars_of_mem_text he),
      List.map_id']
  have hlength : c.text.toList.length = d.text.toList.length := by
    rw [length_text, length_text]
  rw [← number_text, ← number_text,
    number_lt_iff (Nat.le_refl 16) hlength c.isEightDigits_text.2 d.isEightDigits_text.2, hlower,
    hlower, String.lt_iff]

theorem argb_eq_iff_text_eq (c d : Color) : c.argb = d.argb ↔ c.text = d.text := by
  constructor
  · intro h
    have hnot : ¬c.text < d.text ∧ ¬d.text < c.text := by
      rw [← argb_lt_iff_text_lt, ← argb_lt_iff_text_lt]
      omega
    exact String.le_antisymm hnot.2 hnot.1
  · intro h
    rw [text_injective h]

theorem compare_eq_compare_text (c d : Color) : compare c d = compare c.text d.text := by
  show compareOfLessAndEq c.argb d.argb = compareOfLessAndEq c.text d.text
  simp only [compareOfLessAndEq, argb_lt_iff_text_lt, argb_eq_iff_text_eq]

/-- The texts of colors.  Every color is read back from its text, which is its number in eight digits
of lower case; eight digits in either case name the color of the number they denote, which is written
with the same digits, and in style sheets with the first two behind the others; and colors are ordered
like their texts. -/
theorem color_text_codec :
    (∀ v : UInt32, ofText (ofArgb v.toNat).text = .ok (ofArgb v.toNat) ∧
      (ofArgb v.toNat).argb = v.toNat ∧
      (ofArgb v.toNat).text.toList.length = 8 ∧
      (∀ d ∈ (ofArgb v.toNat).text.toList, d ∈ digitChars) ∧
      number 16 (ofArgb v.toNat).text.toList = v.toNat) ∧
    (∀ s : String, IsEightDigits s → ∃ c, ofText s = .ok c ∧ c.text = s.toLower ∧
      c.argb = number 16 s.toList ∧
      c.css.toList = '#' :: (s.toLower.toList.drop 2 ++ s.toLower.toList.take 2)) ∧
    ∀ c d : Color, compare c d = compare c.text d.text := by
  refine ⟨fun v => ⟨?_, argb_ofArgb v, length_text _, fun d hd => mem_digitChars_of_mem_text hd, ?_⟩,
    fun s hs => ?_, compare_eq_compare_text⟩
  · rw [ofText, ofText?_text]
  · rw [number_text, argb_ofArgb]
  · obtain ⟨c, hread, htext, hargb⟩ := exists_ofText?_of_isEightDigits hs
    refine ⟨c, by rw [ofText, hread], htext, hargb, ?_⟩
    rw [css_eq_rotated, htext]

end Color
end DesignTokens
