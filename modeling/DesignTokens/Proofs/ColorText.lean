import DesignTokens.Analysis.Literal
import DesignTokens.Proofs.TextCuts
import Mathlib.Data.Nat.Digits.Defs

/-!
The texts of colors.

A color that is written is read back (`ofText?_text`), and eight digits are the text of a color.  So a
number below `10 ^ 8`, filled up with zeros, names a color.
-/

namespace DesignTokens

namespace Color

theorem digitValue?_digitChar {d : Nat} (h : d < 16) :
    Decimal.digitValue? 16 (Nat.digitChar d) = some d := by
  have hall : ∀ d : Fin 16, Decimal.digitValue? 16 (Nat.digitChar d) = some d.val := by decide
  exact hall ⟨d, h⟩

theorem digitChar_plain {d : Nat} (h : d < 16) :
    (Nat.digitChar d).toNat < 128 ∧ Text.isBlank (Nat.digitChar d) = false := by
  have hall : ∀ d : Fin 16, (Nat.digitChar d).toNat < 128 ∧
      Text.isBlank (Nat.digitChar d) = false := by decide
  exact hall ⟨d, h⟩

theorem ofNat_halves (b : UInt8) : UInt8.ofNat (16 * (b.toNat / 16) + b.toNat % 16) = b := by
  rw [Nat.div_add_mod]
  exact UInt8.ofNat_toNat

/-- A color is read back from its text. -/
theorem ofText?_text (c : Color) : ofText? c.text = some c := by
  have hhigh (b : UInt8) : b.toNat / 16 < 16 := by
    have hlt := b.toNat_lt
    omega
  have hlow (b : UInt8) : b.toNat % 16 < 16 := Nat.mod_lt _ (by decide)
  have hascii : c.text.toList.length = 8 ∧ c.text.toList.all (·.toNat < 128) = true := by
    simp [text, hexByte, digitChar_plain, hhigh, hlow]
  have hcss : c.text.toList.drop 2 ++ c.text.toList.take 2 =
      hexByte c.red ++ hexByte c.green ++ hexByte c.blue ++ hexByte c.alpha := by
    simp [text, hexByte]
  have htrim : Text.trimEnd (hexByte c.red ++ hexByte c.green ++ hexByte c.blue ++
      hexByte c.alpha) = hexByte c.red ++ hexByte c.green ++ hexByte c.blue ++ hexByte c.alpha :=
    Text.trimEnd_eq_self (by simp [hexByte, digitChar_plain, hlow])
  have hvalues : (hexByte c.red ++ hexByte c.green ++ hexByte c.blue ++ hexByte c.alpha).mapM
      (Decimal.digitValue? 16) =
      some [c.red.toNat / 16, c.red.toNat % 16, c.green.toNat / 16, c.green.toNat % 16,
        c.blue.toNat / 16, c.blue.toNat % 16, c.alpha.toNat / 16, c.alpha.toNat % 16] := by
    simp [hexByte, digitValue?_digitChar, hhigh, hlow]
  rw [ofText?, if_pos hascii, hcss, ofCss?, htrim, hvalues, Option.bind_some, ofCssDigits]
  simp only [ofNat_halves]

theorem text_injective {c d : Color} (h : c.text = d.text) : c = d := by
  have hread := ofText?_text c
  rw [h, ofText?_text d] at hread
  exact (Option.some.inj hread).symm

theorem hexByte_ofNat {d e : Nat} (hd : d < 16) (he : e < 16) :
    hexByte (.ofNat (16 * d + e)) = [Nat.digitChar d, Nat.digitChar e] := by
  have hbyte : (UInt8.ofNat (16 * d + e)).toNat = 16 * d + e := by
    rw [UInt8.toNat_ofNat']
    omega
  have hhigh : (16 * d + e) / 16 = d := by omega
  have hlow : (16 * d + e) % 16 = e := by omega
  rw [hexByte, hbyte, hhigh, hlow]

theorem exists_digitChar {c : Char} (h : c.isDigit = true) : ∃ d < 16, c = Nat.digitChar d := by
  rw [Char.isDigit, Bool.and_eq_true, decide_eq_true_eq, decide_eq_true_eq] at h
  have hlow : 48 ≤ c.toNat := h.1
  have hhigh : c.toNat ≤ 57 := h.2
  refine ⟨c.toNat - 48, by omega, Char.toNat_inj.mp ?_⟩
  rw [Nat.toNat_digitChar_of_lt_ten (by omega)]
  omega

/-- Eight digits are the text of a color. -/
theorem exists_text_eq {cs : List Char} (hlength : cs.length = 8)
    (hdigits : ∀ c ∈ cs, c.isDigit = true) : ∃ color : Color, color.text = String.ofList cs := by
  obtain ⟨ds, hds, rfl⟩ : ∃ ds : List Nat, (∀ d ∈ ds, d < 16) ∧ cs = ds.map Nat.digitChar := by
    clear hlength
    induction cs with
    | nil => exact ⟨[], by simp, rfl⟩
    | cons c cs ih =>
        rw [List.forall_mem_cons] at hdigits
        obtain ⟨d, hd, rfl⟩ := exists_digitChar hdigits.1
        obtain ⟨ds, hds, rfl⟩ := ih hdigits.2
        exact ⟨d :: ds, List.forall_mem_cons.mpr ⟨hd, hds⟩, rfl⟩
  match ds, hlength with
  | [a, a', r, r', g, g', b, b'], _ =>
      simp only [List.forall_mem_cons] at hds
      obtain ⟨ha, ha', hr, hr', hg, hg', hb, hb', -⟩ := hds
      refine ⟨⟨.ofNat (16 * a + a'), .ofNat (16 * r + r'), .ofNat (16 * g + g'),
        .ofNat (16 * b + b')⟩, ?_⟩
      rw [text, hexByte_ofNat ha ha', hexByte_ofNat hr hr', hexByte_ofNat hg hg',
        hexByte_ofNat hb hb']
      rfl

end Color

namespace Analysis

theorem toList_padEight (n : Nat) : (padEight n).toList =
    List.replicate (8 - (Nat.toDigits 10 n).length) '0' ++ Nat.toDigits 10 n := by
  simp [padEight, Decimal.digitText, Decimal.zeros]

/-- A number of at most eight digits names a color. -/
theorem exists_text_eq_padEight {n : Nat} (h : n < 10 ^ 8) :
    ∃ color : Color, color.text = padEight n := by
  have hlength : (Nat.toDigits 10 n).length ≤ 8 :=
    (Nat.length_toDigits_le_iff (by decide) (by decide)).mpr h
  have heq : padEight n = String.ofList (padEight n).toList := String.ofList_toList.symm
  rw [heq, toList_padEight]
  refine Color.exists_text_eq ?_ fun c hc => ?_
  · rw [List.length_append, List.length_replicate]
    omega
  · rcases List.mem_append.mp hc with hc | hc
    · rw [List.eq_of_mem_replicate hc]
      rfl
    · exact Nat.isDigit_of_mem_toDigits (by decide) (by decide) hc

theorem digitText_eq_padEight {n : Nat} (h : (Nat.toDigits 10 n).length = 8) :
    Decimal.digitText n = padEight n := by
  rw [← String.toList_inj, toList_padEight, h]
  simp [Decimal.digitText]

end Analysis
end DesignTokens
