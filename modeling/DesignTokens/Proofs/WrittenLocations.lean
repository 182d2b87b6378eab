import DesignTokens.CommandLine.Location
import DesignTokens.Proofs.DigitTexts
import DesignTokens.Proofs.TextCuts

/-!
Which texts are locations.

A location is two numbers with a colon between them.  A second colon belongs to the text of the column,
so the cut is at the first one.  `IsNumeral` says what may stand on either side of it and `Writes` for
which number; neither says how it is read.  A side is read exactly if it writes a number of at most
sixty-four bits (`number_eq_ok_iff`), and a text exactly if both of its sides are and neither number is
zero (`exists_ofText_iff`), so that a position, which counts from zero, is one below.
-/

namespace DesignTokens
namespace Location

open Text Decimal

/-! ## What stands on either side of the colon -/

/-- White space, a plus sign or none, digits, and white space again. -/
structure IsNumeral (cs lead sign digits tail : List Char) : Prop where
  cs_eq : cs = lead ++ ((sign ++ digits) ++ tail)
  lead_blank : ∀ c ∈ lead, isBlank c = true
  signed : sign ∈ [[], ['+']]
  digits_ne_nil : digits ≠ []
  isDigit : ∀ c ∈ digits, c.isDigit = true
  tail_blank : ∀ c ∈ tail, isBlank c = true

/-- The text writes the number that its digits denote. -/
def Writes (cs : List Char) (n : Nat) : Prop :=
  ∃ lead sign digits tail, IsNumeral cs lead sign digits tail ∧ Decimal.number 10 digits = n

/-- The numbers that lines and columns may have. -/
def InRange (n : Nat) : Prop :=
  1 ≤ n ∧ n ≤ 2 ^ 64 - 1

/-- A line and a column in decimal, with the colon between them. -/
def shown (line column : Nat) : String :=
  toString line ++ ":" ++ toString column

theorem not_blank_of_mem_numeral {sign digits : List Char} (hsign : sign ∈ [[], ['+']])
    (hdigits : ∀ c ∈ digits, c.isDigit = true) : ∀ c ∈ sign ++ digits, isBlank c = false := by
  intro c hc
  rcases List.mem_append.mp hc with hmem | hmem
  · simp only [List.mem_cons, List.not_mem_nil, or_false] at hsign
    rcases hsign with rfl | rfl
    · cases hmem
    · rw [List.mem_singleton.mp hmem]
      decide
  · exact not_blank_of_isDigit (isDigit_sixteen (by decide) (isDigit_ten_iff.mpr (hdigits c hmem)))

theorem IsNumeral.trim_eq {cs lead sign digits tail : List Char}
    (h : IsNumeral cs lead sign digits tail) : trim cs = sign ++ digits := by
  have hblank := not_blank_of_mem_numeral h.signed h.isDigit
  rw [h.cs_eq]
  exact trim_append h.lead_blank h.tail_blank
    (List.append_ne_nil_of_right_ne_nil _ h.digits_ne_nil)
    (fun c hc => hblank c (List.mem_of_mem_head? hc))
    (fun c hc => hblank c (List.mem_of_mem_getLast? hc))

/-- A side of the colon is read exactly if it writes a number that is not too large. -/
theorem number_eq_ok_iff {cs : List Char} {n : Nat} :
    number cs = .ok n ↔ Writes cs n ∧ n ≤ 2 ^ 64 - 1 := by
  have hmost : maxNat 64 = 2 ^ 64 - 1 := rfl
  rw [number, readNat_eq_ok_iff (by decide) (by decide), hmost]
  constructor
  · rintro ⟨sign, digits, htrim, hsign, hne, hdigits, hnumber, hle⟩
    obtain ⟨lead, tail, hcs, hlead, htail⟩ := exists_trim_append cs
    rw [htrim] at hcs
    have hsigned : sign ∈ [[], ['+']] := by simpa using hsign
    exact ⟨⟨lead, sign, digits, tail, ⟨hcs, hlead, hsigned, hne,
      fun c hc => isDigit_ten_iff.mp (hdigits c hc), htail⟩, hnumber⟩, hle⟩
  · rintro ⟨⟨lead, sign, digits, tail, hnumeral, hnumber⟩, hle⟩
    have hsign : sign = [] ∨ sign = ['+'] := by simpa using hnumeral.signed
    exact ⟨sign, digits, hnumeral.trim_eq, hsign, hnumeral.digits_ne_nil,
      fun c hc => isDigit_ten_iff.mpr (hnumeral.isDigit c hc), hnumber, hle⟩

theorem ofNumbers_eq_ok_iff {line column : Nat} {l : Location} :
    ofNumbers line column = .ok l ↔ line = l.line ∧ column = l.column := by
  rw [ofNumbers]
  constructor
  · intro h
    split at h
    · have hl := Except.ok.inj h
      rw [← hl]
      exact ⟨rfl, rfl⟩
    · cases h
  · rintro ⟨rfl, rfl⟩
    rw [dif_pos ⟨l.line_pos, l.column_pos⟩]

/-! ## The cut at the first colon -/

/-- A text with a colon is read by the two sides of the first one. -/
theorem ofText_eq_ok_iff_of_cut {text : String} {before after : List Char} {l : Location}
    (htext : text.toList = before ++ ':' :: after) (hbefore : ':' ∉ before) :
    ofText text = .ok l ↔ number before = .ok l.line ∧ number after = .ok l.column := by
  have hstop : ∀ c ∈ (':' :: after).head?, (c != ':') = false := by simp
  obtain ⟨htake, hdrop⟩ := takeWhile_append_stop (bne_of_not_mem hbefore) hstop
  simp only [ofText, htext, htake, hdrop]
  -- Of the ways to fail, zero is left once both numbers are read, and no location has a zero.
  cases number before with
  | error e => simp
  | ok line =>
      cases number after with
      | error e => simp
      | ok column =>
          rw [Except.ok.injEq, Except.ok.injEq]
          exact ofNumbers_eq_ok_iff

theorem ofText_of_no_colon {text : String} (h : ':' ∉ text.toList) :
    ofText text = .error (.noColon text) := by
  have hdrop : text.toList.dropWhile (· != ':') = [] :=
    List.dropWhile_eq_nil_iff.mpr (bne_of_not_mem h)
  simp only [ofText, hdrop]

theorem exists_ofText_iff_of_cut {text : String} {before after : List Char} {line column : Nat}
    (htext : text.toList = before ++ ':' :: after) (hbefore : ':' ∉ before) :
    (∃ l, ofText text = .ok l ∧ l.line = line ∧ l.column = column) ↔
      Writes before line ∧ InRange line ∧ Writes after column ∧ InRange column := by
  constructor
  · rintro ⟨l, hread, rfl, rfl⟩
    rw [ofText_eq_ok_iff_of_cut htext hbefore, number_eq_ok_iff, number_eq_ok_iff] at hread
    obtain ⟨⟨hline, hline_le⟩, hcolumn, hcolumn_le⟩ := hread
    exact ⟨hline, ⟨l.line_pos, hline_le⟩, hcolumn, l.column_pos, hcolumn_le⟩
  · rintro ⟨hline, ⟨hline_pos, hline_le⟩, hcolumn, hcolumn_pos, hcolumn_le⟩
    refine ⟨⟨line, column, hline_pos, hcolumn_pos⟩, ?_, rfl, rfl⟩
    rw [ofText_eq_ok_iff_of_cut htext hbefore, number_eq_ok_iff, number_eq_ok_iff]
    exact ⟨⟨hline, hline_le⟩, hcolumn, hcolumn_le⟩

/-- A text is a location exactly if the two sides of its first colon write numbers in range. -/
theorem exists_ofText_iff {text : String} {line column : Nat} :
    (∃ l, ofText text = .ok l ∧ l.line = line ∧ l.column = column) ↔
      ∃ before after, text.toList = before ++ ':' :: after ∧ ':' ∉ before ∧
        Writes before line ∧ InRange line ∧ Writes after column ∧ InRange column := by
  constructor
  · intro h
    by_cases hcolon : ':' ∈ text.toList
    · obtain ⟨before, after, htext, hbefore⟩ := List.eq_append_cons_of_mem hcolon
      exact ⟨before, after, htext, hbefore, (exists_ofText_iff_of_cut htext hbefore).mp h⟩
    · obtain ⟨l, hread, -⟩ := h
      rw [ofText_of_no_colon hcolon] at hread
      cases hread
  · rintro ⟨before, after, htext, hbefore, hsides⟩
    exact (exists_ofText_iff_of_cut htext hbefore).mpr hsides

theorem position_add_one (l : Location) :
    l.position.line + 1 = l.line ∧ l.position.column + 1 = l.column :=
  ⟨Nat.sub_add_cancel l.line_pos, Nat.sub_add_cancel l.column_pos⟩

/-! ## Numbers as they are shown -/

theorem writes_toDigits (n : Nat) : Writes (Nat.toDigits 10 n) n := by
  have hne : Nat.toDigits 10 n ≠ [] := List.ne_nil_of_length_pos Nat.length_toDigits_pos
  refine ⟨[], [], Nat.toDigits 10 n, [], ⟨?_, by simp, by simp, hne, ?_, by simp⟩, ?_⟩
  · simp
  · intro c hc
    exact isDigit_ten_iff.mp (isDigit_of_mem_toDigits hc)
  · exact number_toDigits (by decide) (by decide) n

theorem toList_shown (line column : Nat) :
    (shown line column).toList = Nat.toDigits 10 line ++ ':' :: Nat.toDigits 10 column := by
  have hdigits (n : Nat) : (toString n).toList = Nat.toDigits 10 n := String.toList_ofList
  rw [shown, String.toList_append, String.toList_append, hdigits, hdigits, List.append_assoc]
  rfl

theorem colon_not_mem_toDigits (n : Nat) : ':' ∉ Nat.toDigits 10 n := by
  intro h
  have hdigit := isDigit_of_mem_toDigits h
  exact absurd hdigit (by decide)

/-- A text is a location exactly if the two sides of its first colon write numbers in range, and the
location has these numbers.  Its position counts from zero, one below each of them.  What is shown of
two numbers in range, and of no others, is read back as these numbers. -/
theorem location_read_iff_written (text : String) (line column : Nat) :
    ((∃ l, ofText text = .ok l ∧ l.line = line ∧ l.column = column) ↔
      ∃ before after, text.toList = before ++ ':' :: after ∧ ':' ∉ before ∧
        Writes before line ∧ InRange line ∧ Writes after column ∧ InRange column) ∧
    (∀ l, ofText text = .ok l → InRange l.line ∧ InRange l.column ∧
      l.position.line + 1 = l.line ∧ l.position.column + 1 = l.column) ∧
    ((∃ l, ofText (shown line column) = .ok l ∧ l.line = line ∧ l.column = column) ↔
      InRange line ∧ InRange column) := by
  refine ⟨exists_ofText_iff, fun l hread => ?_, ?_⟩
  · obtain ⟨-, -, -, -, -, hline, -, hcolumn⟩ := exists_ofText_iff.mp ⟨l, hread, rfl, rfl⟩
    exact ⟨hline, hcolumn, position_add_one l⟩
  · rw [exists_ofText_iff_of_cut (toList_shown line column) (colon_not_mem_toDigits line)]
    constructor
    · rintro ⟨-, hline, -, hcolumn⟩
      exact ⟨hline, hcolumn⟩
    · rintro ⟨hline, hcolumn⟩
      exact ⟨writes_toDigits line, hline, writes_toDigits column, hcolumn⟩

example : (ofText "+007 :\t18446744073709551615").map position =
    .ok ⟨6, 18446744073709551614⟩ := by
  decide +kernel

example : ofText "1:18446744073709551616" =
    .error (.badColumn "18446744073709551616" .tooLarge) := by
  decide +kernel

end Location
end DesignTokens
