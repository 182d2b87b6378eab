import DesignTokens.Value
import DesignTokens.Proofs.DigitTexts

/-!
Which texts are font weights.

A weight has a name or is written `w100` to `w900`.  Behind the `w` an integer is read, and an integer
may have a plus sign and zeros in front, so a weight has more spellings than the one it is shown in.
`spelled` gives all of them, with what stands in front of the three digits; the reader accepts these and
the two names, and nothing else (`ofText?_eq_some_iff`).
-/

namespace DesignTokens
namespace FontWeight

open Decimal

/-- The texts that stand for a weight: two names, and the weights as they are shown. -/
def documented : List String :=
  ["normal", "bold", "w100", "w200", "w300", "w400", "w500", "w600", "w700", "w800", "w900"]

/-- What an integer may have in front of its first digit that counts: zeros, and a plus sign before
them. -/
def IsLead (lead : List Char) : Prop :=
  ∃ k, lead = List.replicate k '0' ∨ lead = '+' :: List.replicate k '0'

/-- A weight with something in front of its digits. -/
def spelled (lead : List Char) (w : FontWeight) : String :=
  String.ofList ('w' :: (lead ++ Nat.toDigits 10 w.weight))

/-! ## Numbers -/

theorem ext_weight {v w : FontWeight} (h : v.weight = w.weight) : v = w := by
  cases v
  cases w
  cases h
  rfl

theorem ofInt?_eq_some_iff {n : Int} {w : FontWeight} : ofInt? n = some w ↔ (w.weight : Int) = n := by
  have hbounds := w.isHundred
  rw [ofInt?]
  constructor
  · intro h
    split at h
    · have hw := Option.some.inj h
      rw [← hw]
      show (n.toNat : Int) = n
      omega
    · cases h
  · intro h
    have hweight : n.toNat = w.weight := by omega
    rw [dif_pos (by omega)]
    exact congrArg some (ext_weight hweight)

/-- A number is a weight exactly if it is one of the nine hundreds. -/
theorem ofInt_eq_ok_iff {n : Int} {w : FontWeight} :
    ofInt n = .ok w ↔ (w.weight : Int) = n ∧ 100 ≤ n ∧ n ≤ 900 ∧ n % 100 = 0 := by
  have hbounds := w.isHundred
  have hread : ofInt n = .ok w ↔ ofInt? n = some w := by
    rw [ofInt]
    cases ofInt? n <;> simp
  rw [hread, ofInt?_eq_some_iff]
  constructor
  · intro h
    omega
  · intro h
    exact h.1

theorem ofInt_eq_error {n : Int} (h : ¬(100 ≤ n ∧ n ≤ 900 ∧ n % 100 = 0)) :
    ofInt n = .error ⟨toString n, .fontWeight⟩ := by
  have hnone : ofInt? n = none := by
    by_contra hne
    obtain ⟨w, hw⟩ := Option.ne_none_iff_exists'.mp hne
    have hbounds := w.isHundred
    have hweight := ofInt?_eq_some_iff.mp hw
    omega
  rw [ofInt, hnone]

/-! ## Spellings -/

theorem toList_spelled (lead : List Char) (w : FontWeight) :
    (spelled lead w).toList = 'w' :: (lead ++ Nat.toDigits 10 w.weight) :=
  String.toList_ofList

theorem spelled_nil (w : FontWeight) : spelled [] w = w.text := by
  have hshown : toString w.weight = String.ofList (Nat.toDigits 10 w.weight) := rfl
  rw [← String.toList_inj, toList_spelled, text, hshown, String.toList_append, String.toList_ofList,
    String.toList_ofList]
  rfl

theorem length_toDigits_weight (w : FontWeight) : (Nat.toDigits 10 w.weight).length = 3 := by
  obtain ⟨hlow, hhigh, -⟩ := w.isHundred
  have hle : (Nat.toDigits 10 w.weight).length ≤ 3 :=
    (Nat.length_toDigits_le_iff (by decide) (by decide)).mpr (by omega)
  have hnot : ¬(Nat.toDigits 10 w.weight).length ≤ 2 := by
    rw [Nat.length_toDigits_le_iff (by decide) (by decide)]
    omega
  omega

/-- The text in which a weight is shown has nothing in front of its digits. -/
theorem eq_nil_of_spelled_eq_text {lead : List Char} {v w : FontWeight}
    (h : spelled lead v = w.text) : lead = [] := by
  have hlist := congrArg (fun s => s.toList.length) h
  simp only [← spelled_nil, toList_spelled, List.length_cons, List.length_append,
    length_toDigits_weight, List.length_nil] at hlist
  exact List.eq_nil_of_length_eq_zero (by omega)

theorem spelled_ne_name (lead : List Char) (w : FontWeight) :
    spelled lead w ≠ "normal" ∧ spelled lead w ≠ "bold" := by
  constructor
  all_goals
    intro h
    have hlist := congrArg (fun s => s.toList.head?) h
    simp [toList_spelled] at hlist

/-- The weights in their order. -/
def hundred (i : Fin 9) : FontWeight :=
  ⟨100 * (i.val + 1), by omega⟩

theorem exists_eq_hundred (w : FontWeight) : ∃ i, w = hundred i := by
  obtain ⟨hlow, hhigh, hmod⟩ := w.isHundred
  refine ⟨⟨w.weight / 100 - 1, by omega⟩, ext_weight ?_⟩
  show w.weight = 100 * (w.weight / 100 - 1 + 1)
  omega

theorem mem_documented_iff {s : String} :
    s ∈ documented ↔ s = "normal" ∨ s = "bold" ∨ ∃ w : FontWeight, s = w.text := by
  have hall : documented =
      "normal" :: "bold" :: (List.finRange 9).map fun i => (hundred i).text := by
    decide +kernel
  rw [hall, List.mem_cons, List.mem_cons, List.mem_map]
  have hweights : (∃ i ∈ List.finRange 9, (hundred i).text = s) ↔ ∃ w : FontWeight, s = w.text := by
    constructor
    · rintro ⟨i, -, rfl⟩
      exact ⟨hundred i, rfl⟩
    · rintro ⟨w, rfl⟩
      obtain ⟨i, rfl⟩ := exists_eq_hundred w
      exact ⟨i, List.mem_finRange i, rfl⟩
  rw [hweights]

/-- Behind a `w`, the reader takes the spellings of a weight. -/
theorem readSigned_bind_eq_some_iff {digits : List Char} {w : FontWeight} :
    (readSigned 64 10 digits).toOption.bind ofInt? = some w ↔
      ∃ lead, IsLead lead ∧ digits = lead ++ Nat.toDigits 10 w.weight := by
  have hbounds := w.isHundred
  have hread : (readSigned 64 10 digits).toOption.bind ofInt? = some w ↔
      readNat 10 (maxNat 63) digits = .ok w.weight := by
    rw [← readInt_eq_ok_iff_of_pos (by decide) (by decide) (show 0 < w.weight by omega)]
    show ((readInt 10 (maxNat 63 + 1) (maxNat 63) digits).toOption.bind ofInt?) = some w ↔
      readInt 10 (maxNat 63 + 1) (maxNat 63) digits = .ok (w.weight : Int)
    cases readInt 10 (maxNat 63 + 1) (maxNat 63) digits with
    | error e => simp [Except.toOption]
    | ok n =>
        rw [Except.toOption, Option.bind_some, ofInt?_eq_some_iff, Except.ok.injEq, eq_comm]
  rw [hread, readNat_eq_ok_iff (by decide) (by decide)]
  constructor
  · rintro ⟨sign, rest, rfl, hsign, hne, hdigits, hnumber, -⟩
    obtain ⟨k, hk⟩ := eq_zeros_append_of_number hne hdigits
    rw [hnumber] at hk
    refine ⟨sign ++ List.replicate k '0', ⟨k, ?_⟩, by rw [hk, List.append_assoc]⟩
    rcases hsign with rfl | rfl
    · exact .inl rfl
    · exact .inr rfl
  · rintro ⟨lead, ⟨k, hlead⟩, rfl⟩
    have hmost : w.weight ≤ maxNat 63 := Nat.le_trans hbounds.2.1 (by decide)
    have hne : List.replicate k '0' ++ Nat.toDigits 10 w.weight ≠ [] :=
      List.append_ne_nil_of_right_ne_nil _ (List.ne_nil_of_length_pos Nat.length_toDigits_pos)
    have hdigits : ∀ c ∈ List.replicate k '0' ++ Nat.toDigits 10 w.weight, IsDigit 10 c :=
      isDigit_of_mem_zeros_append fun c hc => isDigit_of_mem_toDigits hc
    have hnumber : number 10 (List.replicate k '0' ++ Nat.toDigits 10 w.weight) = w.weight := by
      rw [number_zeros_append, number_toDigits (by decide) (by decide)]
    rcases hlead with rfl | rfl
    · exact ⟨[], _, rfl, .inl rfl, hne, hdigits, hnumber, hmost⟩
    · exact ⟨['+'], _, rfl, .inr rfl, hne, hdigits, hnumber, hmost⟩

theorem ofText?_eq_some_iff {s : String} {w : FontWeight} :
    ofText? s = some w ↔ s = "normal" ∧ w = normal ∨ s = "bold" ∧ w = bold ∨
      ∃ lead, IsLead lead ∧ s = spelled lead w := by
  rw [ofText?]
  by_cases hnormal : s = "normal"
  · subst hnormal
    rw [if_pos rfl, Option.some.injEq]
    constructor
    · intro h
      exact .inl ⟨rfl, h.symm⟩
    · rintro (⟨-, h⟩ | ⟨h, -⟩ | ⟨lead, -, h⟩)
      · exact h.symm
      · exact absurd h (by decide)
      · exact absurd h.symm (spelled_ne_name lead w).1
  rw [if_neg hnormal]
  by_cases hbold : s = "bold"
  · subst hbold
    rw [if_pos rfl, Option.some.injEq]
    constructor
    · intro h
      exact .inr (.inl ⟨rfl, h.symm⟩)
    · rintro (⟨h, -⟩ | ⟨-, h⟩ | ⟨lead, -, h⟩)
      · exact absurd h hnormal
      · exact h.symm
      · exact absurd h.symm (spelled_ne_name lead w).2
  rw [if_neg hbold]
  have hspelled (lead : List Char) : s = spelled lead w ↔
      s.toList = 'w' :: (lead ++ Nat.toDigits 10 w.weight) := by
    rw [← String.toList_inj, toList_spelled]
  simp only [hnormal, hbold, false_and, false_or, hspelled]
  split
  · next digits hs =>
      rw [readSigned_bind_eq_some_iff, hs]
      simp only [List.cons.injEq, true_and]
  · next hother =>
      constructor
      · intro h
        cases h
      · rintro ⟨lead, -, hs⟩
        exact absurd hs (hother _)

theorem ofText_eq_ok_iff {s : String} {w : FontWeight} : ofText s = .ok w ↔ ofText? s = some w := by
  rw [ofText]
  cases ofText? s <;> simp

theorem ofText_eq_error {s : String} (h : ¬∃ w, ofText s = .ok w) :
    ofText s = .error ⟨s, .fontWeight⟩ := by
  cases hs : ofText? s with
  | none => rw [ofText, hs]
  | some w => exact absurd ⟨w, ofText_eq_ok_iff.mpr hs⟩ h

/-! ## The documented texts -/

/-- The documented texts are read, and a weight written with a `w` is shown as it is written. -/
theorem exists_ofText_of_mem_documented {s : String} (h : s ∈ documented) :
    ∃ w, ofText s = .ok w ∧ (s = "normal" ∨ s = "bold" ∨ w.text = s) := by
  have hnil : IsLead [] := ⟨0, .inl rfl⟩
  rcases mem_documented_iff.mp h with hs | hs | ⟨w, hs⟩
  · exact ⟨normal, ofText_eq_ok_iff.mpr (ofText?_eq_some_iff.mpr (.inl ⟨hs, rfl⟩)), .inl hs⟩
  · exact ⟨bold, ofText_eq_ok_iff.mpr (ofText?_eq_some_iff.mpr (.inr (.inl ⟨hs, rfl⟩))),
      .inr (.inl hs)⟩
  · refine ⟨w, ofText_eq_ok_iff.mpr (ofText?_eq_some_iff.mpr (.inr (.inr ⟨[], hnil, ?_⟩))),
      .inr (.inr hs.symm)⟩
    rw [spelled_nil, hs]

theorem not_mem_documented {lead : List Char} (h : lead ≠ []) (w : FontWeight) :
    spelled lead w ∉ documented := by
  intro hmem
  rcases mem_documented_iff.mp hmem with hname | hname | ⟨v, hv⟩
  · exact (spelled_ne_name lead w).1 hname
  · exact (spelled_ne_name lead w).2 hname
  · exact h (eq_nil_of_spelled_eq_text hv)

/-- A text is a font weight exactly if it is one of the two names or spells one of the nine weights
behind a `w`, where zeros and a plus sign may stand in front of the digits; every other text is
reported, and a number is a weight exactly if it is one of the nine.  The texts of the documentation are
all read, and a text is read without being one of them exactly if it spells a weight with something in
front of its digits. -/
theorem weights_documented_iff_no_lead (s : String) (n : Int) :
    (∀ w, ofText s = .ok w ↔ s = "normal" ∧ w = normal ∨ s = "bold" ∧ w = bold ∨
      ∃ lead, IsLead lead ∧ s = spelled lead w) ∧
    (∀ w, ofText s = .ok w → 100 ≤ w.weight ∧ w.weight ≤ 900 ∧ w.weight % 100 = 0) ∧
    ((¬∃ w, ofText s = .ok w) → ofText s = .error ⟨s, .fontWeight⟩) ∧
    (s ∈ documented → ∃ w, ofText s = .ok w ∧ (s = "normal" ∨ s = "bold" ∨ w.text = s)) ∧
    ((s ∈ documented ↔ ∃ w, ofText s = .ok w) ↔
      ¬∃ lead w, lead ≠ [] ∧ IsLead lead ∧ s = spelled lead w) ∧
    (∀ w, ofInt n = .ok w ↔ (w.weight : Int) = n ∧ 100 ≤ n ∧ n ≤ 900 ∧ n % 100 = 0) ∧
    ((¬(100 ≤ n ∧ n ≤ 900 ∧ n % 100 = 0)) → ofInt n = .error ⟨toString n, .fontWeight⟩) := by
  have hread {w : FontWeight} := ofText_eq_ok_iff.trans (ofText?_eq_some_iff (s := s) (w := w))
  refine ⟨fun w => hread, fun w _ => w.isHundred, ofText_eq_error, exists_ofText_of_mem_documented,
    ⟨?_, ?_⟩, fun w => ofInt_eq_ok_iff, ofInt_eq_error⟩
  · rintro hiff ⟨lead, w, hne, hlead, hs⟩
    have hmem := hiff.mpr ⟨w, hread.mpr (.inr (.inr ⟨lead, hlead, hs⟩))⟩
    rw [hs] at hmem
    exact not_mem_documented hne w hmem
  · intro hnot
    constructor
    · intro h
      obtain ⟨w, hw, -⟩ := exists_ofText_of_mem_documented h
      exact ⟨w, hw⟩
    · intro h
      obtain ⟨w, hw⟩ := h
      rw [mem_documented_iff]
      rcases hread.mp hw with ⟨hs, -⟩ | ⟨hs, -⟩ | ⟨lead, hlead, hs⟩
      · exact .inl hs
      · exact .inr (.inl hs)
      · have hempty : lead = [] := by
          by_contra hne
          exact hnot ⟨lead, w, hne, hlead, hs⟩
        exact .inr (.inr ⟨w, by rw [hs, hempty, spelled_nil]⟩)

/-- A weight with a plus sign is read, though it is none of the documented texts. -/
theorem plus_four_hundred_read : "w+400" ∉ documented ∧ ofText "w+400" = .ok normal ∧
    normal.text ≠ "w+400" := by
  obtain ⟨hread, -⟩ := weights_documented_iff_no_lead "w+400" 0
  refine ⟨by decide, (hread normal).mpr (.inr (.inr ⟨['+'], ⟨0, .inr rfl⟩, ?_⟩)), by decide +kernel⟩
  decide +kernel

end FontWeight
end DesignTokens
