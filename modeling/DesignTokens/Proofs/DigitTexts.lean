import DesignTokens.Decimal.Read
import DesignTokens.Text.Blank
import Mathlib.Data.List.Basic
import Mathlib.Data.Nat.Digits.Defs
import Mathlib.Tactic.Ring

/-!
Digits and the numbers they denote.

`number` is positional notation: a digit counts for its place among the sixteen digits, times the base
as often as there are digits behind it.  Reading goes the other way, digit by digit from the left and
against a bound.  The two agree (`readDigits_eq_ok_iff`), because what has been read so far is never
above what is read in the end.

Digits of one length are ordered like the numbers they denote (`number_lt_iff`), so a number has one
spelling of each length, and the spellings differ by the zeros in front (`eq_zeros_append_of_number`).
-/

namespace DesignTokens
namespace Decimal

/-! ## Digits -/

/-- The digits of bases up to sixteen, in the order of their values. -/
def digitChars : List Char :=
  "0123456789abcdef".toList

/-- Whether the character is a digit in the base; capital letters are digits too. -/
def IsDigit (base : Nat) (c : Char) : Prop :=
  c.toLower ∈ digitChars.take base

instance (base : Nat) (c : Char) : Decidable (IsDigit base c) :=
  inferInstanceAs (Decidable (_ ∈ _))

/-- The place of a character among the digits; of a character that is no digit, behind them. -/
def place (c : Char) : Nat :=
  digitChars.idxOf c.toLower

theorem isDigit_iff_place_lt {base : Nat} (hbase : base ≤ 16) {c : Char} :
    IsDigit base c ↔ place c < base := by
  by_cases hmem : c.toLower ∈ digitChars
  · exact List.mem_take_iff_idxOf_lt hmem
  · have hplace : place c = 16 := List.idxOf_eq_length hmem
    constructor
    · intro h
      exact absurd (List.mem_of_mem_take h) hmem
    · intro h
      omega

theorem exists_of_mem_digitChars {d : Char} (h : d ∈ digitChars) :
    ∃ i : Fin 16, d = Nat.digitChar i := by
  have hall : digitChars = (List.finRange 16).map fun i : Fin 16 => Nat.digitChar i := by decide
  rw [hall, List.mem_map] at h
  obtain ⟨i, -, hi⟩ := h
  exact ⟨i, hi.symm⟩

theorem idxOf_digitChar (i : Fin 16) : digitChars.idxOf (Nat.digitChar i) = i.val := by
  have hall : ∀ i : Fin 16, digitChars.idxOf (Nat.digitChar i) = i.val := by decide
  exact hall i

theorem toLower_of_not_ascii {c : Char} (h : ¬c.toNat < 128) : c.toLower = c := by
  have hletter : ¬(c.val ≥ 'A'.val ∧ c.val ≤ 'Z'.val) := by
    intro hletter
    have hle : c.toNat ≤ 90 := hletter.2
    omega
  exact dif_neg hletter

theorem IsDigit.ascii {base : Nat} {c : Char} (h : IsDigit base c) : c.toNat < 128 := by
  by_contra hascii
  rw [IsDigit, toLower_of_not_ascii hascii] at h
  have hall : ∀ i : Fin 16, (Nat.digitChar i).toNat < 128 := by decide
  obtain ⟨i, hi⟩ := exists_of_mem_digitChars (List.mem_of_mem_take h)
  rw [hi] at hascii
  exact hascii (hall i)

theorem forall_ascii {P : Char → Prop} (h : ∀ n : Fin 128, P (Char.ofNat n)) {c : Char}
    (hc : c.toNat < 128) : P c := by
  have hchar := h ⟨c.toNat, hc⟩
  rwa [Char.ofNat_toNat] at hchar

theorem not_blank_of_isDigit {c : Char} (h : IsDigit 16 c) : Text.isBlank c = false :=
  forall_ascii (P := fun c => IsDigit 16 c → Text.isBlank c = false) (by decide +kernel) h.ascii h

/-- The reader knows the sixteen digits, and gives each its place. -/
theorem digitValue?_sixteen (c : Char) :
    digitValue? 16 c = if place c < 16 then some (place c) else none := by
  by_cases hascii : c.toNat < 128
  · exact forall_ascii (P := fun c => digitValue? 16 c =
      if place c < 16 then some (place c) else none) (by decide +kernel) hascii
  · have hnot : ¬place c < 16 := by
      rw [← isDigit_iff_place_lt (Nat.le_refl 16)]
      exact fun h => hascii h.ascii
    rw [if_neg hnot, digitValue?, if_neg (by omega), if_neg (by omega), if_neg (by omega)]
    rfl

theorem digitValue?_eq {base : Nat} (hbase : base ≤ 16) (c : Char) :
    digitValue? base c = if place c < base then some (place c) else none := by
  have hfilter : digitValue? base c = (digitValue? 16 c).filter (· < base) := by
    simp only [digitValue?, Option.filter_filter]
    congr 1
    funext d
    have hle : d < base → d < 16 := fun hd => by omega
    simpa using hle
  rw [hfilter, digitValue?_sixteen]
  by_cases hplace : place c < 16
  · by_cases hbound : place c < base
    · simp [hplace, hbound]
    · rw [if_pos hplace, if_neg hbound, Option.filter_some, if_neg (by simpa using hbound)]
  · rw [if_neg hplace, if_neg (by omega)]
    rfl

theorem digitValue?_eq_some_iff {base : Nat} (hbase : base ≤ 16) {c : Char} {d : Nat} :
    digitValue? base c = some d ↔ IsDigit base c ∧ place c = d := by
  rw [digitValue?_eq hbase, isDigit_iff_place_lt hbase]
  by_cases h : place c < base
  · simp [h]
  · simp [h]

theorem digitChar_place {c : Char} (h : IsDigit 16 c) : Nat.digitChar (place c) = c.toLower := by
  obtain ⟨i, hi⟩ := exists_of_mem_digitChars (List.mem_of_mem_take h)
  rw [place, hi, idxOf_digitChar]

/-! ## Numbers -/

/-- The number that digits denote, the highest digit first. -/
def number (base : Nat) : List Char → Nat
  | [] => 0
  | c :: cs => place c * base ^ cs.length + number base cs

theorem number_append (base : Nat) (xs ys : List Char) :
    number base (xs ++ ys) = number base xs * base ^ ys.length + number base ys := by
  induction xs with
  | nil => simp [number]
  | cons c xs ih =>
      rw [List.cons_append, number, number, ih, List.length_append, pow_add]
      ring

theorem number_lt {base : Nat} (hbase : base ≤ 16) {cs : List Char}
    (h : ∀ c ∈ cs, IsDigit base c) : number base cs < base ^ cs.length := by
  induction cs with
  | nil => simp [number]
  | cons c cs ih =>
      rw [List.forall_mem_cons] at h
      have hplace : place c + 1 ≤ base := (isDigit_iff_place_lt hbase).mp h.1
      calc number base (c :: cs)
          = place c * base ^ cs.length + number base cs := rfl
        _ < place c * base ^ cs.length + base ^ cs.length := Nat.add_lt_add_left (ih h.2) _
        _ = (place c + 1) * base ^ cs.length := by ring
        _ ≤ base * base ^ cs.length := Nat.mul_le_mul_right _ hplace
        _ = base ^ (c :: cs).length := by rw [List.length_cons, pow_succ, Nat.mul_comm]

/-- In front of digits of one length, the first digits decide unless they are equal. -/
theorem add_mul_lt_iff {a b x y size : Nat} (hx : x < size) (hy : y < size) :
    a * size + x < b * size + y ↔ a < b ∨ a = b ∧ x < y := by
  rcases Nat.lt_trichotomy a b with hab | hab | hab
  · have hmul : (a + 1) * size ≤ b * size := Nat.mul_le_mul_right size hab
    rw [Nat.add_mul, Nat.one_mul] at hmul
    constructor <;> omega
  · subst hab
    constructor <;> omega
  · have hmul : (b + 1) * size ≤ a * size := Nat.mul_le_mul_right size hab
    rw [Nat.add_mul, Nat.one_mul] at hmul
    constructor <;> omega

theorem place_lt_place_iff {c d : Char} (hc : IsDigit 16 c) (hd : IsDigit 16 d) :
    (place c < place d ↔ c.toLower < d.toLower) ∧ (place c = place d ↔ c.toLower = d.toLower) := by
  have hall : ∀ i j : Fin 16, (i.val < j.val ↔ Nat.digitChar i < Nat.digitChar j) ∧
      (i.val = j.val ↔ Nat.digitChar i = Nat.digitChar j) := by decide +kernel
  obtain ⟨i, hi⟩ := exists_of_mem_digitChars (List.mem_of_mem_take hc)
  obtain ⟨j, hj⟩ := exists_of_mem_digitChars (List.mem_of_mem_take hd)
  rw [place, place, hi, hj, idxOf_digitChar, idxOf_digitChar]
  exact hall i j

theorem isDigit_sixteen {base : Nat} (hbase : base ≤ 16) {c : Char} (h : IsDigit base c) :
    IsDigit 16 c := by
  rw [isDigit_iff_place_lt (Nat.le_refl 16)]
  have hplace := (isDigit_iff_place_lt hbase).mp h
  omega

/-- Digits of one length are ordered like the numbers they denote. -/
theorem number_lt_iff {base : Nat} (hbase : base ≤ 16) {xs ys : List Char}
    (hlength : xs.length = ys.length) (hxs : ∀ c ∈ xs, IsDigit base c)
    (hys : ∀ c ∈ ys, IsDigit base c) :
    number base xs < number base ys ↔ xs.map Char.toLower < ys.map Char.toLower := by
  induction xs generalizing ys with
  | nil =>
      rw [List.eq_nil_of_length_eq_zero hlength.symm]
      simp [number]
  | cons x xs ih =>
      cases ys with
      | nil => simp at hlength
      | cons y ys =>
          rw [List.forall_mem_cons] at hxs hys
          have htail : xs.length = ys.length := by simpa using hlength
          have hx : number base xs < base ^ ys.length := htail ▸ number_lt hbase hxs.2
          have hy : number base ys < base ^ ys.length := number_lt hbase hys.2
          obtain ⟨hlt, heq⟩ :=
            place_lt_place_iff (isDigit_sixteen hbase hxs.1) (isDigit_sixteen hbase hys.1)
          rw [number, number, htail, add_mul_lt_iff hx hy, hlt, heq, ih htail hxs.2 hys.2,
            List.map_cons, List.map_cons, List.cons_lt_cons_iff]

/-! ## Reading digits -/

/-- Reading goes on from a number to the one that the digits denote behind it, if the bound admits
that one. -/
theorem readDigits_eq_ok_iff {base : Nat} (hbase : base ≤ 16) (hpos : 0 < base) {most : Nat}
    {overflow : IntegerError} {acc : Nat} (hacc : acc ≤ most) {cs : List Char} {n : Nat} :
    readDigits base most overflow acc cs = .ok n ↔
      (∀ c ∈ cs, IsDigit base c) ∧ acc * base ^ cs.length + number base cs = n ∧ n ≤ most := by
  induction cs generalizing acc with
  | nil =>
      simp only [readDigits, number, Except.ok.injEq, List.length_nil, pow_zero]
      constructor
      · intro h
        subst h
        exact ⟨by simp, by omega, hacc⟩
      · intro h
        omega
  | cons c cs ih =>
      have hstep : acc * base ^ (c :: cs).length + number base (c :: cs) =
          (acc * base + place c) * base ^ cs.length + number base cs := by
        rw [number, List.length_cons, pow_succ]
        ring
      rw [readDigits, digitValue?_eq hbase, List.forall_mem_cons, isDigit_iff_place_lt hbase, hstep]
      by_cases hplace : place c < base
      · simp only [hplace, if_true, true_and]
        by_cases hbound : acc * base + place c ≤ most
        · rw [if_pos hbound, ih hbound]
        · -- The number only grows, so it does not come back below the bound.
          rw [if_neg hbound]
          have hgrow : acc * base + place c ≤ (acc * base + place c) * base ^ cs.length :=
            Nat.le_mul_of_pos_right _ (Nat.pow_pos hpos)
          constructor
          · intro h
            cases h
          · intro h
            omega
      · simp [hplace]

/-- A natural number is read from digits, of which there is at least one, with or without a plus sign
in front. -/
theorem readNat_eq_ok_iff {base : Nat} (hbase : base ≤ 16) (hpos : 0 < base) {most : Nat}
    {cs : List Char} {n : Nat} :
    readNat base most cs = .ok n ↔
      ∃ sign digits, cs = sign ++ digits ∧ (sign = [] ∨ sign = ['+']) ∧ digits ≠ [] ∧
        (∀ c ∈ digits, IsDigit base c) ∧ number base digits = n ∧ n ≤ most := by
  have hread {overflow : IntegerError} {digits : List Char} :
      readDigits base most overflow 0 digits = .ok n ↔
        (∀ c ∈ digits, IsDigit base c) ∧ number base digits = n ∧ n ≤ most := by
    rw [readDigits_eq_ok_iff hbase hpos (Nat.zero_le most), Nat.zero_mul, Nat.zero_add]
  have hplus : ¬IsDigit base '+' := fun h => absurd (List.mem_of_mem_take h) (by decide)
  constructor
  · intro h
    unfold readNat at h
    split at h
    · cases h
    · next digits =>
        rw [readNonempty] at h
        by_cases hempty : digits.isEmpty = true
        · rw [if_pos hempty] at h
          cases h
        · rw [if_neg hempty] at h
          rw [List.isEmpty_iff] at hempty
          exact ⟨['+'], digits, rfl, .inr rfl, hempty, hread.mp h⟩
    · next hne _ => exact ⟨[], cs, rfl, .inl rfl, hne, hread.mp h⟩
  · rintro ⟨sign, digits, rfl, hsign, hne, hdigits⟩
    obtain ⟨first, more, rfl⟩ := List.exists_cons_of_ne_nil hne
    rcases hsign with rfl | rfl
    · -- A digit is no sign.
      rw [List.nil_append]
      unfold readNat
      split
      · next heq => cases heq
      · next heq =>
          cases heq
          exact absurd (hdigits.1 '+' List.mem_cons_self) hplus
      · exact hread.mpr hdigits
    · exact hread.mpr hdigits

/-- A positive integer is read like a natural number. -/
theorem readInt_eq_ok_iff_of_pos {base : Nat} (hbase : base ≤ 16) (hpos : 0 < base)
    {least most : Nat} {cs : List Char} {n : Nat} (hn : 0 < n) :
    readInt base least most cs = .ok (n : Int) ↔ readNat base most cs = .ok n := by
  have hminus : ¬IsDigit base '-' := fun h => absurd (List.mem_of_mem_take h) (by decide)
  unfold readInt
  split
  · next digits =>
      constructor
      · intro h
        cases hread : readNonempty base least .tooSmall digits with
        | error e =>
            rw [hread] at h
            cases h
        | ok m =>
            rw [hread] at h
            have hneg : -(m : Int) = n := Except.ok.inj h
            omega
      · intro h
        obtain ⟨sign, rest, hsplit, hsign, hne, hdigits, -⟩ :=
          (readNat_eq_ok_iff hbase hpos).mp h
        obtain ⟨first, more, rfl⟩ := List.exists_cons_of_ne_nil hne
        rcases hsign with rfl | rfl
        · cases hsplit
          exact absurd (hdigits '-' List.mem_cons_self) hminus
        · cases hsplit
  · cases hread : readNat base most cs with
    | error e => simp [Except.map]
    | ok m => simp [Except.map]

/-! ## Spellings of a number -/

theorem place_digitChar {d : Nat} (h : d < 16) : place (Nat.digitChar d) = d := by
  have hall : ∀ d : Fin 16, place (Nat.digitChar d) = d.val := by decide
  exact hall ⟨d, h⟩

theorem number_toDigits {base : Nat} (hbase : base ≤ 16) (hone : 1 < base) (n : Nat) :
    number base (Nat.toDigits base n) = n := by
  induction n using Nat.strongRecOn with
  | ind n ih =>
      by_cases hlt : n < base
      · rw [Nat.toDigits_of_lt_base hlt]
        simp only [number, place_digitChar (show n < 16 by omega)]
        simp
      · have hmod : n % base < base := Nat.mod_lt n (by omega)
        have hdiv : n / base < n := Nat.div_lt_self (by omega) hone
        rw [Nat.toDigits_of_base_le hone (by omega), number_append, ih _ hdiv]
        simp only [number, place_digitChar (show n % base < 16 by omega), List.length_singleton,
          List.length_nil, pow_zero, pow_one, Nat.mul_one, Nat.add_zero]
        rw [Nat.mul_comm]
        exact Nat.div_add_mod n base

theorem number_zeros_append (base k : Nat) (cs : List Char) :
    number base (List.replicate k '0' ++ cs) = number base cs := by
  have hzero : place '0' = 0 := by decide
  induction k with
  | zero => rfl
  | succ k ih => rw [List.replicate_succ, List.cons_append, number, hzero, ih, Nat.zero_mul,
      Nat.zero_add]

theorem isDigit_ten_iff {c : Char} : IsDigit 10 c ↔ c.isDigit = true := by
  by_cases hascii : c.toNat < 128
  · exact forall_ascii (P := fun c => IsDigit 10 c ↔ c.isDigit = true) (by decide +kernel) hascii
  · constructor
    · intro h
      exact absurd h.ascii hascii
    · intro h
      rw [Char.isDigit, Bool.and_eq_true, decide_eq_true_eq, decide_eq_true_eq] at h
      have hle : c.toNat ≤ 57 := h.2
      omega

theorem toLower_of_isDigit_ten {c : Char} (h : IsDigit 10 c) : c.toLower = c :=
  forall_ascii (P := fun c => IsDigit 10 c → c.toLower = c) (by decide +kernel) h.ascii h

/-- Two spellings of one length of the same number differ by the case of their digits. -/
theorem map_toLower_eq_of_number_eq {base : Nat} (hbase : base ≤ 16) {xs ys : List Char}
    (hlength : xs.length = ys.length) (hxs : ∀ c ∈ xs, IsDigit base c)
    (hys : ∀ c ∈ ys, IsDigit base c) (h : number base xs = number base ys) :
    xs.map Char.toLower = ys.map Char.toLower := by
  apply List.le_antisymm
  · rw [← List.not_lt, ← number_lt_iff hbase hlength.symm hys hxs]
    omega
  · rw [← List.not_lt, ← number_lt_iff hbase hlength hxs hys]
    omega

theorem eq_of_number_eq {xs ys : List Char} (hlength : xs.length = ys.length)
    (hxs : ∀ c ∈ xs, IsDigit 10 c) (hys : ∀ c ∈ ys, IsDigit 10 c)
    (h : number 10 xs = number 10 ys) : xs = ys := by
  have hlower : ∀ cs : List Char, (∀ c ∈ cs, IsDigit 10 c) → cs.map Char.toLower = cs := by
    intro cs hcs
    rw [List.map_congr_left fun c hc => toLower_of_isDigit_ten (hcs c hc), List.map_id']
  rw [← hlower xs hxs, ← hlower ys hys]
  exact map_toLower_eq_of_number_eq (by decide) hlength hxs hys h

theorem isDigit_of_mem_toDigits {n : Nat} {c : Char} (h : c ∈ Nat.toDigits 10 n) : IsDigit 10 c :=
  isDigit_ten_iff.mpr (Nat.isDigit_of_mem_toDigits (by decide) (by decide) h)

theorem isDigit_of_mem_zeros_append {k : Nat} {cs : List Char} (hcs : ∀ c ∈ cs, IsDigit 10 c) :
    ∀ c ∈ List.replicate k '0' ++ cs, IsDigit 10 c := by
  intro c hc
  rcases List.mem_append.mp hc with hzero | hmem
  · rw [List.eq_of_mem_replicate hzero]
    decide
  · exact hcs c hmem

/-- The decimal spellings of a number are its shortest one and those with zeros in front of it. -/
theorem eq_zeros_append_of_number {cs : List Char} (hne : cs ≠ []) (hcs : ∀ c ∈ cs, IsDigit 10 c) :
    ∃ k, cs = List.replicate k '0' ++ Nat.toDigits 10 (number 10 cs) := by
  have hten : 10 ≤ 16 := by decide
  have hshort : (Nat.toDigits 10 (number 10 cs)).length ≤ cs.length :=
    (Nat.length_toDigits_le_iff (by decide) (List.length_pos_of_ne_nil hne)).mpr
      (number_lt hten hcs)
  refine ⟨cs.length - (Nat.toDigits 10 (number 10 cs)).length, eq_of_number_eq ?_ hcs ?_ ?_⟩
  · rw [List.length_append, List.length_replicate]
    omega
  · exact isDigit_of_mem_zeros_append fun c hc => isDigit_of_mem_toDigits hc
  · rw [number_zeros_append, number_toDigits hten (by decide)]

end Decimal
end DesignTokens
