import DesignTokens.Text.Blank
import Mathlib.Data.List.Basic
import Mathlib.Data.List.TakeWhile

/-!
Where a text is cut.

A text is cut behind the longest front that passes a test.  If the rest begins with a character that the
test refuses, the cut is known from the two parts (`takeWhile_append_stop`).  Trimming makes two such
cuts, one from either side, and loses nothing but white space (`exists_trim_append`).
-/

namespace DesignTokens
namespace Text

/-! ## The front that passes a test -/

/-- What a test takes from the front of a text that goes on with something the test refuses. -/
theorem takeWhile_append_refused {p : Char → Bool} {after : List Char}
    (h : ∀ c ∈ after.head?, p c = false) (cs : List Char) :
    (cs ++ after).takeWhile p = cs.takeWhile p ∧ (cs ++ after).dropWhile p = cs.dropWhile p ++ after := by
  induction cs with
  | nil =>
      cases after with
      | nil => simp
      | cons c after =>
          have hc : p c = false := h c rfl
          simp [hc]
  | cons c cs ih =>
      rw [List.cons_append, List.takeWhile_cons, List.takeWhile_cons, List.dropWhile_cons,
        List.dropWhile_cons]
      by_cases hc : p c = true
      · simp [hc, ih]
      · simp [hc]

/-- A front that passes the test is all that is taken, if the rest begins with something refused. -/
theorem takeWhile_append_stop {p : Char → Bool} {front rest : List Char}
    (hfront : ∀ c ∈ front, p c = true) (hrest : ∀ c ∈ rest.head?, p c = false) :
    (front ++ rest).takeWhile p = front ∧ (front ++ rest).dropWhile p = rest := by
  obtain ⟨htake, hdrop⟩ := takeWhile_append_refused hrest front
  have htaken : front.takeWhile p = front := List.takeWhile_eq_self_iff.mpr hfront
  have hdropped : front.dropWhile p = [] := List.dropWhile_eq_nil_iff.mpr hfront
  rw [htake, hdrop, htaken, hdropped]
  exact ⟨rfl, rfl⟩

theorem bne_of_not_mem {stop : Char} {cs : List Char} (h : stop ∉ cs) :
    ∀ c ∈ cs, (c != stop) = true := by
  intro c hc
  rw [bne_iff_ne]
  rintro rfl
  exact h hc

theorem mem_dropWhile {α : Type} {p : α → Bool} {x : α} {xs : List α} (hx : x ∈ xs)
    (hp : p x = false) : x ∈ xs.dropWhile p := by
  rw [← List.takeWhile_append_dropWhile (p := p) (l := xs), List.mem_append] at hx
  rcases hx with hx | hx
  · have htrue := List.mem_takeWhile_imp hx
    rw [hp] at htrue
    cases htrue
  · exact hx

/-! ## White space at the end -/

theorem trimEnd_prefix (cs : List Char) : trimEnd cs <+: cs := by
  rw [trimEnd, ← List.reverse_suffix, List.reverse_reverse]
  exact List.dropWhile_suffix _

theorem trimEnd_eq_self {cs : List Char} (h : ∀ c ∈ cs.getLast?, isBlank c = false) :
    trimEnd cs = cs := by
  rcases List.eq_nil_or_concat cs with rfl | ⟨front, last, rfl⟩
  · rfl
  · have hlast : isBlank last = false := h last (by simp)
    simp [trimEnd, hlast]

theorem trimEnd_append {cs gap : List Char} (h : ∀ c ∈ gap, isBlank c = true) :
    trimEnd (cs ++ gap) = trimEnd cs := by
  have hreverse : ∀ c ∈ gap.reverse, isBlank c = true := fun c hc => h c (List.mem_reverse.mp hc)
  rw [trimEnd, List.reverse_append, List.dropWhile_append_of_pos hreverse, trimEnd]

theorem exists_trimEnd_append (cs : List Char) :
    ∃ gap, cs = trimEnd cs ++ gap ∧ ∀ c ∈ gap, isBlank c = true := by
  refine ⟨(cs.reverse.takeWhile isBlank).reverse, ?_, fun c hc => ?_⟩
  · rw [trimEnd, ← List.reverse_append, List.takeWhile_append_dropWhile, List.reverse_reverse]
  · exact List.mem_takeWhile_imp (List.mem_reverse.mp hc)

theorem getLast?_trimEnd (cs : List Char) : ∀ c ∈ (trimEnd cs).getLast?, isBlank c = false := by
  intro c hc
  rw [trimEnd, List.getLast?_reverse] at hc
  have hhead := List.head?_dropWhile_not isBlank cs.reverse
  rw [Option.mem_def.mp hc] at hhead
  simpa using hhead

/-! ## White space at both ends -/

theorem mem_trim {c : Char} {cs : List Char} (hc : c ∈ cs) (hblank : isBlank c = false) :
    c ∈ trim cs := by
  have hfront := mem_dropWhile hc hblank
  rw [trim, trimEnd, List.mem_reverse]
  exact mem_dropWhile (List.mem_reverse.mpr hfront) hblank

/-- Only white space is lost in front of what trimming leaves and behind it. -/
theorem exists_trim_append (cs : List Char) :
    ∃ lead tail, cs = lead ++ (trim cs ++ tail) ∧ (∀ c ∈ lead, isBlank c = true) ∧
      ∀ c ∈ tail, isBlank c = true := by
  obtain ⟨tail, htail, hblank⟩ := exists_trimEnd_append (cs.dropWhile isBlank)
  refine ⟨cs.takeWhile isBlank, tail, ?_, fun c hc => List.mem_takeWhile_imp hc, hblank⟩
  rw [trim, ← htail, List.takeWhile_append_dropWhile]

/-- A word that neither begins nor ends with white space is what trimming leaves of it. -/
theorem trim_append {lead word tail : List Char} (hlead : ∀ c ∈ lead, isBlank c = true)
    (htail : ∀ c ∈ tail, isBlank c = true) (hne : word ≠ [])
    (hfirst : ∀ c ∈ word.head?, isBlank c = false) (hlast : ∀ c ∈ word.getLast?, isBlank c = false) :
    trim (lead ++ (word ++ tail)) = word := by
  have hstop : ∀ c ∈ (word ++ tail).head?, isBlank c = false := by
    rwa [List.head?_append_of_ne_nil _ hne]
  rw [trim, (takeWhile_append_stop hlead hstop).2, trimEnd_append htail, trimEnd_eq_self hlast]

end Text
end DesignTokens
