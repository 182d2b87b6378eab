import DesignTokens.Proofs.Places
import Mathlib.Data.List.TakeWhile

/-!
Positions and offsets of a text correspond to each other in order.

A character moves a position on by a column, or to the beginning of the next line if it is a newline.
`Position.behind` reads a text in this way, without looking at any table.  A line index does the
opposite: it looks up the beginning of the line in a table and counts characters from there.  The two
agree at every boundary of the text (`position_bytes`), which gives the order; and the table tells
where every line begins (`starts_getElem?`) and ends (`stop_of_line`), which gives the way back.
-/

namespace DesignTokens

open Text

/-! ## Reading forward -/

namespace Position

/-- The first position stands before the second one. -/
def Before (p q : Position) : Prop :=
  p.line < q.line ∨ p.line = q.line ∧ p.column < q.column

def next (p : Position) (c : Char) : Position :=
  if c = '\n' then ⟨p.line + 1, 0⟩ else ⟨p.line, p.column + 1⟩

/-- The position behind a text that begins at a position. -/
def behind (p : Position) (cs : List Char) : Position :=
  cs.foldl next p

theorem behind_append (p : Position) (xs ys : List Char) :
    p.behind (xs ++ ys) = (p.behind xs).behind ys :=
  List.foldl_append

theorem before_next (p : Position) (c : Char) : p.Before (p.next c) := by
  unfold next
  by_cases hc : c = '\n'
  · rw [if_pos hc]
    exact .inl (Nat.lt_succ_self _)
  · rw [if_neg hc]
    exact .inr ⟨rfl, Nat.lt_succ_self _⟩

theorem Before.trans {p q r : Position} (hpq : p.Before q) (hqr : q.Before r) : p.Before r := by
  unfold Before at *
  omega

theorem Before.not_before {p q : Position} (h : p.Before q) : ¬q.Before p := by
  unfold Before at *
  omega

theorem before_behind (p : Position) {cs : List Char} (h : cs ≠ []) : p.Before (p.behind cs) := by
  induction cs generalizing p with
  | nil => exact absurd rfl h
  | cons c cs ih =>
      by_cases hcs : cs = []
      · subst hcs
        exact p.before_next c
      · exact (p.before_next c).trans (ih (p.next c) hcs)

theorem line_behind (p : Position) (cs : List Char) :
    (p.behind cs).line = p.line + cs.count '\n' := by
  induction cs generalizing p with
  | nil => rfl
  | cons c cs ih =>
      show ((p.next c).behind cs).line = _
      rw [ih, List.count_cons]
      unfold next
      by_cases hc : c = '\n'
      · simp only [hc, if_true, beq_self_eq_true]
        omega
      · simp only [if_neg hc, beq_iff_eq]
        omega

theorem behind_of_not_mem (p : Position) {cs : List Char} (h : '\n' ∉ cs) :
    p.behind cs = ⟨p.line, p.column + cs.length⟩ := by
  induction cs generalizing p with
  | nil => rfl
  | cons c cs ih =>
      rw [List.mem_cons, not_or] at h
      have hc : ¬c = '\n' := fun heq => h.1 heq.symm
      show (p.next c).behind cs = _
      rw [ih _ h.2, next, if_neg hc, List.length_cons, Position.mk.injEq]
      exact ⟨rfl, by show p.column + 1 + cs.length = _; omega⟩

end Position

/-! ## Whole lines -/

namespace Text

/-- A line begins behind the text: it is empty or ends with a newline. -/
def BeginsLine (front : List Char) : Prop :=
  front = [] ∨ ∃ lead, front = lead ++ ['\n']

theorem BeginsLine.cons {c : Char} {front : List Char} (h : BeginsLine front)
    (hc : front = [] → c = '\n') : BeginsLine (c :: front) := by
  rcases h with hnil | ⟨lead, hlead⟩
  · exact .inr ⟨[], by rw [hc hnil, hnil]; rfl⟩
  · exact .inr ⟨c :: lead, by rw [hlead]; rfl⟩

theorem BeginsLine.behind {front : List Char} (h : BeginsLine front) :
    Position.behind ⟨0, 0⟩ front = ⟨front.count '\n', 0⟩ := by
  rcases h with hnil | ⟨lead, hlead⟩
  · rw [hnil]
    rfl
  · rw [hlead, Position.behind_append]
    show (⟨(Position.behind ⟨0, 0⟩ lead).line + 1, 0⟩ : Position) = _
    rw [Position.line_behind, List.count_append]
    simp

/-- A text is whole lines and a rest without newline. -/
theorem exists_beginsLine (cs : List Char) :
    ∃ front tail, cs = front ++ tail ∧ BeginsLine front ∧ '\n' ∉ tail := by
  induction cs with
  | nil => exact ⟨[], [], rfl, .inl rfl, List.not_mem_nil⟩
  | cons c cs ih =>
      obtain ⟨front, tail, hcs, hfront, htail⟩ := ih
      by_cases hopen : front = [] ∧ c ≠ '\n'
      · -- No line has ended yet, so the character belongs to the rest.
        refine ⟨[], c :: tail, by rw [hcs, hopen.1]; rfl, .inl rfl, ?_⟩
        rw [List.mem_cons, not_or]
        exact ⟨fun heq => hopen.2 heq.symm, htail⟩
      · refine ⟨c :: front, tail, by rw [hcs]; rfl, hfront.cons fun hnil => ?_, htail⟩
        by_contra hc
        exact hopen ⟨hnil, hc⟩

theorem exists_line {cs : List Char} {line : Nat} (h : line ≤ cs.count '\n') :
    ∃ front rest, cs = front ++ rest ∧ BeginsLine front ∧ front.count '\n' = line := by
  induction cs generalizing line with
  | nil => exact ⟨[], [], rfl, .inl rfl, (Nat.le_zero.mp h).symm⟩
  | cons c cs ih =>
      by_cases hline : line = 0
      · exact ⟨[], c :: cs, rfl, .inl rfl, hline.symm⟩
      · by_cases hc : c = '\n'
        · have hle : line - 1 ≤ cs.count '\n' := by
            rw [hc, List.count_cons_self] at h
            omega
          obtain ⟨front, rest, hcs, hfront, hcount⟩ := ih hle
          refine ⟨c :: front, rest, by rw [hcs]; rfl, hfront.cons fun _ => hc, ?_⟩
          rw [hc, List.count_cons_self]
          omega
        · rw [List.count_cons_of_ne hc] at h
          obtain ⟨front, rest, hcs, hfront, hcount⟩ := ih h
          refine ⟨c :: front, rest, by rw [hcs]; rfl, hfront.cons fun hnil => ?_, ?_⟩
          · rw [hnil] at hcount
            exact absurd hcount.symm hline
          · rw [List.count_cons_of_ne hc, hcount]

theorem ne_newline_of_mem {line : List Char} (h : '\n' ∉ line) :
    ∀ c ∈ line, decide (c ≠ '\n') = true := by
  intro c hc
  rw [decide_eq_true_eq]
  rintro rfl
  exact h hc

theorem length_splitOn (cs : List Char) : (cs.splitOn '\n').length = cs.count '\n' + 1 := by
  induction cs with
  | nil => rfl
  | cons c cs ih =>
      rw [List.splitOn_cons_eq_if_modifyHead, List.count_cons]
      split
      · rw [List.length_cons, ih]
      · rw [List.length_modifyHead, ih]

/-- The line that begins behind whole lines. -/
theorem BeginsLine.splitOn_getElem? {front : List Char} (h : BeginsLine front) (rest : List Char) :
    ((front ++ rest).splitOn '\n')[front.count '\n']? = some (rest.takeWhile (· ≠ '\n')) := by
  have hhead : (rest.splitOn '\n')[0]? = some (rest.takeWhile (· ≠ '\n')) := by
    induction rest with
    | nil => rfl
    | cons c rest ih =>
        rw [List.splitOn_cons_eq_if_modifyHead]
        by_cases hc : c = '\n'
        · simp [hc]
        · simp [hc, List.getElem?_modifyHead, ih]
  rcases h with hnil | ⟨lead, hlead⟩
  · rw [hnil]
    exact hhead
  · have hcount : front.count '\n' = (lead.splitOn '\n').length := by
      rw [hlead, List.count_append, length_splitOn]
      rfl
    rw [hcount, hlead, List.append_assoc, List.singleton_append, List.splitOn_append_cons_self,
      List.getElem?_append_right (Nat.le_refl _), Nat.sub_self]
    exact hhead

end Text

/-! ## The table of line beginnings -/

namespace LineIndex

theorem startsFrom_append (offset : Nat) (xs ys : List Char) :
    startsFrom offset (xs ++ ys) = startsFrom offset xs ++ startsFrom (offset + bytes xs) ys := by
  induction xs generalizing offset with
  | nil => simp [startsFrom, bytes]
  | cons c xs ih =>
      have hbytes : offset + bytes (c :: xs) = offset + c.utf8Size + bytes xs := by
        rw [bytes]
        omega
      rw [hbytes, List.cons_append, startsFrom, startsFrom]
      by_cases hc : c = '\n'
      · rw [if_pos hc, if_pos hc, ih, List.cons_append]
      · rw [if_neg hc, if_neg hc, ih]

theorem length_startsFrom (offset : Nat) (cs : List Char) :
    (startsFrom offset cs).length = cs.count '\n' := by
  induction cs generalizing offset with
  | nil => rfl
  | cons c cs ih =>
      rw [startsFrom]
      by_cases hc : c = '\n'
      · rw [if_pos hc, List.length_cons, ih, hc, List.count_cons_self]
      · rw [if_neg hc, ih, List.count_cons_of_ne hc]

/-- A line begins behind the offset at which the text begins, and not behind its end. -/
theorem bounds_of_mem_startsFrom {offset start : Nat} {cs : List Char}
    (h : start ∈ startsFrom offset cs) : offset < start ∧ start ≤ offset + bytes cs := by
  induction cs generalizing offset with
  | nil => exact absurd h List.not_mem_nil
  | cons c cs ih =>
      have hpos := c.utf8Size_pos
      rw [bytes]
      rw [startsFrom] at h
      by_cases hc : c = '\n'
      · rw [if_pos hc, List.mem_cons] at h
        rcases h with heq | hmem
        · omega
        · have hbounds := ih hmem
          omega
      · rw [if_neg hc] at h
        have hbounds := ih h
        omega

theorem pairwise_startsFrom (offset : Nat) (cs : List Char) :
    (startsFrom offset cs).Pairwise (· < ·) := by
  induction cs generalizing offset with
  | nil => exact .nil
  | cons c cs ih =>
      rw [startsFrom]
      by_cases hc : c = '\n'
      · rw [if_pos hc]
        exact .cons (fun start hstart => (bounds_of_mem_startsFrom hstart).1) (ih _)
      · rw [if_neg hc]
        exact ih _

theorem pairwise_starts (text : List Char) : (ofText text).starts.Pairwise (· < ·) :=
  .cons (fun _ hstart => (bounds_of_mem_startsFrom hstart).1) (pairwise_startsFrom 0 text)

theorem length_starts (text : List Char) : (ofText text).starts.length = text.count '\n' + 1 := by
  show (startsFrom 0 text).length + 1 = _
  rw [length_startsFrom]

/-- The beginning of a line stands in the table under the number of the line. -/
theorem starts_getElem? {front : List Char} (h : BeginsLine front) (rest : List Char) :
    (ofText (front ++ rest)).starts[front.count '\n']? = some (bytes front) := by
  show (0 :: startsFrom 0 (front ++ rest))[_]? = _
  rcases h with hnil | ⟨lead, hlead⟩
  · rw [hnil]
    rfl
  · have hcount : front.count '\n' = (startsFrom 0 lead).length + 1 := by
      rw [hlead, List.count_append, length_startsFrom]
      rfl
    rw [hcount, List.getElem?_cons_succ, hlead, List.append_assoc, List.singleton_append,
      startsFrom_append, List.getElem?_append_right (Nat.le_refl _), Nat.sub_self]
    simp [startsFrom, bytes]

/-- In a table in order, what is taken up to an offset is all that does not exceed it. -/
theorem takeWhile_eq_filter {starts : List Nat} (h : starts.Pairwise (· < ·)) (offset : Nat) :
    starts.takeWhile (· ≤ offset) = starts.filter (· ≤ offset) := by
  induction h with
  | nil => rfl
  | @cons start starts hlt _ ih =>
      rw [List.takeWhile_cons, List.filter_cons]
      by_cases hle : start ≤ offset
      · rw [if_pos (decide_eq_true hle), if_pos (decide_eq_true hle), ih]
      · rw [if_neg (by simpa using hle), if_neg (by simpa using hle)]
        symm
        rw [List.filter_eq_nil_iff]
        intro other hother
        have hother' := hlt other hother
        rw [decide_eq_true_eq]
        omega

/-- Up to a boundary lie the beginnings of the lines before it, and no others. -/
theorem takeWhile_starts (before rest : List Char) :
    (ofText (before ++ rest)).starts.takeWhile (· ≤ bytes before) = 0 :: startsFrom 0 before := by
  have hbefore : ∀ start ∈ 0 :: startsFrom 0 before, decide (start ≤ bytes before) = true := by
    intro start hstart
    rw [decide_eq_true_eq]
    rcases List.mem_cons.mp hstart with heq | hmem
    · omega
    · have hbounds := bounds_of_mem_startsFrom hmem
      omega
  have hrest : ∀ start ∈ startsFrom (0 + bytes before) rest,
      ¬decide (start ≤ bytes before) = true := by
    intro start hstart
    have hbounds := bounds_of_mem_startsFrom hstart
    rw [decide_eq_true_eq]
    omega
  rw [takeWhile_eq_filter (pairwise_starts _)]
  show (0 :: startsFrom 0 (before ++ rest)).filter _ = _
  rw [startsFrom_append, ← List.cons_append, List.filter_append, List.filter_eq_self.mpr hbefore,
    List.filter_eq_nil_iff.mpr hrest, List.append_nil]

/-! ## Positions -/

/-- The position of a boundary is the one that reading forward leads to. -/
theorem position_bytes (before rest : List Char) :
    (ofText (before ++ rest)).position (bytes before) = Position.behind ⟨0, 0⟩ before := by
  obtain ⟨front, tail, hsplit, hfront, htail⟩ := exists_beginsLine before
  have hoffset : min (bytes before) (bytes (ofText (before ++ rest)).text) = bytes before := by
    show min _ (bytes (before ++ rest)) = _
    rw [bytes_append]
    omega
  have hline : (0 :: startsFrom 0 before).length - 1 = front.count '\n' := by
    rw [List.length_cons, length_startsFrom, hsplit, List.count_append,
      List.count_eq_zero.mpr htail]
    omega
  have hstart : (ofText (before ++ rest)).starts.getD (front.count '\n') 0 = bytes front := by
    rw [hsplit, List.append_assoc, List.getD_eq_getElem?_getD, starts_getElem? hfront]
    rfl
  have hslice : Text.slice (bytes front) (bytes before) (before ++ rest) = some tail := by
    rw [hsplit, bytes_append]
    exact Reads.slice (reads_iff.mpr ⟨front, List.append_assoc _ _ _, rfl⟩)
  unfold position
  simp only [hoffset, takeWhile_starts, hline, hstart]
  show (⟨_, ((Text.slice (bytes front) (bytes before) (before ++ rest)).map List.length).getD 0⟩ :
    Position) = _
  rw [hslice, hsplit, Position.behind_append, hfront.behind, Position.behind_of_not_mem _ htail]
  simp

/-- The line that goes on behind a text ends in front of the next line, or else with the text. -/
theorem stop_of_line (front rest : List Char) :
    ((ofText (front ++ rest)).starts[front.count '\n' + 1]?.map (· - 1)).getD
        (bytes (front ++ rest)) = bytes (front ++ rest.takeWhile (· ≠ '\n')) := by
  by_cases hmem : '\n' ∈ rest
  · obtain ⟨line, more, rfl, hline⟩ := List.eq_append_cons_of_mem hmem
    have hcount : front.count '\n' + 1 = (front ++ line ++ ['\n']).count '\n' := by
      simp [List.count_eq_zero.mpr hline]
    have htext : front ++ (line ++ '\n' :: more) = front ++ line ++ ['\n'] ++ more := by simp
    have htake : (line ++ '\n' :: more).takeWhile (· ≠ '\n') = line := by
      rw [List.takeWhile_append_of_pos (ne_newline_of_mem hline)]
      simp
    rw [hcount, htake, htext, starts_getElem? (.inr ⟨_, rfl⟩), Option.map_some, Option.getD_some,
      bytes_append _ ['\n']]
    exact Nat.add_sub_cancel _ 1
  · have hlast : (ofText (front ++ rest)).starts.length ≤ front.count '\n' + 1 := by
      rw [length_starts, List.count_append, List.count_eq_zero.mpr hmem]
    rw [List.getElem?_eq_none hlast, List.takeWhile_eq_self_iff.mpr (ne_newline_of_mem hmem)]
    rfl

/-- The offset of a position in the line that begins behind whole lines. -/
theorem offset?_line {front : List Char} (h : BeginsLine front) (rest : List Char) (column : Nat) :
    (ofText (front ++ rest)).offset? ⟨front.count '\n', column⟩ =
      some (bytes (front ++ (rest.takeWhile (· ≠ '\n')).take column)) := by
  have htext : (ofText (front ++ rest)).text = front ++ rest := rfl
  have hslice : Text.slice (bytes front) (bytes (front ++ rest.takeWhile (· ≠ '\n')))
      (front ++ rest) = some (rest.takeWhile (· ≠ '\n')) := by
    have hreads : Reads (front ++ rest) (bytes front)
        (rest.takeWhile (· ≠ '\n') ++ rest.dropWhile (· ≠ '\n')) := by
      rw [List.takeWhile_append_dropWhile]
      exact reads_iff.mpr ⟨front, rfl, rfl⟩
    rw [bytes_append]
    exact hreads.slice
  unfold offset?
  simp only [htext, stop_of_line, starts_getElem? h, hslice, Option.bind_eq_bind, Option.bind_some]
  rw [bytes_append]
  rfl

theorem offset?_eq_none_iff (text : List Char) (p : Position) :
    (ofText text).offset? p = none ↔ text.count '\n' + 1 ≤ p.line := by
  constructor
  · intro hnone
    by_contra hline
    have hle : p.line ≤ text.count '\n' := by omega
    obtain ⟨front, rest, hsplit, hfront, hcount⟩ := exists_line hle
    have hsome := offset?_line hfront rest p.column
    rw [← hsplit, hcount] at hsome
    rw [hnone] at hsome
    cases hsome
  · intro hline
    rw [← length_starts] at hline
    unfold offset?
    rw [List.getElem?_eq_none hline]
    rfl

/-- The offset of a position is a boundary in its line, at the column or at the end of the line. -/
theorem position_of_offset? {text : List Char} {p : Position} {offset : Nat}
    (h : (ofText text).offset? p = some offset) :
    IsBoundary text offset ∧ ∃ line, (text.splitOn '\n')[p.line]? = some line ∧
      (ofText text).position offset = ⟨p.line, min p.column line.length⟩ := by
  have hline : p.line ≤ text.count '\n' := by
    by_contra hgt
    rw [(offset?_eq_none_iff text p).mpr (by omega)] at h
    cases h
  obtain ⟨front, rest, hsplit, hfront, hcount⟩ := exists_line hline
  have hoffset := offset?_line hfront rest p.column
  rw [← hsplit, hcount, h, Option.some.injEq] at hoffset
  -- What lies between the beginning of the line and the offset.
  let taken := (rest.takeWhile (· ≠ '\n')).take p.column
  obtain ⟨after, hafter⟩ : taken <+: rest :=
    (List.take_prefix _ _).trans (List.takeWhile_prefix _)
  have htext : text = (front ++ taken) ++ after := by
    rw [hsplit, List.append_assoc, hafter]
  have htaken : '\n' ∉ taken := by
    intro hmem
    have hne := List.mem_takeWhile_imp (List.mem_of_mem_take hmem)
    simp at hne
  refine ⟨⟨front ++ taken, after, htext, hoffset.symm⟩, rest.takeWhile (· ≠ '\n'), ?_, ?_⟩
  · rw [hsplit, ← hcount]
    exact hfront.splitOn_getElem? rest
  · rw [hoffset, htext, position_bytes, Position.behind_append, hfront.behind,
      Position.behind_of_not_mem _ htaken, hcount]
    simp [taken]

theorem offset?_position {text : List Char} {offset : Nat} (h : IsBoundary text offset) :
    (ofText text).offset? ((ofText text).position offset) = some offset := by
  obtain ⟨before, rest, htext, hbytes⟩ := h
  obtain ⟨front, tail, hsplit, hfront, htail⟩ := exists_beginsLine before
  have hposition : (ofText text).position offset = ⟨front.count '\n', tail.length⟩ := by
    rw [htext, ← hbytes, position_bytes, hsplit, Position.behind_append, hfront.behind,
      Position.behind_of_not_mem _ htail]
    simp
  have htaken : ((tail ++ rest).takeWhile (· ≠ '\n')).take tail.length = tail := by
    rw [List.takeWhile_append_of_pos (ne_newline_of_mem htail), List.take_left]
  rw [hposition, htext, hsplit, List.append_assoc, offset?_line hfront, htaken, ← hsplit, hbytes]

theorem position_before {text : List Char} {first second : Nat} (hfirst : IsBoundary text first)
    (hsecond : IsBoundary text second) (h : first < second) :
    ((ofText text).position first).Before ((ofText text).position second) := by
  obtain ⟨before, rest, htext, hbytes⟩ := hfirst
  obtain ⟨done, rest', htext', hbytes'⟩ := hsecond
  have hreads : Reads text first rest := reads_iff.mpr ⟨before, htext, hbytes⟩
  have hreads' : Reads text second rest' := reads_iff.mpr ⟨done, htext', hbytes'⟩
  obtain ⟨middle, hmiddle, hsum⟩ := hreads.between hreads' (Nat.le_of_lt h)
  have hne : middle ≠ [] := by
    intro hnil
    rw [hnil, bytes] at hsum
    omega
  have hdone : text = (before ++ middle) ++ rest' := by
    rw [htext, hmiddle, List.append_assoc]
  have hsecond : (ofText text).position second = Position.behind ⟨0, 0⟩ (before ++ middle) := by
    rw [← hsum, ← hbytes, ← bytes_append, hdone, position_bytes]
  have hfirst : (ofText text).position first = Position.behind ⟨0, 0⟩ before := by
    rw [htext, ← hbytes, position_bytes]
  rw [hfirst, hsecond, Position.behind_append]
  exact Position.before_behind _ hne

theorem position_past_end {text : List Char} {offset : Nat} (h : bytes text ≤ offset) :
    (ofText text).position offset = (ofText text).position (bytes text) := by
  have hmin : min offset (bytes (ofText text).text) = bytes text := Nat.min_eq_right h
  have hend : min (bytes text) (bytes (ofText text).text) = bytes text := Nat.min_self _
  unfold position
  rw [hmin, hend]

/-- Boundaries of a text and the positions in its lines correspond to each other in order.  Every
line has positions; a column past the end of the line stands for its end, and an offset past the end
of the text for the end of the text.  The table is in order, so the entries up to an offset are found
as its front part, which is never empty. -/
theorem positions_in_order (text : List Char) :
    (∀ offset, IsBoundary text offset →
      (ofText text).offset? ((ofText text).position offset) = some offset) ∧
    (∀ first second, IsBoundary text first → IsBoundary text second →
      (first < second ↔
        ((ofText text).position first).Before ((ofText text).position second))) ∧
    (∀ p, (ofText text).offset? p = none ↔ text.count '\n' + 1 ≤ p.line) ∧
    (∀ p offset, (ofText text).offset? p = some offset → IsBoundary text offset ∧
      ∃ line, (text.splitOn '\n')[p.line]? = some line ∧
        (ofText text).position offset = ⟨p.line, min p.column line.length⟩) ∧
    (ofText text).starts.Pairwise (· < ·) ∧
    (∀ offset, (ofText text).starts.takeWhile (· ≤ offset) =
        (ofText text).starts.filter (· ≤ offset) ∧
      0 < ((ofText text).starts.takeWhile (· ≤ offset)).length) ∧
    ∀ offset, bytes text ≤ offset →
      (ofText text).position offset = (ofText text).position (bytes text) := by
  refine ⟨fun _ h => offset?_position h, fun first second hfirst hsecond => ⟨?_, ?_⟩,
    offset?_eq_none_iff text, fun _ _ h => position_of_offset? h, pairwise_starts text,
    fun offset => ⟨takeWhile_eq_filter (pairwise_starts text) offset, ?_⟩,
    fun _ h => position_past_end h⟩
  · exact position_before hfirst hsecond
  · intro hbefore
    rcases Nat.lt_trichotomy first second with hlt | heq | hgt
    · exact hlt
    · rw [heq] at hbefore
      exact absurd hbefore hbefore.not_before
    · exact absurd hbefore (position_before hsecond hfirst hgt).not_before
  · -- The first line begins at zero, which no offset is in front of.
    show 0 < ((0 :: startsFrom 0 text).takeWhile _).length
    rw [List.takeWhile_cons, if_pos (decide_eq_true (Nat.zero_le offset)), List.length_cons]
    exact Nat.zero_lt_succ _

end LineIndex
end DesignTokens
