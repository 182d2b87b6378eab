import DesignTokens.Proofs.Block.Document
import DesignTokens.Proofs.Search

/-!
Searching the lines of a block document.

Two relations say where a search begins.  `Ahead` is exact: the offset stands behind a key or a list,
then come empty lists that were passed over, then the lines not yet visited.  `Behind` only says that
the lines not yet visited are still to come; it is enough for every key to be found, though perhaps
too early.
-/

namespace DesignTokens
namespace Block

open Text Locate

/-! ## Names -/

theorem isName_iff {word : String} :
    isName word = true ↔ word.toList ≠ [] ∧ ∀ c ∈ word.toList, c ∉ separators := by
  simp [isName]

theorem not_mem_of_isName {word : String} (h : isName word = true) {c : Char}
    (hc : c ∈ separators) : c ∉ word.toList :=
  fun hmem => (isName_iff.mp h).2 c hmem hc

theorem isKey_of_isName {word : String} (h : isName word = true) : IsKey word.toList := by
  refine ⟨(isName_iff.mp h).1, fun c hc => ?_⟩
  have hsep := (isName_iff.mp h).2 c hc
  simp only [separators, List.mem_cons, List.not_mem_nil, or_false, not_or] at hsep
  simp [isIndent, isQuote, hsep]

theorem isKey_platforms : IsKey Keyword.platforms.toList :=
  isKey_of_all (by decide) (by decide)

theorem isKey_type : IsKey Keyword.type.toList :=
  isKey_of_all (by decide) (by decide)

theorem isKey_value : IsKey Keyword.value.toList :=
  isKey_of_all (by decide) (by decide)

theorem isReserved_of_isName {word : String} (h : isName word = true) : isReserved word = false := by
  rw [isReserved, beq_eq_false_iff_ne]
  intro hhead
  exact not_mem_of_isName h (by decide) (List.mem_of_mem_head? hhead)

/-- A name is no keyword that begins with a dot. -/
theorem ne_of_isName {word keyword : String} (h : isName word = true)
    (hkeyword : isReserved keyword = true) : word ≠ keyword := by
  rintro rfl
  rw [isReserved_of_isName h] at hkeyword
  cases hkeyword

/-! ## Lines -/

/-- A line that begins with its key and ends with its newline. -/
structure Line.Regular (line : Line) : Prop where
  key : IsKey line.key.toList
  rest : '\n' ∉ line.rest

theorem bytes_spaces (n : Nat) : bytes (List.replicate n ' ') = n := by
  induction n with
  | zero => rfl
  | succ n ih =>
      rw [List.replicate_succ, bytes, ih, Nat.add_comm]
      rfl

theorem Line.keyInLine?_text {line : Line} (h : line.Regular) {k : List Char} (hk : IsKey k) :
    keyInLine? k line.text = if k = line.key.toList then some line.indent else none := by
  have hindent : ∀ c ∈ List.replicate line.indent ' ', isIndent c = true := by
    intro c hc
    rw [List.eq_of_mem_replicate hc]
    rfl
  rw [Line.text, keyInLine?_line hindent hk h.key, bytes_spaces]

theorem lines_text {line : Line} (h : line.Regular) (rest : List Char) :
    Text.lines (line.text ++ rest) = line.text :: Text.lines rest := by
  have hno : '\n' ∉ List.replicate line.indent ' ' ++ (line.key.toList ++ ':' :: line.rest) := by
    simp only [List.mem_append, List.mem_cons, List.mem_replicate, not_or]
    exact ⟨by simp, h.key.not_mem_newline, by decide, h.rest⟩
  have heq : line.text ++ rest =
      (List.replicate line.indent ' ' ++ (line.key.toList ++ ':' :: line.rest)) ++ '\n' :: rest := by
    simp [Line.text]
  rw [heq, lines_cons hno]
  simp [Line.text]

theorem lines_textOf {lines : List Line} (h : ∀ line ∈ lines, line.Regular) (rest : List Char) :
    Text.lines (textOf lines ++ rest) = lines.map Line.text ++ Text.lines rest := by
  induction lines with
  | nil => rfl
  | cons line lines ih =>
      rw [List.forall_mem_cons] at h
      rw [textOf, List.flatMap_cons, List.append_assoc, lines_text h.1, ← textOf, ih h.2,
        List.map_cons, List.cons_append]

theorem textOf_append (first second : List Line) :
    textOf (first ++ second) = textOf first ++ textOf second :=
  List.flatMap_append

theorem textOf_cons (line : Line) (lines : List Line) :
    textOf (line :: lines) = line.text ++ textOf lines :=
  List.flatMap_cons

theorem flatten_map_text (lines : List Line) : (lines.map Line.text).flatten = textOf lines :=
  (List.flatMap_def ..).symm

/-- A text of lines is empty or ends with a newline. -/
theorem textOf_ends (lines : List Line) : textOf lines = [] ∨ ∃ cs, textOf lines = cs ++ ['\n'] := by
  rcases List.eq_nil_or_concat lines with rfl | ⟨first, last, rfl⟩
  · exact .inl rfl
  · refine .inr ⟨textOf first ++ (List.replicate last.indent ' ' ++
      (last.key.toList ++ ':' :: last.rest)), ?_⟩
    rw [List.concat_eq_append, textOf_append, textOf_cons]
    simp [textOf, Line.text]

/-! ## Exact places -/

/-- The rest of a line behind a key or behind a list. -/
def IsTail (tail : List Char) : Prop :=
  ∃ c cs, (c = ':' ∨ c = ']') ∧ '\n' ∉ cs ∧ tail = c :: (cs ++ ['\n'])

theorem IsTail.lines {tail : List Char} (h : IsTail tail) (rest : List Char) :
    Text.lines (tail ++ rest) = tail :: Text.lines rest := by
  obtain ⟨c, cs, hc, hcs, rfl⟩ := h
  have hno : '\n' ∉ c :: cs := by
    rw [List.mem_cons, not_or]
    exact ⟨by rcases hc with rfl | rfl <;> decide, hcs⟩
  have heq : c :: (cs ++ ['\n']) ++ rest = (c :: cs) ++ '\n' :: rest := by simp
  rw [heq, lines_cons hno]
  simp

theorem IsTail.keyInLine? {tail : List Char} (h : IsTail tail) {k : List Char} (hk : IsKey k) :
    keyInLine? k tail = none := by
  obtain ⟨c, cs, hc, -, rfl⟩ := h
  exact keyInLine?_rest hc hk _

/-- A key is found on its line, behind lines with other keys. -/
theorem key_of_reads {text tail rest : List Char} {offset : Nat} {lines : List Line} {line : Line}
    (htail : tail = [] ∨ IsTail tail)
    (h : Reads text offset (tail ++ (textOf lines ++ (line.text ++ rest))))
    (hlines : ∀ l ∈ lines, l.Regular ∧ l.key ≠ line.key) (hline : line.Regular) :
    Locate.key text offset line.key =
        .ok (line.keyPlace (offset + bytes tail + bytes (textOf lines))) ∧
      Reads text (line.keyPlace (offset + bytes tail + bytes (textOf lines))).stop
        (':' :: (line.rest ++ '\n' :: rest)) := by
  constructor
  · have hbefore : ∀ l ∈ lines.map Line.text, keyInLine? line.key.toList l = none := by
      intro l hl
      obtain ⟨l, hmem, rfl⟩ := List.mem_map.mp hl
      obtain ⟨hregular, hne⟩ := hlines l hmem
      rw [Line.keyInLine?_text hregular hline.key, if_neg]
      exact fun heq => hne (String.toList_injective heq).symm
    have hhere : keyInLine? line.key.toList line.text = some line.indent := by
      rw [Line.keyInLine?_text hline hline.key, if_pos rfl]
    have hsearch : ∀ o, keyInLines? line.key.toList o
        (Text.lines (textOf lines ++ (line.text ++ rest))) =
          some (line.keyPlace (o + bytes (textOf lines))) := by
      intro o
      rw [lines_textOf (fun l hl => (hlines l hl).1), lines_text hline, keyInLines?_append hbefore,
        flatten_map_text, keyInLines?, hhere]
      rfl
    apply key_eq_ok h
    -- The rest of the line in which the search begins declares no key.
    rcases htail with rfl | htail
    · simpa [bytes] using hsearch offset
    · rw [htail.lines, keyInLines?, htail.keyInLine? hline.key]
      exact hsearch _
  · have hsplit : tail ++ (textOf lines ++ (line.text ++ rest)) =
        (tail ++ textOf lines ++ (List.replicate line.indent ' ' ++ line.key.toList)) ++
          (':' :: (line.rest ++ '\n' :: rest)) := by
      simp [Line.text]
    rw [hsplit] at h
    have hskip := h.skip
    have hoffset : offset + bytes (tail ++ textOf lines ++
        (List.replicate line.indent ' ' ++ line.key.toList)) =
        (line.keyPlace (offset + bytes tail + bytes (textOf lines))).stop := by
      simp only [bytes_append, bytes_spaces, Line.keyPlace]
      omega
    rwa [hoffset] at hskip

/-- The lines of empty lists with the given indentations. -/
def emptyLists (indents : List Nat) : List Line :=
  indents.map (platformsLine · [])

theorem regular_emptyLists {indents : List Nat} {line : Line} (h : line ∈ emptyLists indents) :
    line.Regular ∧ line.key = Keyword.platforms := by
  obtain ⟨indent, -, rfl⟩ := List.mem_map.mp h
  have hrest : '\n' ∉ flowList [] := by decide
  exact ⟨⟨isKey_platforms, hrest⟩, rfl⟩

/-- The offset stands behind a key or a list.  The rest of its line is followed by the empty lists
`pending` and then, at `start`, by `rest`. -/
structure Ahead (text : List Char) (offset : Nat) (pending : List Nat) (start : Nat)
    (rest : List Char) : Prop where
  here : ∃ tail, IsTail tail ∧ Reads text offset (tail ++ (textOf (emptyLists pending) ++ rest))
  there : Reads text start rest

theorem Reads.behind {text rest : List Char} {start : Nat} {lines : List Line}
    (h : Reads text start (textOf lines ++ rest)) : Reads text (behind start lines) rest :=
  h.skip

@[simp] theorem behind_nil (start : Nat) : behind start [] = start :=
  rfl

theorem behind_append (start : Nat) (first second : List Line) :
    behind start (first ++ second) = behind (behind start first) second := by
  rw [behind, behind, behind, textOf_append, bytes_append, Nat.add_assoc]

theorem behind_cons (start : Nat) (line : Line) (lines : List Line) :
    behind start (line :: lines) = behind (behind start [line]) lines :=
  behind_append start [line] lines

theorem le_behind (start : Nat) (lines : List Line) : start ≤ behind start lines :=
  Nat.le_add_right _ _

theorem Line.le_keyPlace_stop (line : Line) (start : Nat) (lines : List Line) :
    start ≤ (line.keyPlace (behind start lines)).stop := by
  simp only [Line.keyPlace, behind]
  omega

theorem behind_singleton (start : Nat) (line : Line) :
    behind start [line] = start + bytes line.text := by
  rw [behind, textOf_cons]
  simp [textOf]

theorem Reads.behind_line {text rest : List Char} {start : Nat} {line : Line}
    (h : Reads text start (line.text ++ rest)) : Reads text (Block.behind start [line]) rest := by
  rw [behind_singleton]
  exact h.skip

/-- Behind a key, the rest of its line is passed. -/
theorem Ahead.of_colon {text cs rest : List Char} {offset start : Nat} (hcs : '\n' ∉ cs)
    (h : Reads text offset (':' :: (cs ++ '\n' :: rest))) (hstart : Reads text start rest) :
    Ahead text offset [] start rest :=
  ⟨⟨':' :: (cs ++ ['\n']), ⟨':', cs, .inl rfl, hcs, rfl⟩, by simpa [emptyLists, textOf] using h⟩,
    hstart⟩

/-- Behind a list, the rest of its line is passed. -/
theorem Ahead.of_bracket {text rest : List Char} {offset start : Nat}
    (h : Reads text offset (']' :: '\n' :: rest)) (hstart : Reads text start rest) :
    Ahead text offset [] start rest :=
  ⟨⟨[']', '\n'], ⟨']', [], .inr rfl, by simp, rfl⟩, by simpa [emptyLists, textOf] using h⟩, hstart⟩

/-- An empty list is passed over. -/
theorem Ahead.pass {text rest : List Char} {offset start indent : Nat} {pending : List Nat}
    (h : Ahead text offset pending start ((platformsLine indent []).text ++ rest)) :
    Ahead text offset (pending ++ [indent]) (behind start [platformsLine indent []]) rest := by
  obtain ⟨⟨tail, htail, hreads⟩, hstart⟩ := h
  refine ⟨⟨tail, htail, ?_⟩, ?_⟩
  · have heq : emptyLists (pending ++ [indent]) =
        emptyLists pending ++ [platformsLine indent []] := by
      simp [emptyLists]
    rw [heq, textOf_append, textOf_cons]
    simpa [textOf] using hreads
  · exact Reads.behind_line hstart

/-- A key is found on the line where it is written. -/
theorem Ahead.key {text rest : List Char} {offset start : Nat} {pending : List Nat}
    {lines : List Line} {line : Line}
    (h : Ahead text offset pending start (textOf lines ++ (line.text ++ rest)))
    (hpending : pending = [] ∨ line.key ≠ Keyword.platforms)
    (hlines : ∀ l ∈ lines, l.Regular ∧ l.key ≠ line.key) (hline : line.Regular) :
    Locate.key text offset line.key = .ok (line.keyPlace (behind start lines)) ∧
      Reads text (line.keyPlace (behind start lines)).stop (':' :: (line.rest ++ '\n' :: rest)) := by
  obtain ⟨⟨tail, htail, hreads⟩, hstart⟩ := h
  have hall : ∀ l ∈ emptyLists pending ++ lines, l.Regular ∧ l.key ≠ line.key := by
    intro l hl
    rcases List.mem_append.mp hl with hl | hl
    · rcases hpending with rfl | hne
      · cases hl
      · obtain ⟨hregular, hkey⟩ := regular_emptyLists hl
        exact ⟨hregular, fun heq => hne (heq ▸ hkey)⟩
    · exact hlines l hl
  have hreads' : Reads text offset (tail ++ (textOf (emptyLists pending ++ lines) ++
      (line.text ++ rest))) := by
    rw [textOf_append]
    simpa using hreads
  have hplace : offset + bytes tail + bytes (textOf (emptyLists pending ++ lines)) =
      behind start lines := by
    have hskip : Reads text (offset + bytes tail + bytes (textOf (emptyLists pending)))
        (textOf lines ++ (line.text ++ rest)) := hreads.skip.skip
    rw [textOf_append, bytes_append, ← Nat.add_assoc, Reads.offset_eq hskip hstart, behind]
  have hfound := key_of_reads (.inr htail) hreads' hall hline
  rwa [hplace] at hfound

/-! ## Bounds -/

/-- The lines `rest` begin at `start`, and the offset stands before them. -/
structure Behind (text : List Char) (offset start : Nat) (rest : List Char) : Prop where
  le : offset ≤ start
  reads : ∃ after, Reads text offset after
  starts : ∃ done, text = done ++ rest ∧ bytes done = start ∧ (done = [] ∨ ∃ cs, done = cs ++ ['\n'])

theorem ends_append {first second : List Char} (hfirst : first = [] ∨ ∃ cs, first = cs ++ ['\n'])
    (hsecond : second = [] ∨ ∃ cs, second = cs ++ ['\n']) :
    first ++ second = [] ∨ ∃ cs, first ++ second = cs ++ ['\n'] := by
  rcases hsecond with rfl | ⟨cs, rfl⟩
  · rwa [List.append_nil]
  · exact .inr ⟨first ++ cs, by rw [List.append_assoc]⟩

theorem Behind.forward {text rest : List Char} {offset start : Nat} {lines : List Line}
    (h : Behind text offset start (textOf lines ++ rest)) :
    Behind text offset (behind start lines) rest := by
  obtain ⟨hle, hreads, done, rfl, rfl, hends⟩ := h
  refine ⟨by rw [behind]; omega, hreads, done ++ textOf lines, by rw [List.append_assoc],
    bytes_append _ _, ends_append hends (textOf_ends lines)⟩

theorem Behind.forward_line {text rest : List Char} {offset start : Nat} {line : Line}
    (h : Behind text offset start (line.text ++ rest)) :
    Behind text offset (behind start [line]) rest :=
  Behind.forward (by simpa [textOf] using h)

theorem Behind.move {text rest : List Char} {offset offset' start : Nat}
    (h : Behind text offset start rest) (hle : offset' ≤ start)
    (hreads : ∃ after, Reads text offset' after) : Behind text offset' start rest :=
  ⟨hle, hreads, h.starts⟩

theorem Ahead.toBehind {text rest : List Char} {offset start : Nat} {pending : List Nat}
    (h : Ahead text offset pending start rest) : Behind text offset start rest := by
  obtain ⟨⟨tail, ⟨c, cs, -, -, rfl⟩, hreads⟩, hstart⟩ := h
  have hskip := hreads.skip.skip
  have hoffset := Reads.offset_eq hskip hstart
  obtain ⟨before, htext, rfl⟩ := reads_iff.mp hreads
  refine ⟨by omega, ⟨_, hreads⟩, before ++ (c :: (cs ++ ['\n'])) ++ textOf (emptyLists pending), ?_,
    ?_, ?_⟩
  · rw [htext]
    simp
  · rw [← hoffset]
    simp only [bytes_append]
  · exact ends_append (.inr ⟨before ++ c :: cs, by simp⟩) (textOf_ends _)

/-- From the offset on, the text goes to the end of a line and then on with the lines. -/
theorem Behind.split {text rest : List Char} {offset start : Nat}
    (h : Behind text offset start rest) : ∃ middle, Reads text offset (middle ++ rest) ∧
      offset + bytes middle = start ∧ (middle = [] ∨ ∃ cs, middle = cs ++ ['\n']) := by
  obtain ⟨hle, ⟨after, hreads⟩, done, htext, rfl, hends⟩ := h
  obtain ⟨middle, rfl, hmiddle⟩ := hreads.between (reads_iff.mpr ⟨done, htext, rfl⟩) hle
  refine ⟨middle, hreads, hmiddle, ?_⟩
  -- What is between ends as what is before the lines does.
  obtain ⟨before, htext', -⟩ := reads_iff.mp hreads
  have hdone : done = before ++ middle := by
    rw [htext', ← List.append_assoc] at htext
    exact (List.append_cancel_right htext).symm
  rcases List.eq_nil_or_concat middle with rfl | ⟨cs, c, rfl⟩
  · exact .inl rfl
  · rcases hends with hnil | ⟨ds, hds⟩
    · simp [hdone] at hnil
    · rw [hdone, List.concat_eq_append, ← List.append_assoc] at hds
      obtain ⟨-, hc⟩ := List.append_inj' hds rfl
      exact .inr ⟨cs, by rw [List.concat_eq_append, hc]⟩

/-- A key that is still to come is found, and not behind the line where it is written. -/
theorem Behind.key {text rest : List Char} {offset start : Nat} {lines : List Line} {line : Line}
    (h : Behind text offset start (textOf lines ++ (line.text ++ rest)))
    (hlines : ∀ l ∈ lines, l.Regular) (hline : line.Regular) :
    ∃ span, Locate.key text offset line.key = .ok span ∧ offset ≤ span.stop ∧
      span.stop ≤ (line.keyPlace (behind start lines)).stop ∧
      ∃ after, Reads text span.stop after := by
  obtain ⟨middle, hreads, hstart, hends⟩ := h.split
  have hhere : keyInLine? line.key.toList line.text = some line.indent := by
    rw [Line.keyInLine?_text hline hline.key, if_pos rfl]
  have hsplit : Text.lines (middle ++ (textOf lines ++ (line.text ++ rest))) =
      (Text.lines middle ++ lines.map Line.text) ++ line.text :: Text.lines rest := by
    rcases hends with rfl | ⟨cs, rfl⟩
    · rw [List.nil_append, lines_textOf hlines, lines_text hline]
      rfl
    · rw [List.append_assoc, List.singleton_append, lines_append_newline, lines_textOf hlines,
        lines_text hline, List.append_assoc]
  obtain ⟨before, after, hflat, hkey, hle⟩ := exists_keyInLines?_le hhere offset
    (Text.lines middle ++ lines.map Line.text) (Text.lines rest)
  rw [← hsplit] at hkey hflat
  rw [flatten_lines] at hflat
  refine ⟨_, key_eq_ok hreads hkey, by simp only; omega, ?_, ⟨after, ?_⟩⟩
  · rw [List.flatten_append, flatten_lines, flatten_map_text, bytes_append] at hle
    simp only [Line.keyPlace, behind]
    omega
  · rw [hflat, ← List.append_assoc] at hreads
    have hskip := hreads.skip
    rwa [bytes_append, ← Nat.add_assoc] at hskip

theorem Line.keyPlace_stop_le (line : Line) (start : Nat) :
    (line.keyPlace start).stop ≤ behind start [line] := by
  rw [behind_singleton]
  simp only [Line.keyPlace, Line.text, bytes_append, bytes_spaces]
  omega

end Block
end DesignTokens
