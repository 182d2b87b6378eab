import DesignTokens.Locate
import DesignTokens.Proofs.TextCuts
import Mathlib.Data.List.Infix

/-!
Searching a text forward.

An offset is used by what it cuts a text into, `before` and `rest`.  A search for a key goes over the
lines of the rest; a search for a word gives its first occurrence.  Both are stated twice: where the
hit is exact, and as a bound that holds of every hit because the place looked for is still ahead.
-/

namespace DesignTokens
namespace Text

theorem dropBytes_eq_some_iff {n : Nat} {text rest : List Char} :
    dropBytes n text = some rest ↔ ∃ before, text = before ++ rest ∧ bytes before = n := by
  constructor
  · intro h
    induction n, text using dropBytes.induct with
    | case1 cs =>
        rw [dropBytes] at h
        cases h
        exact ⟨[], rfl, rfl⟩
    | case2 n => simp [dropBytes] at h
    | case3 n c cs hle ih =>
        rw [dropBytes, if_pos hle] at h
        obtain ⟨before, hcs, hbytes⟩ := ih h
        refine ⟨c :: before, by rw [hcs, List.cons_append], ?_⟩
        rw [bytes]
        omega
    | case4 n c cs hle => simp [dropBytes, hle] at h
  · rintro ⟨before, rfl, rfl⟩
    exact dropBytes_bytes_append before rest

/-- The text goes on with `rest` at the offset. -/
def Reads (text : List Char) (offset : Nat) (rest : List Char) : Prop :=
  dropBytes offset text = some rest

theorem reads_iff {text : List Char} {offset : Nat} {rest : List Char} :
    Reads text offset rest ↔ ∃ before, text = before ++ rest ∧ bytes before = offset :=
  dropBytes_eq_some_iff

theorem Reads.skip {text : List Char} {offset : Nat} {first rest : List Char}
    (h : Reads text offset (first ++ rest)) : Reads text (offset + bytes first) rest := by
  obtain ⟨before, rfl, rfl⟩ := reads_iff.mp h
  exact reads_iff.mpr ⟨before ++ first, by rw [List.append_assoc], bytes_append before first⟩

theorem Reads.offset_eq {text rest : List Char} {m n : Nat} (hm : Reads text m rest)
    (hn : Reads text n rest) : m = n := by
  obtain ⟨first, htext, rfl⟩ := reads_iff.mp hm
  obtain ⟨second, htext', rfl⟩ := reads_iff.mp hn
  rw [List.append_cancel_right (htext.symm.trans htext')]

theorem takeBytes_bytes_append (xs ys : List Char) : takeBytes (bytes xs) (xs ++ ys) = some xs := by
  induction xs with
  | nil => cases ys <;> rfl
  | cons c cs ih =>
      have hpos : 0 < c.utf8Size := c.utf8Size_pos
      obtain ⟨k, hk⟩ : ∃ k, c.utf8Size + bytes cs = k + 1 := ⟨c.utf8Size + bytes cs - 1, by omega⟩
      have hrest : k + 1 - c.utf8Size = bytes cs := by omega
      have hle : c.utf8Size ≤ k + 1 := by omega
      simp [bytes, hk, takeBytes, hle, hrest, ih]

theorem Reads.slice {text : List Char} {offset : Nat} {first rest : List Char}
    (h : Reads text offset (first ++ rest)) :
    slice offset (offset + bytes first) text = some first := by
  have hdrop : dropBytes offset text = some (first ++ rest) := h
  rw [Text.slice, if_pos (Nat.le_add_right _ _), hdrop, Option.bind_some, Nat.add_sub_cancel_left,
    takeBytes_bytes_append]

theorem bytes_pos {cs : List Char} (h : cs ≠ []) : 0 < bytes cs := by
  cases cs with
  | nil => exact absurd rfl h
  | cons c cs =>
      have hpos := c.utf8Size_pos
      rw [bytes]
      omega

/-- What lies between two places. -/
theorem Reads.between {text after rest : List Char} {offset target : Nat}
    (hoffset : Reads text offset after) (htarget : Reads text target rest) (hle : offset ≤ target) :
    ∃ middle, after = middle ++ rest ∧ offset + bytes middle = target := by
  obtain ⟨before, htext, rfl⟩ := reads_iff.mp hoffset
  obtain ⟨done, htext', rfl⟩ := reads_iff.mp htarget
  rcases List.append_eq_append_iff.mp (htext.symm.trans htext') with
    ⟨middle, rfl, rfl⟩ | ⟨middle, rfl, rfl⟩
  · exact ⟨middle, rfl, (bytes_append _ _).symm⟩
  · -- The first place is not behind the second, so nothing lies between.
    have hnil : middle = [] := by
      by_contra hne
      have hpos := bytes_pos hne
      rw [bytes_append] at hle
      omega
    subst hnil
    exact ⟨[], rfl, by simp [bytes]⟩

/-! ## Lines -/

theorem lines_append_newline (cs : List Char) (rest : List Char) :
    lines (cs ++ '\n' :: rest) = lines (cs ++ ['\n']) ++ lines rest := by
  induction cs with
  | nil => simp [lines]
  | cons c cs ih =>
      simp only [List.cons_append, lines]
      by_cases hc : c = '\n'
      · rw [if_pos hc, if_pos hc, ih, List.cons_append]
      · rw [if_neg hc, if_neg hc, ih]
        cases hlines : lines (cs ++ ['\n']) with
        | nil =>
            have hflat := flatten_lines (cs ++ ['\n'])
            simp [hlines] at hflat
        | cons l ls => rfl

/-- A text without a newline, up to the newline behind it, is one line. -/
theorem lines_line {cs : List Char} (h : '\n' ∉ cs) : lines (cs ++ ['\n']) = [cs ++ ['\n']] := by
  induction cs with
  | nil => rfl
  | cons c cs ih =>
      rw [List.mem_cons, not_or] at h
      have hc : ¬c = '\n' := fun heq => h.1 heq.symm
      rw [List.cons_append, lines, if_neg hc, ih h.2]

theorem lines_cons {cs : List Char} (h : '\n' ∉ cs) (rest : List Char) :
    lines (cs ++ '\n' :: rest) = (cs ++ ['\n']) :: lines rest := by
  rw [lines_append_newline, lines_line h, List.singleton_append]

/-! ## Words -/

theorem find_skip {word cs : List Char} {c : Char} (h : ¬word <+: c :: cs) :
    find word (c :: cs) = (find word cs).map (· + c.utf8Size) := by
  rw [find, if_neg]
  rwa [List.isPrefixOf_iff_prefix]

theorem find_of_prefix {word rest : List Char} (hword : word ≠ []) (h : word <+: rest) :
    find word rest = some 0 := by
  cases rest with
  | nil => exact absurd (List.prefix_nil.mp h) hword
  | cons c cs => rw [find, if_pos (List.isPrefixOf_iff_prefix.mpr h)]

/-- A word does not begin a text whose first part it neither occurs in nor goes beyond. -/
theorem not_prefix_append {word gap : List Char} (hne : gap ≠ [])
    (hlast : ∀ c ∈ gap.getLast?, c ∉ word) (hgap : ¬word <:+: gap) (rest : List Char) :
    ¬word <+: gap ++ rest := by
  intro hprefix
  rcases List.prefix_or_prefix_of_prefix hprefix (List.prefix_append gap rest) with h | h
  · exact hgap h.isInfix
  · have hmem : gap.getLast hne ∈ word := h.subset (List.getLast_mem _)
    exact hlast _ (List.getLast?_eq_getLast_of_ne_nil hne) hmem

/-- A word is found behind a text in which it does not occur, if it cannot begin in that text and end
behind it. -/
theorem find_append {word gap : List Char} (hword : word ≠ []) (hlast : ∀ c ∈ gap.getLast?, c ∉ word)
    (hgap : ¬word <:+: gap) (rest : List Char) :
    find word (gap ++ (word ++ rest)) = some (bytes gap) := by
  induction gap with
  | nil => exact find_of_prefix hword (List.prefix_append word rest)
  | cons c cs ih =>
      have hnot : ¬word <+: c :: (cs ++ (word ++ rest)) :=
        not_prefix_append (List.cons_ne_nil c cs) hlast hgap (word ++ rest)
      have hlast' : ∀ e ∈ cs.getLast?, e ∉ word := by
        intro e he
        cases cs with
        | nil => cases he
        | cons d ds => exact hlast e (by rw [List.getLast?_cons_cons]; exact he)
      have hgap' : ¬word <:+: cs := fun h => hgap (List.infix_cons h)
      rw [List.cons_append, find_skip hnot, ih hlast' hgap', Option.map_some, bytes, Nat.add_comm]

/-- The first occurrence of a word is not behind any other one. -/
theorem exists_find_le {word : List Char} (hword : word ≠ []) (gap rest : List Char) :
    ∃ before after, gap ++ (word ++ rest) = before ++ (word ++ after) ∧
      find word (gap ++ (word ++ rest)) = some (bytes before) ∧ bytes before ≤ bytes gap := by
  induction gap with
  | nil => exact ⟨[], rest, rfl, find_of_prefix hword (List.prefix_append word rest), Nat.le_refl _⟩
  | cons c cs ih =>
      by_cases hprefix : word <+: c :: (cs ++ (word ++ rest))
      · obtain ⟨after, hafter⟩ := hprefix
        exact ⟨[], after, hafter.symm, find_of_prefix hword ⟨after, hafter⟩, Nat.zero_le _⟩
      · obtain ⟨before, after, heq, hfind, hle⟩ := ih
        refine ⟨c :: before, after, by rw [List.cons_append, heq, List.cons_append], ?_, ?_⟩
        · rw [List.cons_append, find_skip hprefix, hfind, Option.map_some, bytes, Nat.add_comm]
        · rw [bytes, bytes]
          omega

/-- A word that occurs in the gap is found there. -/
theorem exists_find_lt {word gap : List Char} (hword : word ≠ []) (hgap : word <:+: gap)
    (rest : List Char) : ∃ n, find word (gap ++ rest) = some n ∧ n < bytes gap := by
  obtain ⟨first, last, rfl⟩ := hgap
  obtain ⟨before, after, -, hfind, hle⟩ := exists_find_le hword first (last ++ rest)
  refine ⟨bytes before, by simpa using hfind, ?_⟩
  have hpos := bytes_pos hword
  simp only [bytes_append]
  omega

end Text
/-! ## Keys -/

namespace Locate

open Text

/-- A text that can be searched as a key and stands for itself: none of its characters can be taken
for the white space, quotes and signs around a key. -/
structure IsKey (key : List Char) : Prop where
  ne_nil : key ≠ []
  plain : ∀ c ∈ key, isIndent c = false ∧ isQuote c = false ∧ c ≠ ':' ∧ c ≠ ']' ∧ c ≠ '\n'

theorem isKey_of_all {key : List Char} (hne : key ≠ [])
    (h : key.all (fun c => !isIndent c && !isQuote c && c != ':' && c != ']' && c != '\n') = true) :
    IsKey key := by
  refine ⟨hne, fun c hc => ?_⟩
  have hplain := List.all_eq_true.mp h c hc
  simpa [and_assoc] using hplain

theorem IsKey.not_mem_colon {key : List Char} (h : IsKey key) : ':' ∉ key :=
  fun hmem => (h.plain _ hmem).2.2.1 rfl

theorem IsKey.not_mem_newline {key : List Char} (h : IsKey key) : '\n' ∉ key :=
  fun hmem => (h.plain _ hmem).2.2.2.2 rfl

theorem splitQuote_of_not_quote {rest : List Char} (h : ∀ c ∈ rest.head?, isQuote c = false) :
    splitQuote rest = ([], rest) := by
  cases rest with
  | nil => rfl
  | cons c cs =>
      have hc : isQuote c = false := h c rfl
      simp [splitQuote, hc]

theorem prefix_colon_iff {k key rest : List Char} (hk : ':' ∉ k) (hkey : ':' ∉ key) :
    k ++ [':'] <+: key ++ ':' :: rest ↔ k = key := by
  constructor
  · rintro ⟨after, hafter⟩
    rw [List.append_assoc, List.singleton_append] at hafter
    rcases List.append_eq_append_iff.mp hafter with ⟨as, hkey', has⟩ | ⟨as, hk', has⟩
    · cases as with
      | nil => rw [hkey', List.append_nil]
      | cons c cs =>
          cases has
          exact absurd (by simp [hkey']) hkey
    · cases as with
      | nil => rw [hk', List.append_nil]
      | cons c cs =>
          cases has
          exact absurd (by simp [hk']) hk
  · rintro rfl
    exact ⟨rest, by simp⟩

/-- A line that declares a key declares no other one. -/
theorem keyInLine?_line {indent k key : List Char} (hindent : ∀ c ∈ indent, isIndent c = true)
    (hk : IsKey k) (hkey : IsKey key) (rest : List Char) :
    keyInLine? k (indent ++ (key ++ ':' :: rest)) =
      if k = key then some (bytes indent) else none := by
  obtain ⟨first, more, rfl⟩ := List.exists_cons_of_ne_nil hkey.ne_nil
  obtain ⟨hnotIndent, hnotQuote, -⟩ := hkey.plain first List.mem_cons_self
  have hhead : ∀ c ∈ (first :: more ++ ':' :: rest).head?, c = first := by simp
  obtain ⟨htake, hdrop⟩ := takeWhile_append_stop hindent
    (fun c hc => by rw [hhead c hc]; exact hnotIndent)
  have hsplit := splitQuote_of_not_quote (fun c hc => by rw [hhead c hc]; exact hnotQuote)
  rw [keyInLine?, htake, hdrop, hsplit]
  simp only [List.append_nil, List.isPrefixOf_iff_prefix,
    prefix_colon_iff hk.not_mem_colon hkey.not_mem_colon]
  simp [bytes]

/-- The rest of a line behind a key, or behind a list, declares nothing. -/
theorem keyInLine?_rest {c : Char} (hc : c = ':' ∨ c = ']') {k : List Char} (hk : IsKey k)
    (cs : List Char) : keyInLine? k (c :: cs) = none := by
  have hplain : isIndent c = false ∧ isQuote c = false := by
    rcases hc with rfl | rfl <;> decide
  obtain ⟨first, more, rfl⟩ := List.exists_cons_of_ne_nil hk.ne_nil
  have hne : first ≠ c := by
    obtain ⟨-, -, hcolon, hbracket, -⟩ := hk.plain first List.mem_cons_self
    rcases hc with rfl | rfl
    · exact hcolon
    · exact hbracket
  simp [keyInLine?, splitQuote, hplain.1, hplain.2, hne]

theorem keyInLines?_append {k : List Char} {lines : List (List Char)}
    (h : ∀ line ∈ lines, keyInLine? k line = none) (offset : Nat) (rest : List (List Char)) :
    keyInLines? k offset (lines ++ rest) = keyInLines? k (offset + bytes lines.flatten) rest := by
  induction lines generalizing offset with
  | nil => simp [bytes]
  | cons line lines ih =>
      rw [List.forall_mem_cons] at h
      simp only [List.cons_append, keyInLines?, h.1, ih h.2, List.flatten_cons, bytes_append,
        Nat.add_assoc]

theorem splitQuote_append (cs : List Char) : (splitQuote cs).1 ++ (splitQuote cs).2 = cs := by
  cases cs with
  | nil => rfl
  | cons c cs =>
      rw [splitQuote]
      split <;> rfl

/-- Whether the character can stand right behind a key: the colon, or the quote that closes the
key. -/
def endsKey (c : Char) : Bool :=
  c == ':' || isQuote c

theorem exists_endsKey (cs after : List Char) :
    ∃ c rest, (splitQuote cs).1 ++ ':' :: after = c :: rest ∧ endsKey c = true := by
  cases cs with
  | nil => exact ⟨':', after, rfl, rfl⟩
  | cons c cs =>
      rw [splitQuote]
      split
      · next hquote => exact ⟨c, ':' :: after, rfl, by rw [endsKey, hquote, Bool.or_true]⟩
      · exact ⟨':', after, rfl, rfl⟩

/-- A line that declares a key spells it, and goes on with what ends a key. -/
theorem exists_end_of_keyInLine? {k line : List Char} {n : Nat} (h : keyInLine? k line = some n) :
    ∃ before c after, line = before ++ (k ++ c :: after) ∧ bytes before = n ∧
      endsKey c = true := by
  simp only [keyInLine?, Option.ite_none_right_eq_some, Option.some.injEq,
    List.isPrefixOf_iff_prefix] at h
  obtain ⟨⟨after, hafter⟩, rfl⟩ := h
  obtain ⟨c, rest, hend, hc⟩ := exists_endsKey (line.dropWhile isIndent) after
  refine ⟨line.takeWhile isIndent ++ (splitQuote (line.dropWhile isIndent)).1, c, rest, ?_,
    bytes_append _ _, hc⟩
  calc line
      = line.takeWhile isIndent ++ line.dropWhile isIndent := List.takeWhile_append_dropWhile.symm
    _ = line.takeWhile isIndent ++ ((splitQuote (line.dropWhile isIndent)).1 ++
          (splitQuote (line.dropWhile isIndent)).2) := by rw [splitQuote_append]
    _ = _ := by rw [← hafter, ← hend]; simp only [List.append_assoc, List.singleton_append]

theorem exists_of_keyInLine? {k line : List Char} {n : Nat} (h : keyInLine? k line = some n) :
    ∃ before after, line = before ++ (k ++ after) ∧ bytes before = n := by
  obtain ⟨before, c, after, hline, hbytes, -⟩ := exists_end_of_keyInLine? h
  exact ⟨before, c :: after, hline, hbytes⟩

/-- The first line that declares a key is not behind any other one. -/
theorem exists_keyInLines?_le {k line : List Char} {n : Nat} (h : keyInLine? k line = some n)
    (offset : Nat) (lines rest : List (List Char)) :
    ∃ before after, (lines ++ line :: rest).flatten = before ++ (k ++ after) ∧
      keyInLines? k offset (lines ++ line :: rest) =
        some ⟨offset + bytes before, offset + bytes before + bytes k⟩ ∧
      bytes before ≤ bytes lines.flatten + n := by
  induction lines generalizing offset with
  | nil =>
      obtain ⟨before, after, rfl, rfl⟩ := exists_of_keyInLine? h
      refine ⟨before, after ++ rest.flatten, by simp, ?_, by simp [bytes]⟩
      simp only [List.nil_append, keyInLines?, h]
  | cons other lines ih =>
      cases hother : keyInLine? k other with
      | some m =>
          obtain ⟨before, after, rfl, rfl⟩ := exists_of_keyInLine? hother
          refine ⟨before, after ++ (lines ++ line :: rest).flatten, by simp, ?_, ?_⟩
          · simp only [List.cons_append, keyInLines?, hother]
          · simp only [List.flatten_cons, bytes_append]
            omega
      | none =>
          obtain ⟨before, after, hflat, hkey, hle⟩ := ih (offset + bytes other)
          refine ⟨other ++ before, after, ?_, ?_, ?_⟩
          · rw [List.cons_append, List.flatten_cons, hflat, List.append_assoc]
          · simp only [List.cons_append, keyInLines?, hother, hkey, bytes_append, Nat.add_assoc]
          · simp only [List.flatten_cons, bytes_append]
            omega

theorem key_eq_ok {text : List Char} {offset : Nat} {rest : List Char} (h : Reads text offset rest)
    {key : String} {span : Span} (hkey : keyInLines? key.toList offset (lines rest) = some span) :
    Locate.key text offset key = .ok span := by
  have hdrop : dropBytes offset text = some rest := h
  simp only [Locate.key, hdrop, hkey]

theorem literal?_eq {text : List Char} {offset : Nat} {rest : List Char}
    (h : Reads text offset rest) {word : String} (hword : word.toList ≠ []) {n : Nat}
    (hfind : find word.toList rest = some n) :
    Locate.literal? text offset word = some ⟨offset + n, offset + n + bytes word.toList⟩ := by
  have hdrop : dropBytes offset text = some rest := h
  have hne : word.isEmpty = false := by
    rw [Bool.eq_false_iff, ne_eq, String.isEmpty_iff]
    rintro rfl
    exact hword rfl
  simp [Locate.literal?, hne, hdrop, hfind]

end Locate

theorem Cursor.advanceTo_of_le {c : Cursor} {offset : Nat} (h : c.offset ≤ offset) :
    c.advanceTo offset = ⟨c.text, offset⟩ := by
  rw [Cursor.advanceTo, Nat.max_eq_right h]

end DesignTokens
