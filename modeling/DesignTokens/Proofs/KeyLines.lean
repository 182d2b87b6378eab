import DesignTokens.Proofs.Places
import Mathlib.Data.List.TakeWhile

/-!
The lines in which a key is found.

A search for a key takes an indentation as far as it goes, then a quote if there is one, and only
then looks at the key; it never goes back.  `Declares` says what a line looks like that declares a
key, without saying how it is read.  The two come to the same (`keyInLine?_eq_some_iff`), because a
key without quotes may not begin like an indentation or a quote.  A search over lines then gives the
first line that declares the key (`keyInLines?_eq_some_iff`).
-/

namespace DesignTokens

namespace Text

/-- Pieces of a text that is cut after each newline: a newline ends every piece but perhaps the last,
and stands nowhere else. -/
inductive AreLines : List (List Char) → Prop
  | nil : AreLines []
  | last {body : List Char} : body ≠ [] → '\n' ∉ body → AreLines [body]
  | cons {body : List Char} {lines : List (List Char)} : '\n' ∉ body → AreLines lines →
      AreLines ((body ++ ['\n']) :: lines)

theorem areLines_lines (cs : List Char) : AreLines (lines cs) := by
  induction cs with
  | nil => exact .nil
  | cons c cs ih =>
      rw [lines]
      by_cases hc : c = '\n'
      · rw [if_pos hc, hc]
        have hempty : '\n' ∉ ([] : List Char) := List.not_mem_nil
        exact .cons hempty ih
      · rw [if_neg hc]
        have hmem {body : List Char} (hbody : '\n' ∉ body) : '\n' ∉ c :: body := by
          rw [List.mem_cons, not_or]
          exact ⟨fun heq => hc heq.symm, hbody⟩
        -- The character goes in front of the first line of the rest.
        generalize lines cs = rest at ih
        cases ih with
        | nil => exact .last (List.cons_ne_nil _ _) (hmem List.not_mem_nil)
        | last _ hbody => exact .last (List.cons_ne_nil _ _) (hmem hbody)
        | cons hbody hlines => exact .cons (hmem hbody) hlines

end Text

namespace Locate

open Text

/-! ## One line -/

/-- A line that declares a key: behind the indentation stands the key, between two equal quotes or
between none, and then a colon.  Without quotes, the key begins with no blank and no quote. -/
structure Declares (key line indent quote tail : List Char) : Prop where
  line_eq : line = indent ++ (quote ++ (key ++ (quote ++ ':' :: tail)))
  indented : ∀ c ∈ indent, c = ' ' ∨ c = '\t'
  quoted : quote = ['\x27'] ∨ quote = ['\x22'] ∨
    quote = [] ∧ ∀ c ∈ key.head?, c ∉ [' ', '\t', '\x27', '\x22']

theorem isIndent_iff {c : Char} : isIndent c = true ↔ c = ' ' ∨ c = '\t' := by
  simp [isIndent]

theorem isQuote_iff {c : Char} : isQuote c = true ↔ c = '\x27' ∨ c = '\x22' := by
  simp [isQuote]

theorem plain_iff {c : Char} :
    c ∉ [' ', '\t', '\x27', '\x22'] ↔ isIndent c = false ∧ isQuote c = false := by
  simp [isIndent, isQuote, and_assoc]

theorem head?_key_colon {p : Char → Bool} {key : List Char} (hkey : ∀ c ∈ key.head?, p c = false)
    (hcolon : p ':' = false) (tail : List Char) :
    ∀ c ∈ (key ++ ':' :: tail).head?, p c = false := by
  intro c hc
  cases key with
  | nil =>
      cases hc
      exact hcolon
  | cons first more =>
      cases hc
      exact hkey _ rfl

/-- What follows the indentation begins like no indentation. -/
theorem Declares.takeWhile {key line indent quote tail : List Char}
    (h : Declares key line indent quote tail) :
    line.takeWhile isIndent = indent ∧
      line.dropWhile isIndent = quote ++ (key ++ (quote ++ ':' :: tail)) := by
  rw [h.line_eq]
  apply takeWhile_append_stop
  · intro c hc
    exact isIndent_iff.mpr (h.indented c hc)
  · rcases h.quoted with hquote | hquote | ⟨hquote, hkey⟩
    · simp [hquote, isIndent]
    · simp [hquote, isIndent]
    · rw [hquote]
      exact head?_key_colon (fun c hc => (plain_iff.mp (hkey c hc)).1) rfl tail

/-- What follows the quote, if there is none, begins like no quote. -/
theorem Declares.splitQuote {key line indent quote tail : List Char}
    (h : Declares key line indent quote tail) :
    splitQuote (quote ++ (key ++ (quote ++ ':' :: tail))) =
      (quote, key ++ (quote ++ ':' :: tail)) := by
  rcases h.quoted with hquote | hquote | ⟨hquote, hkey⟩
  · rw [hquote]
    rfl
  · rw [hquote]
    rfl
  · rw [hquote]
    exact splitQuote_of_not_quote
      (head?_key_colon (fun c hc => (plain_iff.mp (hkey c hc)).2) rfl tail)

theorem quoted_splitQuote {cs key rest : List Char} (hcs : ∀ c ∈ cs.head?, isIndent c = false)
    (h : (Locate.splitQuote cs).2 = key ++ rest) :
    (Locate.splitQuote cs).1 = ['\x27'] ∨ (Locate.splitQuote cs).1 = ['\x22'] ∨
      (Locate.splitQuote cs).1 = [] ∧ ∀ c ∈ key.head?, c ∉ [' ', '\t', '\x27', '\x22'] := by
  cases cs with
  | nil =>
      have hkey : key = [] := (List.append_eq_nil_iff.mp h.symm).1
      exact .inr (.inr ⟨rfl, by simp [hkey]⟩)
  | cons d cs =>
      cases hquote : isQuote d with
      | true =>
          have hfirst : (Locate.splitQuote (d :: cs)).1 = [d] := by simp [Locate.splitQuote, hquote]
          rcases isQuote_iff.mp hquote with heq | heq
          · exact .inl (by rw [hfirst, heq])
          · exact .inr (.inl (by rw [hfirst, heq]))
      | false =>
          have hsplit : Locate.splitQuote (d :: cs) = ([], d :: cs) := by
            simp [Locate.splitQuote, hquote]
          rw [hsplit] at h ⊢
          refine .inr (.inr ⟨rfl, fun c hc => ?_⟩)
          cases key with
          | nil => cases hc
          | cons first more =>
              cases hc
              cases h
              exact plain_iff.mpr ⟨hcs _ rfl, hquote⟩

/-- The search in a line accepts exactly the lines that declare the key. -/
theorem keyInLine?_eq_some_iff {key line : List Char} {n : Nat} :
    keyInLine? key line = some n ↔
      ∃ indent quote tail, Declares key line indent quote tail ∧ n = bytes (indent ++ quote) := by
  constructor
  · intro h
    simp only [keyInLine?, Option.ite_none_right_eq_some, Option.some.injEq,
      List.isPrefixOf_iff_prefix] at h
    obtain ⟨⟨tail, htail⟩, hn⟩ := h
    have hbody : (Locate.splitQuote (line.dropWhile isIndent)).2 =
        key ++ ((Locate.splitQuote (line.dropWhile isIndent)).1 ++ ':' :: tail) := by
      rw [← htail]
      simp only [List.append_assoc, List.singleton_append]
    refine ⟨line.takeWhile isIndent, (Locate.splitQuote (line.dropWhile isIndent)).1, tail,
      ⟨?_, fun c hc => ?_, quoted_splitQuote (fun c hc => ?_) hbody⟩, ?_⟩
    · rw [← hbody, splitQuote_append, List.takeWhile_append_dropWhile]
    · exact isIndent_iff.mp (List.mem_takeWhile_imp hc)
    · have hhead := List.head?_dropWhile_not isIndent line
      rw [Option.mem_def.mp hc] at hhead
      simpa using hhead
    · rw [← hn, bytes_append]
  · intro h
    obtain ⟨indent, quote, tail, hdeclares, hn⟩ := h
    obtain ⟨htake, hdrop⟩ := hdeclares.takeWhile
    have hprefix : key ++ quote ++ [':'] <+: key ++ (quote ++ ':' :: tail) :=
      ⟨tail, by simp only [List.append_assoc, List.singleton_append]⟩
    rw [keyInLine?, htake, hdrop, hdeclares.splitQuote]
    simp only [List.isPrefixOf_iff_prefix]
    rw [if_pos hprefix, hn, bytes_append]

theorem keyInLine?_eq_none_iff {key line : List Char} :
    keyInLine? key line = none ↔ ∀ indent quote tail, ¬Declares key line indent quote tail := by
  constructor
  · intro hnone indent quote tail hdeclares
    rw [keyInLine?_eq_some_iff.mpr ⟨indent, quote, tail, hdeclares, rfl⟩] at hnone
    cases hnone
  · intro hall
    cases hfound : keyInLine? key line with
    | none => rfl
    | some n =>
        obtain ⟨indent, quote, tail, hdeclares, -⟩ := keyInLine?_eq_some_iff.mp hfound
        exact absurd hdeclares (hall indent quote tail)

/-! ## Line after line -/

/-- The place of the key in the first of the lines that declares it; the lines begin at the offset.
-/
def FirstDeclared (key : List Char) (offset : Nat) (lines : List (List Char)) (span : Span) : Prop :=
  ∃ earlier line later indent quote tail, lines = earlier ++ line :: later ∧
    (∀ other ∈ earlier, ∀ indent quote tail, ¬Declares key other indent quote tail) ∧
    Declares key line indent quote tail ∧
    span.start = offset + bytes (earlier.flatten ++ (indent ++ quote)) ∧
    span.stop = span.start + bytes key

theorem keyInLines?_eq_some_iff {key : List Char} {offset : Nat} {lines : List (List Char)}
    {span : Span} :
    keyInLines? key offset lines = some span ↔ FirstDeclared key offset lines span := by
  constructor
  · intro h
    induction lines generalizing offset with
    | nil => cases h
    | cons line lines ih =>
        rw [keyInLines?] at h
        cases hline : keyInLine? key line with
        | some n =>
            rw [hline] at h
            cases h
            obtain ⟨indent, quote, tail, hdeclares, hn⟩ := keyInLine?_eq_some_iff.mp hline
            exact ⟨[], line, lines, indent, quote, tail, rfl, by simp, hdeclares,
              by rw [hn]; rfl, rfl⟩
        | none =>
            rw [hline] at h
            obtain ⟨earlier, found, later, indent, quote, tail, hlines, hearlier, hdeclares, hstart,
              hstop⟩ := ih h
            refine ⟨line :: earlier, found, later, indent, quote, tail, by rw [hlines]; rfl,
              List.forall_mem_cons.mpr ⟨keyInLine?_eq_none_iff.mp hline, hearlier⟩, hdeclares, ?_,
              hstop⟩
            rw [hstart, List.flatten_cons, List.append_assoc, bytes_append line]
            omega
  · intro h
    obtain ⟨earlier, line, later, indent, quote, tail, hlines, hearlier, hdeclares, hstart, hstop⟩ :=
      h
    have hpass : ∀ other ∈ earlier, keyInLine? key other = none := fun other hother =>
      keyInLine?_eq_none_iff.mpr (hearlier other hother)
    have hline := keyInLine?_eq_some_iff.mpr ⟨indent, quote, tail, hdeclares, rfl⟩
    rw [bytes_append, ← Nat.add_assoc] at hstart
    rw [hlines, keyInLines?_append hpass, keyInLines?, hline]
    show some (Span.mk _ _) = some span
    rw [← hstart, ← hstop]

theorem keyInLines?_eq_none_iff {key : List Char} {offset : Nat} {lines : List (List Char)} :
    keyInLines? key offset lines = none ↔
      ∀ line ∈ lines, ∀ indent quote tail, ¬Declares key line indent quote tail := by
  constructor
  · intro h line hline
    rw [← keyInLine?_eq_none_iff]
    by_contra hne
    obtain ⟨n, hn⟩ := Option.ne_none_iff_exists'.mp hne
    obtain ⟨earlier, later, hsplit⟩ := List.append_of_mem hline
    obtain ⟨before, after, -, hfound, -⟩ := exists_keyInLines?_le hn offset earlier later
    rw [← hsplit, h] at hfound
    cases hfound
  · intro h
    have hpass : ∀ line ∈ lines, keyInLine? key line = none := fun line hline =>
      keyInLine?_eq_none_iff.mpr (h line hline)
    have hend := keyInLines?_append hpass offset []
    rw [List.append_nil] at hend
    rw [hend]
    rfl

/-- At the place of the first declaration the text spells the key, between the quotes and in front of
the colon. -/
theorem FirstDeclared.spells {before rest key : List Char} {span : Span}
    (h : FirstDeclared key (bytes before) (lines rest) span) :
    bytes before ≤ span.start ∧ slice span.start span.stop (before ++ rest) = some key ∧
      ∃ front quote after, before ++ rest = front ++ (quote ++ (key ++ (quote ++ ':' :: after))) ∧
        span.start = bytes (front ++ quote) ∧ quote ∈ [[], ['\x27'], ['\x22']] := by
  obtain ⟨earlier, line, later, indent, quote, tail, hlines, -, hdeclares, hstart, hstop⟩ := h
  have htext : before ++ rest = (before ++ (earlier.flatten ++ indent)) ++
      (quote ++ (key ++ (quote ++ ':' :: (tail ++ later.flatten)))) := by
    rw [← flatten_lines rest, hlines, List.flatten_append, List.flatten_cons, hdeclares.line_eq]
    simp only [List.append_assoc, List.cons_append]
  have hoffset : span.start = bytes ((before ++ (earlier.flatten ++ indent)) ++ quote) := by
    rw [hstart, List.append_assoc, List.append_assoc, bytes_append before]
  have hreads : Reads (before ++ rest) span.start
      (key ++ (quote ++ ':' :: (tail ++ later.flatten))) := by
    refine reads_iff.mpr ⟨_, ?_, hoffset.symm⟩
    rw [htext, List.append_assoc _ quote]
  have hquote : quote ∈ [[], ['\x27'], ['\x22']] := by
    rcases hdeclares.quoted with hquote | hquote | ⟨hquote, -⟩
    all_goals simp [hquote]
  refine ⟨by omega, ?_, _, quote, _, htext, hoffset, hquote⟩
  rw [hstop]
  exact hreads.slice

theorem key_eq_match (before rest : List Char) (key : String) :
    Locate.key (before ++ rest) (bytes before) key =
      match keyInLines? key.toList (bytes before) (lines rest) with
      | some span => .ok span
      | none => .error (.keyNotFound key (bytes before)) := by
  cases hfound : keyInLines? key.toList (bytes before) (lines rest) with
  | none => simp only [Locate.key, dropBytes_bytes_append, hfound]
  | some span => simp only [Locate.key, dropBytes_bytes_append, hfound]

/-- A search that begins at a boundary of the text finds a key exactly if some line of the rest
declares it, and then in the first such line; what is left of the line in which the search begins
counts as a line.  Otherwise it says which key is missing, and behind which offset. -/
theorem key_found_iff_declared (before rest : List Char) (key : String) :
    (AreLines (lines rest) ∧ (lines rest).flatten = rest) ∧
    (∀ span, Locate.key (before ++ rest) (bytes before) key = .ok span ↔
      FirstDeclared key.toList (bytes before) (lines rest) span) ∧
    (∀ span, Locate.key (before ++ rest) (bytes before) key = .ok span →
      bytes before ≤ span.start ∧
      slice span.start span.stop (before ++ rest) = some key.toList ∧
      ∃ front quote after,
        before ++ rest = front ++ (quote ++ (key.toList ++ (quote ++ ':' :: after))) ∧
        span.start = bytes (front ++ quote) ∧ quote ∈ [[], ['\x27'], ['\x22']]) ∧
    ((∃ span, Locate.key (before ++ rest) (bytes before) key = .ok span) ↔
      ∃ line ∈ lines rest, ∃ indent quote tail, Declares key.toList line indent quote tail) ∧
    ((∀ line ∈ lines rest, ∀ indent quote tail, ¬Declares key.toList line indent quote tail) →
      Locate.key (before ++ rest) (bytes before) key =
        .error (.keyNotFound key (bytes before))) := by
  have hok : ∀ span, Locate.key (before ++ rest) (bytes before) key = .ok span ↔
      FirstDeclared key.toList (bytes before) (lines rest) span := by
    intro span
    rw [← keyInLines?_eq_some_iff, key_eq_match]
    cases keyInLines? key.toList (bytes before) (lines rest) <;> simp
  have hmissing (h : ∀ line ∈ lines rest, ∀ indent quote tail,
      ¬Declares key.toList line indent quote tail) :
      Locate.key (before ++ rest) (bytes before) key = .error (.keyNotFound key (bytes before)) := by
    rw [key_eq_match, keyInLines?_eq_none_iff.mpr h]
  refine ⟨⟨areLines_lines rest, flatten_lines rest⟩, hok, fun span h => ((hok span).mp h).spells,
    ⟨?_, ?_⟩, hmissing⟩
  · intro h
    obtain ⟨span, hspan⟩ := h
    obtain ⟨earlier, line, later, indent, quote, tail, hlines, -, hdeclares, -⟩ :=
      (hok span).mp hspan
    exact ⟨line, by rw [hlines]; simp, indent, quote, tail, hdeclares⟩
  · intro h
    obtain ⟨line, hline, indent, quote, tail, hdeclares⟩ := h
    cases hfound : keyInLines? key.toList (bytes before) (lines rest) with
    | some span => exact ⟨span, by rw [key_eq_match, hfound]⟩
    | none => exact absurd hdeclares (keyInLines?_eq_none_iff.mp hfound line hline _ _ _)

end Locate
end DesignTokens
