import DesignTokens.Proofs.KeyLines

/-!
The scalar behind a key.

A search for the scalar takes a quote if there is one, a colon, blanks, and then everything up to a
character that ends scalars, less the white space at its end.  `StandsBehind` says what stands between
the colon and the end of the scalar's run, and `IsScalarOf` which part of it is the scalar; neither says
how it is read.  The search gives exactly that part (`scalar?_eq_some_iff`).  Behind a key that was found
there always is a colon, so nothing but white space can make the search fail (`exists_standsBehind_key`).
-/

namespace DesignTokens
namespace Locate

open Text

/-! ## What stands behind a key -/

/-- The characters that a plain scalar ends in front of. -/
def separators : List Char :=
  ['#', ',', '}', ']', '\n', '\r']

/-- Behind the key stand its closing quote, if it has one, a colon, and then a run of characters up to
the first separator or the end of the text. -/
structure StandsBehind (rest quote run after : List Char) : Prop where
  rest_eq : rest = quote ++ ':' :: (run ++ after)
  quoted : quote ∈ [[], ['\x27'], ['\x22']]
  within : ∀ c ∈ run, c ∉ separators
  ends : ∀ c ∈ after.head?, c ∈ separators

/-- The scalar of a run: what is left without the spaces and tabs in front and without the white space
at the end. -/
structure IsScalarOf (run indent scalar gap : List Char) : Prop where
  run_eq : run = indent ++ (scalar ++ gap)
  indented : ∀ c ∈ indent, c = ' ' ∨ c = '\t'
  first : ∀ c ∈ scalar.head?, c ≠ ' ' ∧ c ≠ '\t'
  last : ∀ c ∈ scalar.getLast?, isBlank c = false
  blank : ∀ c ∈ gap, isBlank c = true
  ne_nil : scalar ≠ []

theorem endsScalar_iff {c : Char} : endsScalar c = true ↔ c ∈ separators := by
  simp [endsScalar, separators, or_assoc]

theorem not_endsScalar_iff {c : Char} : (!endsScalar c) = true ↔ c ∉ separators := by
  rw [← endsScalar_iff, Bool.not_eq_true', Bool.not_eq_true]

theorem not_isIndent_of_mem_separators {c : Char} (h : c ∈ separators) : isIndent c = false := by
  simp only [separators, List.mem_cons, List.not_mem_nil, or_false] at h
  rcases h with rfl | rfl | rfl | rfl | rfl | rfl <;> rfl

theorem isBlank_of_isIndent {c : Char} (h : isIndent c = true) : isBlank c = true := by
  rcases isIndent_iff.mp h with rfl | rfl <;> decide

theorem StandsBehind.splitQuote_eq {rest quote run after : List Char}
    (h : StandsBehind rest quote run after) : splitQuote rest = (quote, ':' :: (run ++ after)) := by
  have hquoted := h.quoted
  simp only [List.mem_cons, List.not_mem_nil, or_false] at hquoted
  rw [h.rest_eq]
  rcases hquoted with rfl | rfl | rfl <;> rfl

theorem standsBehind_of_colon {rest more : List Char} (h : (splitQuote rest).2 = ':' :: more) :
    StandsBehind rest (splitQuote rest).1 (more.takeWhile (!endsScalar ·))
      (more.dropWhile (!endsScalar ·)) := by
  refine ⟨?_, ?_, fun c hc => ?_, fun c hc => ?_⟩
  · rw [List.takeWhile_append_dropWhile, ← h, splitQuote_append]
  · cases rest with
    | nil => simp [splitQuote]
    | cons c cs =>
        rw [splitQuote]
        split
        · next hquote =>
            rcases isQuote_iff.mp hquote with rfl | rfl <;> simp
        · simp
  · have hplain : (!endsScalar c) = true := List.mem_takeWhile_imp (p := (!endsScalar ·)) hc
    exact not_endsScalar_iff.mp hplain
  · have hhead := List.head?_dropWhile_not (!endsScalar ·) more
    rw [Option.mem_def.mp hc] at hhead
    exact endsScalar_iff.mp (by simpa using hhead)

/-! ## The part of the run that is the scalar -/

theorem IsScalarOf.eq {run indent scalar gap : List Char} (h : IsScalarOf run indent scalar gap) :
    run.takeWhile isIndent = indent ∧ trimEnd (run.dropWhile isIndent) = scalar := by
  have hindent : ∀ c ∈ indent, isIndent c = true := fun c hc => isIndent_iff.mpr (h.indented c hc)
  have hfirst : ∀ c ∈ (scalar ++ gap).head?, isIndent c = false := by
    intro c hc
    rw [List.head?_append_of_ne_nil _ h.ne_nil] at hc
    have hne := h.first c hc
    rw [Bool.eq_false_iff, ne_eq, isIndent_iff, not_or]
    exact hne
  obtain ⟨htake, hdrop⟩ := takeWhile_append_stop hindent hfirst
  rw [h.run_eq, htake, hdrop, trimEnd_append h.blank, trimEnd_eq_self h.last]
  exact ⟨rfl, rfl⟩

theorem exists_isScalarOf {run : List Char} (hne : trimEnd (run.dropWhile isIndent) ≠ []) :
    ∃ gap, IsScalarOf run (run.takeWhile isIndent) (trimEnd (run.dropWhile isIndent)) gap := by
  obtain ⟨gap, hgap, hblank⟩ := exists_trimEnd_append (run.dropWhile isIndent)
  refine ⟨gap, ?_, fun c hc => ?_, fun c hc => ?_, getLast?_trimEnd _, hblank, hne⟩
  · rw [← hgap, List.takeWhile_append_dropWhile]
  · exact isIndent_iff.mp (List.mem_takeWhile_imp hc)
  · have hhead := List.head?_dropWhile_not isIndent run
    rw [hgap, List.head?_append_of_ne_nil _ hne, Option.mem_def.mp hc] at hhead
    have hnot : isIndent c = false := by simpa using hhead
    rwa [Bool.eq_false_iff, ne_eq, isIndent_iff, not_or] at hnot

theorem trimEnd_dropWhile_eq_nil_iff {run : List Char} :
    trimEnd (run.dropWhile isIndent) = [] ↔ ∀ c ∈ run, isBlank c = true := by
  constructor
  · intro h c hc
    obtain ⟨gap, hgap, hblank⟩ := exists_trimEnd_append (run.dropWhile isIndent)
    rw [h, List.nil_append] at hgap
    rw [← List.takeWhile_append_dropWhile (p := isIndent) (l := run), List.mem_append] at hc
    rcases hc with hc | hc
    · exact isBlank_of_isIndent (List.mem_takeWhile_imp hc)
    · exact hblank c (hgap ▸ hc)
  · intro h
    have hdrop : ∀ c ∈ run.dropWhile isIndent, isBlank c = true := fun c hc =>
      h c ((List.dropWhile_suffix _).subset hc)
    have htrim := @trimEnd_append [] _ hdrop
    rwa [List.nil_append] at htrim

/-! ## The search -/

/-- Where there is a run, its scalar is found, and nothing if it has none. -/
theorem StandsBehind.scalar?_eq {text rest quote run after : List Char} {key : Span}
    (hreads : Reads text key.stop rest) (h : StandsBehind rest quote run after) :
    scalar? text key =
      if trimEnd (run.dropWhile isIndent) = [] then none
      else some ⟨key.stop + bytes quote + 1 + bytes (run.takeWhile isIndent),
        key.stop + bytes quote + 1 + bytes (run.takeWhile isIndent) +
          bytes (trimEnd (run.dropWhile isIndent))⟩ := by
  have hdrop : dropBytes key.stop text = some rest := hreads
  have hends : ∀ c ∈ after.head?, (!endsScalar c) = false := by
    intro c hc
    rw [endsScalar_iff.mpr (h.ends c hc)]
    rfl
  obtain ⟨hindent, hrest⟩ := takeWhile_append_refused (p := isIndent)
    (fun c hc => not_isIndent_of_mem_separators (h.ends c hc)) run
  have hrun : (run.dropWhile isIndent ++ after).takeWhile (!endsScalar ·) =
      run.dropWhile isIndent := by
    rw [(takeWhile_append_refused hends _).1, List.takeWhile_eq_self_iff]
    intro c hc
    exact not_endsScalar_iff.mpr (h.within c ((List.dropWhile_suffix _).subset hc))
  rw [scalar?, hdrop]
  simp only [bind, Option.bind_some, h.splitQuote_eq, hindent, hrest, hrun, List.isEmpty_iff]

theorem scalar?_eq_none_of_no_colon {text rest : List Char} {key : Span}
    (hreads : Reads text key.stop rest)
    (h : ∀ quote run after, ¬StandsBehind rest quote run after) : scalar? text key = none := by
  have hdrop : dropBytes key.stop text = some rest := hreads
  rw [scalar?, hdrop]
  simp only [bind, Option.bind_some]
  split
  · next more hmore => exact absurd (standsBehind_of_colon hmore) (h _ _ _)
  · rfl

/-- The search gives exactly the scalar of what stands behind the key. -/
theorem scalar?_eq_some_iff {text rest : List Char} {key span : Span}
    (hreads : Reads text key.stop rest) :
    scalar? text key = some span ↔ ∃ quote run after indent scalar gap,
      StandsBehind rest quote run after ∧ IsScalarOf run indent scalar gap ∧
      span.start = key.stop + bytes (quote ++ ':' :: indent) ∧
      span.stop = span.start + bytes scalar := by
  have hbytes (quote indent : List Char) :
      bytes (quote ++ ':' :: indent) = bytes quote + 1 + bytes indent := by
    have hcolon : bytes (':' :: indent) = 1 + bytes indent := rfl
    rw [bytes_append, hcolon, Nat.add_assoc]
  constructor
  · intro h
    by_cases hcolon : ∃ quote run after, StandsBehind rest quote run after
    · obtain ⟨quote, run, after, hbehind⟩ := hcolon
      rw [hbehind.scalar?_eq hreads] at h
      by_cases hempty : trimEnd (run.dropWhile isIndent) = []
      · rw [if_pos hempty] at h
        cases h
      · rw [if_neg hempty] at h
        obtain ⟨gap, hscalar⟩ := exists_isScalarOf hempty
        cases h
        refine ⟨quote, run, after, _, _, gap, hbehind, hscalar, ?_, rfl⟩
        show key.stop + bytes quote + 1 + bytes _ = _
        rw [hbytes]
        omega
    · rw [scalar?_eq_none_of_no_colon hreads fun quote run after hbehind =>
        hcolon ⟨quote, run, after, hbehind⟩] at h
      cases h
  · rintro ⟨quote, run, after, indent, scalar, gap, hbehind, hscalar, hstart, hstop⟩
    obtain ⟨hindent, htrim⟩ := hscalar.eq
    rw [hbehind.scalar?_eq hreads, hindent, htrim, if_neg hscalar.ne_nil, Option.some.injEq]
    rw [hbytes] at hstart
    cases span
    simp only [Span.mk.injEq] at hstart hstop ⊢
    omega

/-- The scalar stands on the line of the key and is nothing but the scalar. -/
theorem slice_scalar {text rest quote run after indent scalar gap : List Char} {key span : Span}
    (hreads : Reads text key.stop rest) (hbehind : StandsBehind rest quote run after)
    (hscalar : IsScalarOf run indent scalar gap)
    (hstart : span.start = key.stop + bytes (quote ++ ':' :: indent))
    (hstop : span.stop = span.start + bytes scalar) :
    slice span.start span.stop text = some scalar ∧
      ∃ line, slice key.stop span.stop text = some line ∧ '\n' ∉ line ∧ '\r' ∉ line := by
  have hrest : rest = (quote ++ ':' :: indent) ++ (scalar ++ (gap ++ after)) := by
    rw [hbehind.rest_eq, hscalar.run_eq]
    simp only [List.append_assoc, List.cons_append]
  have hplain : ∀ c ∈ (quote ++ ':' :: indent) ++ scalar, c ≠ '\n' ∧ c ≠ '\r' := by
    intro c hc
    rw [List.append_assoc, List.mem_append, List.cons_append, List.mem_cons, List.mem_append] at hc
    rcases hc with hc | rfl | hc | hc
    · have hquoted := hbehind.quoted
      simp only [List.mem_cons, List.not_mem_nil, or_false] at hquoted
      rcases hquoted with rfl | rfl | rfl
      · cases hc
      · rw [List.mem_singleton.mp hc]
        decide
      · rw [List.mem_singleton.mp hc]
        decide
    · decide
    · rcases hscalar.indented c hc with rfl | rfl <;> decide
    · have hnot : c ∉ separators := hbehind.within c (by rw [hscalar.run_eq]; simp [hc])
      constructor
      · rintro rfl
        exact hnot (by decide)
      · rintro rfl
        exact hnot (by decide)
  rw [hrest] at hreads
  refine ⟨?_, (quote ++ ':' :: indent) ++ scalar, ?_, fun hc => (hplain _ hc).1 rfl,
    fun hc => (hplain _ hc).2 rfl⟩
  · rw [hstop, hstart]
    exact hreads.skip.slice
  · rw [← List.append_assoc] at hreads
    rw [hstop, hstart, Nat.add_assoc, ← bytes_append]
    exact hreads.slice

/-! ## Behind a key that was found -/

/-- Behind a key that was found stand its closing quote and a colon. -/
theorem exists_standsBehind_key {text : List Char} {offset : Nat} {name : String} {key : Span}
    (h : Locate.key text offset name = .ok key) :
    ∃ rest quote run after, Reads text key.stop rest ∧ StandsBehind rest quote run after := by
  have hoffset : ∃ body, dropBytes offset text = some body := by
    cases hbody : dropBytes offset text with
    | none => simp [Locate.key, hbody] at h
    | some body => exact ⟨body, rfl⟩
  obtain ⟨body, hbody⟩ := hoffset
  obtain ⟨before, rfl, rfl⟩ := dropBytes_eq_some_iff.mp hbody
  have hfound : keyInLines? name.toList (bytes before) (lines body) = some key := by
    rw [key_eq_match] at h
    split at h
    · next span hspan => rw [hspan, Except.ok.inj h]
    · cases h
  have hfirst := keyInLines?_eq_some_iff.mp hfound
  obtain ⟨-, -, front, quote, more, htext, hstart, hquote⟩ := hfirst.spells
  have hstop : key.stop = key.start + bytes name.toList := by
    obtain ⟨earlier, line, later, indent, quote', tail, -, -, -, -, hstop⟩ := hfirst
    exact hstop
  have hsplit : (splitQuote (quote ++ ':' :: more)).2 = ':' :: more := by
    simp only [List.mem_cons, List.not_mem_nil, or_false] at hquote
    rcases hquote with rfl | rfl | rfl <;> rfl
  refine ⟨quote ++ ':' :: more, _, _, _, reads_iff.mpr ⟨front ++ (quote ++ name.toList), ?_, ?_⟩,
    standsBehind_of_colon hsplit⟩
  · rw [htext]
    simp only [List.append_assoc]
  · rw [hstop, hstart]
    simp only [bytes_append, Nat.add_assoc]

/-- A search for a scalar behind a key that ends at a boundary of the text succeeds exactly if a colon
stands behind the key and its closing quote, and the run of characters from there to the first separator
or the end of the text has a scalar; it gives the place of that scalar.  What it gives is not empty, has
none of the separators in it, neither begins with a space or a tab nor ends with white space, and stands
on the line on which the key ends.  Behind a key that was found, the search fails exactly if the run is
white space. -/
theorem scalar_found_iff_written (before rest : List Char) (start : Nat) :
    (∀ span, scalar? (before ++ rest) ⟨start, bytes before⟩ = some span ↔
      ∃ quote run after indent scalar gap, StandsBehind rest quote run after ∧
        IsScalarOf run indent scalar gap ∧
        span.start = bytes before + bytes (quote ++ ':' :: indent) ∧
        span.stop = span.start + bytes scalar) ∧
    (∀ span, scalar? (before ++ rest) ⟨start, bytes before⟩ = some span →
      ∃ scalar line, slice span.start span.stop (before ++ rest) = some scalar ∧ scalar ≠ [] ∧
        (∀ c ∈ scalar, c ∉ separators) ∧ (∀ c ∈ scalar.head?, c ≠ ' ' ∧ c ≠ '\t') ∧
        (∀ c ∈ scalar.getLast?, isBlank c = false) ∧
        slice (bytes before) span.stop (before ++ rest) = some line ∧ '\n' ∉ line ∧ '\r' ∉ line) ∧
    ∀ text offset name key, Locate.key text offset name = .ok key →
      ∃ behind quote run after, Reads text key.stop behind ∧ StandsBehind behind quote run after ∧
        (scalar? text key = none ↔ ∀ c ∈ run, isBlank c = true) := by
  have hreads : Reads (before ++ rest) (Span.mk start (bytes before)).stop rest :=
    dropBytes_bytes_append before rest
  refine ⟨fun span => scalar?_eq_some_iff hreads, fun span hspan => ?_, ?_⟩
  · obtain ⟨quote, run, after, indent, scalar, gap, hbehind, hscalar, hstart, hstop⟩ :=
      (scalar?_eq_some_iff hreads).mp hspan
    obtain ⟨hslice, line, hline, hnewline, hreturn⟩ :=
      slice_scalar hreads hbehind hscalar hstart hstop
    have hwithin : ∀ c ∈ scalar, c ∉ separators := fun c hc =>
      hbehind.within c (by rw [hscalar.run_eq]; simp [hc])
    exact ⟨scalar, line, hslice, hscalar.ne_nil, hwithin, hscalar.first, hscalar.last, hline,
      hnewline, hreturn⟩
  · intro text offset name key hkey
    obtain ⟨behind, quote, run, after, hbehind, hstands⟩ := exists_standsBehind_key hkey
    refine ⟨behind, quote, run, after, hbehind, hstands, ?_⟩
    rw [hstands.scalar?_eq hbehind, ← trimEnd_dropWhile_eq_nil_iff]
    simp

example : scalar? "\x27dark\x27: 00000001 # comment\n".toList ⟨1, 5⟩ = some ⟨8, 16⟩ := by decide

end Locate
end DesignTokens
