import DesignTokens.Proofs.Block.Lines

/-!
Lists of platforms on one line.

Behind the key of a list, its names are found one after another.  The first one is found too early
only if the search begins at the key of an empty list that was passed over, and the name occurs in
the key of the list that is meant.
-/

namespace DesignTokens
namespace Block

open Text Locate Analysis

def separator : List String → List Char
  | [] => []
  | _ :: _ => [',', ' ']

/-- What stands behind the key of a list up to its first name. -/
def opening : List Char :=
  [':', ' ', '[']

theorem elements_cons (name : String) (names : List String) :
    elements (name :: names) = name.toList ++ (separator names ++ elements names) := by
  cases names with
  | nil => rfl
  | cons other names => rfl

theorem not_mem_newline_elements {names : List String} (h : names.all isName = true) :
    '\n' ∉ elements names := by
  induction names with
  | nil => decide
  | cons name names ih =>
      rw [List.all_cons, Bool.and_eq_true] at h
      rw [elements_cons, List.mem_append, List.mem_append, not_or, not_or]
      refine ⟨not_mem_of_isName h.1 (by decide), ?_, ih h.2⟩
      cases names <;> simp [separator]

theorem regular_platformsLine {names : List String} (h : names.all isName = true) (indent : Nat) :
    (platformsLine indent names).Regular := by
  refine ⟨isKey_platforms, ?_⟩
  have hno := not_mem_newline_elements h
  simp [platformsLine, flowList, hno]

/-! ## Finding the names -/

/-- A word is not found too early in a text that goes before it. -/
structure Misses (word gap : List Char) : Prop where
  last : ∀ c ∈ gap.getLast?, c ∉ word
  absent : ¬word <:+: gap

theorem misses_of_separators {name : String} (hname : isName name = true) {gap : List Char}
    (hgap : gap.all (· ∈ separators) = true) : Misses name.toList gap := by
  have hne := (isName_iff.mp hname).1
  have hgap : ∀ c ∈ gap, c ∈ separators := by simpa using hgap
  refine ⟨fun c hc => not_mem_of_isName hname (hgap c (List.mem_of_mem_getLast? hc)), ?_⟩
  intro hoccurs
  obtain ⟨c, hc⟩ := List.exists_mem_of_ne_nil _ hne
  exact not_mem_of_isName hname (hgap c (hoccurs.subset hc)) hc

theorem misses_separator {names : List String} (h : names.all isName = true)
    (others : List String) : ∀ name ∈ names.head?, Misses name.toList (separator others) := by
  intro name hname
  have hmem : name ∈ names := List.mem_of_mem_head? hname
  refine misses_of_separators (List.all_eq_true.mp h name hmem) ?_
  cases others <;> rfl

/-- The first name of a list is found where it is written. -/
theorem literal?_elements {text gap rest : List Char} {offset : Nat} {name : String}
    {names : List String} (hname : isName name = true) (hgap : Misses name.toList gap)
    (h : Reads text offset (gap ++ (elements (name :: names) ++ rest))) :
    literal? text offset name =
        some ⟨offset + bytes gap, offset + bytes gap + bytes name.toList⟩ ∧
      Reads text (offset + bytes gap + bytes name.toList)
        (separator names ++ (elements names ++ rest)) := by
  have hne := (isName_iff.mp hname).1
  rw [elements_cons, List.append_assoc] at h
  have hskip := h.skip.skip
  rw [List.append_assoc] at hskip
  exact ⟨literal?_eq h hne (find_append hne hgap.last hgap.absent _), hskip⟩

theorem misses_opening {names : List String} (h : names.all isName = true) :
    ∀ name ∈ names.head?, Misses name.toList opening := by
  intro name hname
  have hmem : name ∈ names := List.mem_of_mem_head? hname
  exact misses_of_separators (List.all_eq_true.mp h name hmem) rfl

/-- Names are found where they are written. -/
theorem checkFrom_eq {setting : Setting} {inherited : List String} {path : ItemPath} {key : Span}
    {text gap rest : List Char} {offset : Nat} {names : List String}
    (hnames : names.all isName = true) (hgap : ∀ name ∈ names.head?, Misses name.toList gap)
    (h : Reads text offset (gap ++ (elements names ++ rest))) :
    ∃ stop, Platforms.checkFrom setting inherited path key ⟨text, offset⟩ names =
        (⟨text, stop⟩, placedProblems setting inherited path
          (elementPlaces (offset + bytes gap) names)) ∧
      (names ≠ [] → Reads text stop (']' :: rest)) := by
  induction names generalizing offset gap with
  | nil => exact ⟨offset, rfl, fun hne => absurd rfl hne⟩
  | cons name names ih =>
      rw [List.all_cons, Bool.and_eq_true] at hnames
      obtain ⟨hfound, hskip⟩ := literal?_elements hnames.1 (hgap name rfl) h
      have hadvance : Cursor.advanceTo ⟨text, offset⟩ (offset + bytes gap + bytes name.toList) =
          ⟨text, offset + bytes gap + bytes name.toList⟩ :=
        Cursor.advanceTo_of_le (by show offset ≤ _; omega)
      obtain ⟨stop, hcheck, hstop⟩ := ih hnames.2 (misses_separator hnames.2 names) hskip
      refine ⟨stop, ?_, fun _ => ?_⟩
      · simp only [Platforms.checkFrom, Platforms.check?_eq, Cursor.literal?, hfound,
          Option.getD_some, hadvance, hcheck, elementPlaces, placedProblems, List.flatMap_cons]
        cases names <;> rfl
      · cases names with
        | nil =>
            simp only [Platforms.checkFrom, Prod.mk.injEq, Cursor.mk.injEq, true_and] at hcheck
            rw [← hcheck.1]
            simpa [separator, elements] using hskip
        | cons other names => exact hstop (List.cons_ne_nil _ _)

/-- However early the search begins, it does not go behind the list. -/
theorem checkFrom_le (setting : Setting) (inherited : List String) (path : ItemPath) (key : Span)
    {text after gap rest : List Char} {offset target : Nat} {names : List String}
    (hnames : names.all isName = true) (hoffset : Reads text offset after) (hle : offset ≤ target)
    (h : Reads text target (gap ++ (elements names ++ rest))) :
    ∃ stop after', (Platforms.checkFrom setting inherited path key ⟨text, offset⟩ names).1 =
        ⟨text, stop⟩ ∧ Reads text stop after' ∧
      stop ≤ target + bytes gap + bytes (elements names) := by
  induction names generalizing offset target after gap with
  | nil => exact ⟨offset, after, rfl, hoffset, by omega⟩
  | cons name names ih =>
      rw [List.all_cons, Bool.and_eq_true] at hnames
      have hne := (isName_iff.mp hnames.1).1
      -- The rest of the text at the offset still holds the name.
      obtain ⟨middle, rfl, hmiddle⟩ := hoffset.between h hle
      rw [elements_cons] at hoffset h ⊢
      have hassoc : middle ++ (gap ++ (name.toList ++ (separator names ++ elements names) ++ rest)) =
          (middle ++ gap) ++ (name.toList ++ (separator names ++ (elements names ++ rest))) := by
        simp
      rw [hassoc] at hoffset
      obtain ⟨before, after, hbefore, hfind, hbound⟩ := exists_find_le hne (middle ++ gap)
        (separator names ++ (elements names ++ rest))
      have hfound := literal?_eq hoffset hne hfind
      rw [hbefore] at hoffset
      have hstop := hoffset.skip.skip
      rw [bytes_append] at hbound
      have hadvance : Cursor.advanceTo ⟨text, offset⟩ (offset + bytes before + bytes name.toList) =
          ⟨text, offset + bytes before + bytes name.toList⟩ :=
        Cursor.advanceTo_of_le (by show offset ≤ _; omega)
      have htarget : Reads text (target + bytes gap + bytes name.toList)
          (separator names ++ (elements names ++ rest)) := by
        have hskip := h.skip
        rw [List.append_assoc] at hskip
        have hskip' := hskip.skip
        rwa [List.append_assoc] at hskip'
      obtain ⟨stop, after', hcheck, hreads, hle'⟩ := ih hnames.2 hstop (by omega) htarget
      refine ⟨stop, after', ?_, hreads, ?_⟩
      · simp only [Platforms.checkFrom, Cursor.literal?, hfound, Option.getD_some, hadvance]
        exact hcheck
      · simp only [bytes_append]
        omega

/-! ## The gap behind a list that was passed over -/

theorem infix_append_cons {word first second : List Char} {c : Char} (hc : c ∉ word)
    (h : word <:+: first ++ c :: second) : word <:+: first ∨ word <:+: second := by
  obtain ⟨before, after, heq⟩ := h
  rw [List.append_assoc] at heq
  rcases List.append_eq_append_iff.mp heq with ⟨middle, rfl, hmiddle⟩ | ⟨middle, rfl, hmiddle⟩
  · rcases List.append_eq_append_iff.mp hmiddle with ⟨more, rfl, -⟩ | ⟨more, rfl, hmore⟩
    · exact .inl ⟨before, more, by simp⟩
    · cases more with
      | nil => exact .inl ⟨before, [], by simp⟩
      | cons d more =>
          cases hmore
          simp at hc
  · cases middle with
    | nil =>
        cases word with
        | nil => exact .inl List.nil_infix
        | cons d word =>
            cases hmiddle
            simp at hc
    | cons d middle =>
        cases hmiddle
        exact .inr ⟨middle, after, by simp⟩

theorem not_infix_append {word first second : List Char} (hword : word ≠ [])
    (hfirst : ∀ c ∈ first, c ∉ word) (h : ¬word <:+: second) : ¬word <:+: first ++ second := by
  induction first with
  | nil => exact h
  | cons c first ih =>
      rw [List.forall_mem_cons] at hfirst
      intro hoccurs
      have hcons : word <:+: [] ++ c :: (first ++ second) := hoccurs
      rcases infix_append_cons hfirst.1 hcons with hnil | hrest
      · exact hword (List.infix_nil.mp hnil)
      · exact ih hfirst.2 hrest

def emptyTail : List Char :=
  [':', ' ', '[', ']', '\n']

/-- The text from behind the key of an empty list that was passed over to the first name of the list
that is meant. -/
def gapBehind (pending : List Nat) (indent : Nat) : List Char :=
  emptyTail ++ (textOf (emptyLists pending) ++
    (List.replicate indent ' ' ++ (Keyword.platforms.toList ++ opening)))

theorem infix_gapBehind (pending : List Nat) (indent : Nat) :
    Keyword.platforms.toList <:+: gapBehind pending indent :=
  ⟨emptyTail ++ (textOf (emptyLists pending) ++ List.replicate indent ' '), opening, by
    simp [gapBehind]⟩

theorem not_infix_line {name : String} (hname : isName name = true) {cs : List Char}
    (hkey : ¬name.toList <:+: Keyword.platforms.toList) (h : ¬name.toList <:+: cs) (indent : Nat) :
    ¬name.toList <:+: List.replicate indent ' ' ++ (Keyword.platforms.toList ++ ':' :: cs) := by
  have hspaces : ∀ c ∈ List.replicate indent ' ', c ∉ name.toList := by
    intro c hc
    rw [List.eq_of_mem_replicate hc]
    exact not_mem_of_isName hname (by decide)
  refine not_infix_append (isName_iff.mp hname).1 hspaces (fun hoccurs => ?_)
  rcases infix_append_cons (not_mem_of_isName hname (by decide)) hoccurs with hoccurs | hoccurs
  · exact hkey hoccurs
  · exact h hoccurs

theorem misses_gapBehind {name : String} (hname : isName name = true)
    (hkey : ¬name.toList <:+: Keyword.platforms.toList) (pending : List Nat) (indent : Nat) :
    Misses name.toList (gapBehind pending indent) := by
  have hne := (isName_iff.mp hname).1
  constructor
  · intro c hc
    have hlast : (gapBehind pending indent).getLast? = some '[' := by
      simp [gapBehind, opening, List.getLast?_append]
    rw [hlast] at hc
    cases hc
    exact not_mem_of_isName hname (by decide)
  · have hemptyTail : ∀ c ∈ emptyTail, c ∉ name.toList := by
      intro c hc
      have hsep : emptyTail.all (· ∈ separators) = true := by decide
      exact not_mem_of_isName hname (by simpa using List.all_eq_true.mp hsep c hc)
    -- Each list that was passed over is one more line with the same key and no name behind it.
    refine not_infix_append hne hemptyTail ?_
    induction pending with
    | nil =>
        have hopening : ¬name.toList <:+: [' ', '['] :=
          (misses_of_separators hname (by decide)).absent
        exact not_infix_line hname hkey hopening indent
    | cons first pending ih =>
        have hfirst : textOf (emptyLists (first :: pending)) =
            List.replicate first ' ' ++ (Keyword.platforms.toList ++ ':' ::
              (emptyTail.tail ++ textOf (emptyLists pending))) := by
          simp [emptyLists, textOf, Line.text, platformsLine, flowList, elements, emptyTail]
        rw [hfirst, List.append_assoc, List.append_assoc, List.cons_append, List.append_assoc]
        refine not_infix_line hname hkey (not_infix_append hne ?_ ih) first
        exact fun c hc => hemptyTail c (List.mem_of_mem_tail hc)

/-! ## Checking a list -/

section

variable {setting : Setting} {inherited : List String} {path : ItemPath} {text rest : List Char}
  {offset start indent : Nat} {pending : List Nat} {names : List String}

theorem text_platformsLine (indent : Nat) (names : List String) (rest : List Char) :
    (platformsLine indent names).text ++ rest = (List.replicate indent ' ' ++
      (Keyword.platforms.toList ++ opening)) ++ (elements names ++ '\n' :: rest) := by
  simp [Line.text, platformsLine, flowList, opening]

theorem reads_elements (h : Reads text start ((platformsLine indent names).text ++ rest)) :
    Reads text (((platformsLine indent names).keyPlace start).stop + 3)
      (elements names ++ '\n' :: rest) := by
  rw [text_platformsLine] at h
  have hskip := h.skip
  have hoffset : start + bytes (List.replicate indent ' ' ++ (Keyword.platforms.toList ++ opening)) =
      ((platformsLine indent names).keyPlace start).stop + 3 := by
    have hopening : bytes opening = 3 := rfl
    simp only [bytes_append, bytes_spaces, hopening, Line.keyPlace, platformsLine]
    omega
  rwa [hoffset] at hskip

/-- The key that is taken for that of the list, and the text from there to the first name. -/
theorem Ahead.list (h : Ahead text offset pending start ((platformsLine indent names).text ++ rest))
    (hnames : names.all isName = true) :
    ∃ place gap, Locate.key text offset Keyword.platforms = .ok place ∧ offset ≤ place.stop ∧
      Reads text place.stop (gap ++ (elements names ++ '\n' :: rest)) ∧
      (pending = [] ∧ gap = opening ∨ pending ≠ [] ∧ ∃ more, gap = gapBehind more indent) := by
  cases pending with
  | nil =>
      have hhere : Ahead text offset [] start (textOf [] ++
          ((platformsLine indent names).text ++ rest)) := h
      obtain ⟨hkey, hreads⟩ := hhere.key (.inl rfl) (by simp) (regular_platformsLine hnames indent)
      exact ⟨_, opening, hkey, h.toBehind.le.trans (Line.le_keyPlace_stop _ _ _), hreads,
        .inl ⟨rfl, rfl⟩⟩
  | cons first more =>
      obtain ⟨⟨tail, htail, hreads⟩, hstart⟩ := h
      have hsplit : Reads text offset (tail ++ (textOf [] ++ ((platformsLine first []).text ++
          (textOf (emptyLists more) ++ ((platformsLine indent names).text ++ rest))))) := by
        simpa [emptyLists, textOf] using hreads
      obtain ⟨hkey, hbehind⟩ := key_of_reads (.inr htail) hsplit (by simp)
        (regular_platformsLine rfl first)
      have hgap : ':' :: ((platformsLine first []).rest ++ '\n' :: (textOf (emptyLists more) ++
          ((platformsLine indent names).text ++ rest))) =
          gapBehind more indent ++ (elements names ++ '\n' :: rest) := by
        rw [text_platformsLine]
        simp [gapBehind, emptyTail, platformsLine, flowList, elements]
      rw [hgap] at hbehind
      refine ⟨_, gapBehind more indent, hkey, ?_, hbehind, .inr ⟨by simp, more, rfl⟩⟩
      simp only [Line.keyPlace]
      omega

theorem check_eq_of_key {place : Span} (hne : names ≠ [])
    (hkey : Locate.key text offset Keyword.platforms = .ok place) (hle : offset ≤ place.stop) :
    Platforms.check setting names inherited path ⟨text, offset⟩ =
      .ok (Platforms.checkFrom setting inherited path place ⟨text, place.stop⟩ names) := by
  have hempty : ¬names.isEmpty = true := by simpa using hne
  have hadvance : Cursor.advanceTo ⟨text, offset⟩ place.stop = ⟨text, place.stop⟩ :=
    Cursor.advanceTo_of_le hle
  simp only [Platforms.check, if_neg hempty, Cursor.key, hkey, hadvance, bind, Except.bind, pure,
    Except.pure]

/-- The names of a list are found where they are written, unless the first is found in the key. -/
theorem Ahead.check (h : Ahead text offset pending start ((platformsLine indent names).text ++ rest))
    (hnames : names.all isName = true) (hne : names ≠ [])
    (hclear : pending = [] ∨ Node.occursInKey names = false) :
    ∃ stop, Platforms.check setting names inherited path ⟨text, offset⟩ =
        .ok (⟨text, stop⟩, listProblems setting inherited path
          ((platformsLine indent names).keyPlace start) names) ∧
      Ahead text stop [] (behind start [platformsLine indent names]) rest := by
  obtain ⟨place, gap, hkey, hle, hreads, hgap⟩ := h.list hnames
  have hmisses : ∀ name ∈ names.head?, Misses name.toList gap := by
    rcases hgap with ⟨-, rfl⟩ | ⟨hpending, more, rfl⟩
    · exact misses_opening hnames
    · intro name hname
      have hisName := List.all_eq_true.mp hnames name (List.mem_of_mem_head? hname)
      refine misses_gapBehind hisName (fun hoccurs => ?_) more indent
      have hclear' := hclear.resolve_left hpending
      rw [Option.mem_def] at hname
      simp [Node.occursInKey, hname, hoccurs] at hclear'
  obtain ⟨stop, hcheck, hstop⟩ := checkFrom_eq hnames hmisses hreads
  have hplaces : place.stop + bytes gap =
      ((platformsLine indent names).keyPlace start).stop + 3 :=
    Reads.offset_eq hreads.skip (reads_elements h.there)
  refine ⟨stop, ?_, ?_⟩
  · rw [check_eq_of_key hne hkey hle, hcheck, hplaces]
    rfl
  · exact Ahead.of_bracket (hstop hne) (Reads.behind_line h.there)

/-- If the first name occurs in the key and an empty list was passed over, the name is found in the
key. -/
theorem Ahead.check_misread {name : String} {more : List String}
    (h : Ahead text offset pending start ((platformsLine indent (name :: more)).text ++ rest))
    (hnames : (name :: more).all isName = true) (hpending : pending ≠ [])
    (hoccurs : Node.occursInKey (name :: more) = true) :
    ∃ cursor wrong problems,
      Platforms.check setting (name :: more) inherited path ⟨text, offset⟩ =
        .ok (cursor, placedProblems setting inherited path [(name, wrong)] ++ problems) ∧
      wrong.start < ((platformsLine indent (name :: more)).keyPlace start).stop + 3 := by
  obtain ⟨place, gap, hkey, hle, hreads, hgap⟩ := h.list hnames
  obtain ⟨-, others, rfl⟩ := hgap.resolve_left (fun hnil => hpending hnil.1)
  have hplaces := Reads.offset_eq hreads.skip (reads_elements h.there)
  have hisName : isName name = true := List.all_eq_true.mp hnames name List.mem_cons_self
  have hne := (isName_iff.mp hisName).1
  have hkeyOccurs : name.toList <:+: Keyword.platforms.toList := by
    simpa [Node.occursInKey] using hoccurs
  obtain ⟨n, hfind, hlt⟩ := exists_find_lt hne (hkeyOccurs.trans (infix_gapBehind others indent))
    (elements (name :: more) ++ '\n' :: rest)
  have hfound := literal?_eq hreads hne hfind
  obtain ⟨cursor, problems, hrest⟩ : ∃ cursor problems,
      Platforms.checkFrom setting inherited path place
          (Cursor.advanceTo ⟨text, place.stop⟩ (place.stop + n + bytes name.toList)) more =
        (cursor, problems) := ⟨_, _, rfl⟩
  refine ⟨cursor, ⟨place.stop + n, place.stop + n + bytes name.toList⟩, problems, ?_, ?_⟩
  · rw [check_eq_of_key (List.cons_ne_nil _ _) hkey hle]
    simp only [Platforms.checkFrom, Platforms.check?_eq, Cursor.literal?, hfound, Option.getD_some,
      hrest, placedProblems, List.flatMap_cons, List.flatMap_nil, List.append_nil]
  · rw [← hplaces]
    exact Nat.add_lt_add_left hlt place.stop

/-- However early the search begins, the list is found, and the search does not go behind it. -/
theorem Behind.check (h : Behind text offset start ((platformsLine indent names).text ++ rest))
    (hnames : names.all isName = true) :
    ∃ stop problems, Platforms.check setting names inherited path ⟨text, offset⟩ =
        .ok (⟨text, stop⟩, problems) ∧
      Behind text stop (behind start [platformsLine indent names]) rest := by
  have hforward := h.forward_line
  by_cases hne : names = []
  · subst hne
    exact ⟨offset, [], rfl, hforward⟩
  · have hhere : Behind text offset start (textOf [] ++
        ((platformsLine indent names).text ++ rest)) := h
    obtain ⟨place, hkey, hle, hplace, after, hafter⟩ := hhere.key (by simp)
      (regular_platformsLine hnames indent)
    have hstart : Reads text start ((platformsLine indent names).text ++ rest) := by
      obtain ⟨done, hdone, hbytes, -⟩ := h.starts
      exact reads_iff.mpr ⟨done, hdone, hbytes⟩
    have helements : Reads text (((platformsLine indent names).keyPlace start).stop + 3)
        ([] ++ (elements names ++ '\n' :: rest)) := reads_elements hstart
    obtain ⟨stop, after', hcheck, hreads, hstop⟩ := checkFrom_le setting inherited path place hnames
      hafter (Nat.le_add_right_of_le hplace) helements
    refine ⟨stop, (Platforms.checkFrom setting inherited path place ⟨text, place.stop⟩ names).2, ?_,
      hforward.move ?_ ⟨after', hreads⟩⟩
    · rw [check_eq_of_key hne hkey hle, ← hcheck]
    · refine Nat.le_trans hstop ?_
      rw [behind_singleton]
      simp only [behind_nil, Line.keyPlace, Line.text, platformsLine, flowList, bytes, bytes_append,
        bytes_spaces]
      have hcolon : Char.utf8Size ':' = 1 := rfl
      have hspace : Char.utf8Size ' ' = 1 := rfl
      have hbracket : Char.utf8Size '[' = 1 := rfl
      omega

end

end Block
end DesignTokens
