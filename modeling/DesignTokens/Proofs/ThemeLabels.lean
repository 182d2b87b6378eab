import DesignTokens.Proofs.Block.ImportAnchors
import DesignTokens.Proofs.PlatformCursor
import DesignTokens.Proofs.Problems
import DesignTokens.Proofs.ThemeDeclarations
import Mathlib.Data.List.Chain

/-!
Where the problems of a list of themes are labelled.

The list is written on one line.  Each name is searched behind the one before it, so behind an alias
the search begins in front of `import` and the target, and a name that occurs there is found too
early.  A problem is then labelled outside of its declaration.  `clear` goes over the declarations
with what is still unread in front of each, and says exactly when no label is astray.
-/

namespace DesignTokens

open Text

/-! ## What is left behind a word -/

namespace Text

/-- What stands behind the first occurrence of a word, and nothing if there is none. -/
def leftBehind (word cs : List Char) : List Char :=
  (behindWord? word cs).getD []

theorem behindWord?_of_occurs {word cs : List Char} (hword : word ≠ []) (h : word <:+: cs) :
    behindWord? word cs = some (leftBehind word cs) := by
  obtain ⟨after, hafter⟩ :=
    Option.ne_none_iff_exists'.mp (mt (behindWord?_eq_none_iff hword).mp (not_not.mpr h))
  rw [leftBehind, hafter]
  rfl

theorem leftBehind_append_of_occurs {word cs : List Char} (hword : word ≠ []) (h : word <:+: cs)
    (rest : List Char) : leftBehind word (cs ++ rest) = leftBehind word cs ++ rest := by
  have hlonger := behindWord?_append (behindWord?_of_occurs hword h) rest
  rw [leftBehind, hlonger]
  rfl

theorem leftBehind_append_of_misses {word gap : List Char} (h : Block.Misses word gap)
    (rest : List Char) : leftBehind word (gap ++ rest) = leftBehind word rest := by
  induction gap with
  | nil => rfl
  | cons c cs ih =>
      have hnot : ¬word <+: c :: (cs ++ rest) :=
        not_prefix_append (List.cons_ne_nil c cs) h.last h.absent rest
      have hrest : Block.Misses word cs := by
        refine ⟨fun e he => h.last e ?_, fun hoccurs => h.absent (List.infix_cons hoccurs)⟩
        rw [List.getLast?_cons, Option.mem_def.mp he]
        rfl
      rw [← ih hrest, List.cons_append, leftBehind, leftBehind, behindWord?,
        if_neg (mt List.isPrefixOf_iff_prefix.mp hnot)]

theorem leftBehind_self_append {word : List Char} (hword : word ≠ []) (rest : List Char) :
    leftBehind word (word ++ rest) = rest := by
  obtain ⟨c, cs, rfl⟩ := List.exists_cons_of_ne_nil hword
  have hprefix : (c :: cs).isPrefixOf (c :: (cs ++ rest)) = true :=
    List.isPrefixOf_iff_prefix.mpr (List.prefix_append (c :: cs) rest)
  rw [leftBehind, List.cons_append, behindWord?, if_pos hprefix, ← List.cons_append,
    List.drop_left]
  rfl

theorem exists_eq_append_leftBehind {word cs : List Char} (hword : word ≠ []) (h : word <:+: cs) :
    ∃ before, cs = before ++ (word ++ leftBehind word cs) :=
  exists_of_behindWord? (behindWord?_of_occurs hword h)

/-- A word in what is read next is found there, in front of what is left behind it. -/
theorem exists_literal?_leftBehind {text cs behind : List Char} {offset : Nat}
    (h : Reads text offset (cs ++ behind)) {word : String} (hword : word.toList ≠ [])
    (hoccurs : word.toList <:+: cs) :
    ∃ before, cs = before ++ (word.toList ++ leftBehind word.toList cs) ∧
      Locate.literal? text offset word =
        some ⟨offset + bytes before, offset + bytes before + bytes word.toList⟩ ∧
      Reads text (offset + bytes before + bytes word.toList)
        (leftBehind word.toList cs ++ behind) := by
  have hlonger := behindWord?_append (behindWord?_of_occurs hword hoccurs) behind
  rcases find_eq_behindWord? hword (cs ++ behind) with
    ⟨-, hnone⟩ | ⟨before, after, heq, hfind, hsome⟩
  · cases hnone.symm.trans hlonger
  · have hafter : after = leftBehind word.toList cs ++ behind :=
      Option.some.inj (hsome.symm.trans hlonger)
    refine ⟨before, ?_, Locate.literal?_eq h hword hfind, ?_⟩
    · rw [hafter, ← List.append_assoc word.toList, ← List.append_assoc before] at heq
      exact List.append_cancel_right heq
    · rw [← hafter]
      rw [heq] at h
      exact h.skip.skip

end Text

/-! ## Names behind a text -/

namespace Block

/-- The end of the text cannot be the beginning of a name. -/
def EndsApart (cs : List Char) : Prop :=
  ∀ c ∈ cs.getLast?, c ∈ separators

theorem EndsApart.misses {cs : List Char} (h : EndsApart cs) {name : String}
    (hname : isName name = true) (habsent : ¬name.toList <:+: cs) : Misses name.toList cs :=
  ⟨fun c hc => not_mem_of_isName hname (h c hc), habsent⟩

theorem EndsApart.of_append {first second : List Char} (h : EndsApart (first ++ second)) :
    EndsApart second := by
  intro c hc
  apply h c
  rw [List.getLast?_append, Option.mem_def.mp hc]
  rfl

/-- The first occurrence of a name is in a text or in what follows it. -/
theorem EndsApart.bytes_le_iff {gap rest before : List Char} (hgap : EndsApart gap) {name : String}
    (hname : isName name = true) (hrest : name.toList <:+: rest)
    (h : gap ++ rest = before ++ (name.toList ++ leftBehind name.toList (gap ++ rest))) :
    bytes gap ≤ bytes before ↔ ¬name.toList <:+: gap := by
  have hne := (isName_iff.mp hname).1
  have hbytes := congrArg bytes h
  simp only [bytes_append] at hbytes
  by_cases hoccurs : name.toList <:+: gap
  · have hpos := bytes_pos hne
    rw [leftBehind_append_of_occurs hne hoccurs, bytes_append] at hbytes
    refine ⟨fun hle => ?_, fun hnot => absurd hoccurs hnot⟩
    omega
  · obtain ⟨first, hfirst⟩ := exists_eq_append_leftBehind hne hrest
    have hlater := congrArg bytes hfirst
    simp only [bytes_append] at hlater
    rw [leftBehind_append_of_misses (hgap.misses hname hoccurs)] at hbytes
    refine ⟨fun _ => hoccurs, fun _ => ?_⟩
    omega

end Block

/-! ## Declarations on one line -/

def Span.Within (span whole : Span) : Prop :=
  whole.start ≤ span.start ∧ span.stop ≤ whole.stop

namespace Themes
namespace Declaration

open Block

def lead : Declaration → List Char
  | .plain _ => []
  | .aliasOf _ _ => ['\x7b']

def tail : Declaration → List Char
  | .plain _ => []
  | .aliasOf _ target => importGap ++ (target.toList ++ ['\x7d', '\x7d'])

/-- The declaration as it is written: a name, or an alias `{name: {import: target}}`. -/
def text (d : Declaration) : List Char :=
  d.lead ++ (d.name.toList ++ d.tail)

def value : Declaration → Yaml.Value
  | .plain name => .string name
  | .aliasOf name target =>
      .mapping [(.string name, .mapping [(.string Keyword.importKey, .string target)])]

def isWritten (d : Declaration) : Bool :=
  isName d.name && d.target?.all isName

theorem isWritten_iff {d : Declaration} : d.isWritten = true ↔
    isName d.name = true ∧ ∀ target, d.target? = some target → isName target = true := by
  rw [isWritten, Bool.and_eq_true]
  cases d.target? <;> simp

/-- Where a declaration is written whose text begins at `start`. -/
def place (d : Declaration) (start : Nat) : Span :=
  ⟨start, start + bytes d.text⟩

def namePlace (d : Declaration) (start : Nat) : Span :=
  ⟨start + bytes d.lead, start + bytes d.lead + bytes d.name.toList⟩

theorem ofValue?_value (d : Declaration) : ofValue? d.value = some d := by
  rw [ofValue?_eq_some_iff]
  cases d with
  | plain name => exact .plain name
  | aliasOf name target =>
      have hword : Keyword.importKey ∈ [Keyword.importKey, Keyword.aliasOf] := List.mem_cons_self
      exact .aliasOf rfl rfl hword rfl

theorem infix_name (d : Declaration) (unread : List Char) :
    d.name.toList <:+: unread ++ d.text :=
  ⟨unread ++ d.lead, d.tail, by simp [text]⟩

theorem infix_target {d : Declaration} {target : String} (h : d.target? = some target) :
    target.toList <:+: d.tail := by
  cases d with
  | plain name => cases h
  | aliasOf name other =>
      cases h
      exact ⟨importGap, ['\x7d', '\x7d'], by simp [tail]⟩

section

variable {d : Declaration} {unread : List Char}

theorem misses_lead (hname : isName d.name = true) (hunread : EndsApart unread)
    (hearly : ¬d.name.toList <:+: unread) : Misses d.name.toList (unread ++ d.lead) := by
  cases d with
  | plain name =>
      rw [lead, List.append_nil]
      exact hunread.misses hname hearly
  | aliasOf name target =>
      have hbrace : '\x7b' ∉ name.toList := not_mem_of_isName hname (by decide)
      constructor
      · intro c hc
        rw [lead, List.getLast?_concat] at hc
        cases hc
        exact hbrace
      · intro hoccurs
        rcases infix_append_cons hbrace hoccurs with h | h
        · exact hearly h
        · exact (isName_iff.mp hname).1 (List.infix_nil.mp h)

/-- The name is found where it is written, and the rest of the declaration is left. -/
theorem leftBehind_of_not_early (hname : isName d.name = true) (hunread : EndsApart unread)
    (hearly : ¬d.name.toList <:+: unread) :
    leftBehind d.name.toList (unread ++ d.text) = d.tail := by
  have hmisses := misses_lead hname hunread hearly
  rw [text, ← List.append_assoc, leftBehind_append_of_misses hmisses,
    leftBehind_self_append (isName_iff.mp hname).1]

/-- The name is found too early, and all of the declaration is left. -/
theorem leftBehind_of_early (hname : isName d.name = true) (hearly : d.name.toList <:+: unread) :
    leftBehind d.name.toList (unread ++ d.text) = leftBehind d.name.toList unread ++ d.text :=
  leftBehind_append_of_occurs (isName_iff.mp hname).1 hearly d.text

theorem tail_suffix_leftBehind (hname : isName d.name = true) (hunread : EndsApart unread) :
    d.tail <:+ leftBehind d.name.toList (unread ++ d.text) := by
  by_cases hearly : d.name.toList <:+: unread
  · rw [leftBehind_of_early hname hearly]
    exact ⟨leftBehind d.name.toList unread ++ (d.lead ++ d.name.toList), by simp [text]⟩
  · rw [leftBehind_of_not_early hname hunread hearly]

/-! ## The search for a declaration -/

variable {source behind : List Char} {offset : Nat}

theorem exists_name (hname : isName d.name = true) (hunread : EndsApart unread)
    (h : Reads source offset (unread ++ (d.text ++ behind))) :
    ∃ span, Locate.literal? source offset d.name = some span ∧ offset ≤ span.stop ∧
      Reads source span.stop (leftBehind d.name.toList (unread ++ d.text) ++ behind) ∧
      (span = d.namePlace (offset + bytes unread) ↔ ¬d.name.toList <:+: unread) := by
  have hne := (isName_iff.mp hname).1
  rw [← List.append_assoc] at h
  obtain ⟨before, hsplit, hfound, hreads⟩ := exists_literal?_leftBehind h hne (d.infix_name unread)
  refine ⟨_, hfound, by dsimp only; omega, hreads, ?_⟩
  have hbytes := congrArg bytes hsplit
  by_cases hearly : d.name.toList <:+: unread
  · have hpos := bytes_pos hne
    rw [leftBehind_of_early hname hearly] at hbytes
    simp only [bytes_append] at hbytes
    refine ⟨fun heq => ?_, fun hnot => absurd hearly hnot⟩
    have hstart := congrArg Span.start heq
    simp only [namePlace] at hstart
    omega
  · rw [leftBehind_of_not_early hname hunread hearly, text] at hbytes
    simp only [bytes_append] at hbytes
    refine ⟨fun _ => hearly, fun _ => ?_⟩
    have hstart : offset + bytes before = offset + bytes unread + bytes d.lead := by omega
    rw [hstart]
    rfl

/-- The target is searched behind the name.  It is found in the declaration, unless the name was
found too early and the target occurs between there and the declaration. -/
theorem exists_target {target : String} (hname : isName d.name = true)
    (htarget : isName target = true) (hunread : EndsApart unread)
    (hd : d.target? = some target) (h : Reads source offset (unread ++ (d.text ++ behind)))
    {stop : Nat} (hstop : Reads source stop
      (leftBehind d.name.toList (unread ++ d.text) ++ behind)) :
    ∃ span, Locate.literal? source stop target = some span ∧ stop ≤ span.stop ∧
      Reads source span.stop (leftBehind target.toList
        (leftBehind d.name.toList (unread ++ d.text)) ++ behind) ∧
      (span.Within (d.place (offset + bytes unread)) ↔ ¬d.name.toList <:+: unread ∨
        ¬target.toList <:+: leftBehind d.name.toList unread) := by
  have hne := (isName_iff.mp htarget).1
  have hahead : target.toList <:+: leftBehind d.name.toList (unread ++ d.text) :=
    (infix_target hd).trans (tail_suffix_leftBehind hname hunread).isInfix
  have hend : stop + bytes (leftBehind d.name.toList (unread ++ d.text)) =
      offset + bytes unread + bytes d.text := Reads.offset_eq hstop.skip h.skip.skip
  obtain ⟨before, hsplit, hfound, hreads⟩ := exists_literal?_leftBehind hstop hne hahead
  refine ⟨_, hfound, by dsimp only; omega, hreads, ?_⟩
  have hbytes := congrArg bytes hsplit
  simp only [bytes_append] at hbytes
  -- The span ends in the declaration, so what counts is where it begins.
  have hwithin : Span.Within ⟨stop + bytes before, stop + bytes before + bytes target.toList⟩
      (d.place (offset + bytes unread)) ↔ offset + bytes unread ≤ stop + bytes before := by
    simp only [Span.Within, place]
    omega
  rw [hwithin]
  by_cases hearly : d.name.toList <:+: unread
  · rw [leftBehind_of_early hname hearly] at hend hsplit
    rw [bytes_append] at hend
    have hapart : EndsApart (leftBehind d.name.toList unread) := by
      obtain ⟨first, hfirst⟩ := exists_eq_append_leftBehind (isName_iff.mp hname).1 hearly
      rw [hfirst, ← List.append_assoc] at hunread
      exact hunread.of_append
    have hrest : target.toList <:+: d.text :=
      (infix_target hd).trans ⟨d.lead ++ d.name.toList, [], by simp [text]⟩
    have hiff := hapart.bytes_le_iff htarget hrest hsplit
    rw [or_iff_right (not_not.mpr hearly), ← hiff]
    omega
  · rw [leftBehind_of_not_early hname hunread hearly] at hend
    simp only [text, bytes_append] at hend
    exact ⟨fun _ => .inl hearly, fun _ => by omega⟩

end

end Declaration

open Block Declaration

/-! ## Lists of declarations -/

def comma : List Char :=
  [',', ' ']

def listText : List Declaration → List Char
  | [] => [']']
  | [d] => d.text ++ [']']
  | d :: ds => d.text ++ (comma ++ listText ds)

theorem endsApart_comma (cs : List Char) : EndsApart (cs ++ comma) := by
  intro c hc
  rw [comma, List.getLast?_append] at hc
  cases hc
  decide

theorem listText_cons (d : Declaration) (ds : List Declaration) : ∃ behind,
    listText (d :: ds) = d.text ++ behind ∧ (ds ≠ [] → behind = comma ++ listText ds) := by
  cases ds with
  | nil => exact ⟨[']'], rfl, fun hne => absurd rfl hne⟩
  | cons e es => exact ⟨comma ++ listText (e :: es), rfl, fun _ => rfl⟩

/-- The problems of a list of declarations, in order, labelled where the declarations are written.
The first declaration begins at `start`; `seen` are the registered themes, each with the place of
the name that registered it.  A name that is registered already is labelled at the name, together
with that place; an alias of a theme that is not registered is labelled in its text. -/
inductive Labelled : List (String × Span) → Nat → List Declaration → List Diagnostic → Prop
  | nil {seen : List (String × Span)} {start : Nat} : Labelled seen start [] []
  | registered {seen : List (String × Span)} {start : Nat} {d : Declaration}
      {ds : List Declaration} {problems : List Diagnostic} :
      seen.lookup d.name = none →
      (∀ target, d.target? = some target → seen.lookup target ≠ none) →
      Labelled ((d.name, d.namePlace start) :: seen) ((d.place start).stop + 2) ds problems →
      Labelled seen start (d :: ds) problems
  | duplicate {seen : List (String × Span)} {start : Nat} {d : Declaration}
      {ds : List Declaration} {problems : List Diagnostic} {first : Span} :
      seen.lookup d.name = some first →
      Labelled seen ((d.place start).stop + 2) ds problems →
      Labelled seen start (d :: ds)
        ((Problem.duplicateTheme d.name first).placedAt (d.namePlace start) :: problems)
  | unknown {seen : List (String × Span)} {start : Nat} {d : Declaration}
      {ds : List Declaration} {problems : List Diagnostic} {target : String} {span : Span} :
      seen.lookup d.name = none → d.target? = some target → seen.lookup target = none →
      span.Within (d.place start) →
      Labelled seen ((d.place start).stop + 2) ds problems →
      Labelled seen start (d :: ds) ((Problem.unknownTarget target).placedAt span :: problems)

/-- Whether no problem of the declarations is labelled astray.  `known` are the registered themes,
each with whether its name was found where it is written; `unread` is the text from where the search
begins to the next declaration. -/
def clear (known : List (String × Bool)) (unread : List Char) : List Declaration → Bool
  | [] => true
  | d :: ds =>
      let found : Bool := ¬d.name.toList <:+: unread
      let left := leftBehind d.name.toList (unread ++ d.text)
      match known.lookup d.name, d.target?.filter fun target => (known.lookup target).isNone with
      | some first, _ => found && first && clear known (left ++ comma) ds
      | none, some target =>
          (found || ¬target.toList <:+: leftBehind d.name.toList unread) &&
            clear known (leftBehind target.toList left ++ comma) ds
      | none, none => clear ((d.name, found) :: known) (left ++ comma) ds

section

variable {seen : List (String × Span)} {start : Nat} {d : Declaration} {ds : List Declaration}
  {problems : List Diagnostic}

theorem labelled_registered_iff (hname : seen.lookup d.name = none)
    (htarget : ∀ target, d.target? = some target → seen.lookup target ≠ none) :
    Labelled seen start (d :: ds) problems ↔
      Labelled ((d.name, d.namePlace start) :: seen) ((d.place start).stop + 2) ds problems := by
  constructor
  · intro h
    cases h with
    | registered _ _ hrest => exact hrest
    | duplicate hfirst _ => cases hname.symm.trans hfirst
    | unknown _ hd hunknown _ _ => exact absurd hunknown (htarget _ hd)
  · exact .registered hname htarget

theorem labelled_duplicate_iff {span first place : Span} (hseen : seen.lookup d.name = some first) :
    Labelled seen start (d :: ds)
        ((Problem.duplicateTheme d.name place).placedAt span :: problems) ↔
      span = d.namePlace start ∧ place = first ∧
        Labelled seen ((d.place start).stop + 2) ds problems := by
  constructor
  · intro h
    generalize hproblem : (Problem.duplicateTheme d.name place).placedAt span = problem at h
    cases h with
    | registered hnone _ _ => cases hseen.symm.trans hnone
    | unknown hnone _ _ _ _ => cases hseen.symm.trans hnone
    | duplicate hfirst hrest =>
        cases hseen.symm.trans hfirst
        simp only [Problem.placedAt, Diagnostic.mk.injEq, List.cons.injEq, Label.mk.injEq, and_true,
          true_and] at hproblem
        exact ⟨hproblem.1, hproblem.2, hrest⟩
  · rintro ⟨rfl, rfl, hrest⟩
    exact .duplicate hseen hrest

theorem labelled_unknown_iff {target : String} {span : Span} (hname : seen.lookup d.name = none)
    (hd : d.target? = some target) (hunknown : seen.lookup target = none) :
    Labelled seen start (d :: ds) ((Problem.unknownTarget target).placedAt span :: problems) ↔
      span.Within (d.place start) ∧ Labelled seen ((d.place start).stop + 2) ds problems := by
  constructor
  · intro h
    generalize hproblem : (Problem.unknownTarget target).placedAt span = problem at h
    cases h with
    | registered _ hregistered _ => exact absurd hunknown (hregistered target hd)
    | duplicate hfirst _ => cases hname.symm.trans hfirst
    | unknown _ hother _ hwithin hrest =>
        cases hd.symm.trans hother
        simp only [Problem.placedAt, Diagnostic.mk.injEq, List.cons.injEq, Label.mk.injEq, and_true,
          true_and] at hproblem
        rw [hproblem]
        exact ⟨hwithin, hrest⟩
  · rintro ⟨hwithin, hrest⟩
    exact .unknown hname hd hunknown hwithin hrest

end

/-! ## Reading the list -/

/-- Where a theme was found, whether that is where it is written, and where it is written: all three
are there, or none. -/
def Agree (place? : Option Span) (found? : Option Bool) (first? : Option Span) : Prop :=
  (place? = none ∧ found? = none ∧ first? = none) ∨
    ∃ place found first, place? = some place ∧ found? = some found ∧ first? = some first ∧
      (place = first ↔ found = true)

/-- What is known about the themes that are registered so far. -/
structure Tracks (s : Declared) (known : List (String × Bool)) (seen : List (String × Span)) :
    Prop where
  inStep : s.InStep
  lookup : ∀ name, Agree (s.places.get? name) (known.lookup name) (seen.lookup name)

namespace Tracks

variable {s : Declared} {known : List (String × Bool)} {seen : List (String × Span)}

theorem contains_eq (h : Tracks s known seen) (name : String) :
    s.themes.contains name = (known.lookup name).isSome := by
  have hcontains : s.themes.contains name = true ↔ name ∈ s.themes.names := OrderedMap.contains_iff
  rcases h.lookup name with ⟨hplace, hknown, -⟩ | ⟨place, found, first, hplace, hknown, -, -⟩
  · rw [hknown]
    exact Bool.eq_false_iff.mpr (mt hcontains.mp ((h.inStep.places name).mp hplace))
  · rw [hknown]
    apply hcontains.mpr
    by_contra hnot
    rw [(h.inStep.places name).mpr hnot] at hplace
    cases hplace

theorem seen_eq_none_iff (h : Tracks s known seen) (name : String) :
    seen.lookup name = none ↔ known.lookup name = none := by
  rcases h.lookup name with ⟨-, hknown, hseen⟩ | ⟨place, found, first, -, hknown, hseen, -⟩
  all_goals simp [hknown, hseen]

/-- The themes that are registered stay as they are. -/
theorem keep (h : Tracks s known seen) (cursor : Cursor) (diagnostics : List Diagnostic) :
    Tracks ⟨s.themes, s.places, cursor, diagnostics⟩ known seen :=
  ⟨⟨h.inStep.ordered, h.inStep.places⟩, h.lookup⟩

theorem agree_insert (h : Tracks s known seen) (name : String) {place first : Span} {found : Bool}
    (hfound : place = first ↔ found = true) (other : String) :
    Agree ((s.places.insert name place).get? other) (List.lookup other ((name, found) :: known))
      (List.lookup other ((name, first) :: seen)) := by
  rw [OrderedMap.get?_insert, List.lookup_cons, List.lookup_cons]
  by_cases heq : other = name
  · subst heq
    exact .inr ⟨place, found, first, by simp, by simp, by simp, hfound⟩
  · rw [if_neg heq, beq_eq_false_iff_ne.mpr heq]
    exact h.lookup other

end Tracks

namespace Declared

variable {s : Declared} {d : Declaration} {span : Span} {anchor : Span}

theorem find_eq_of_literal? {word : String} (hspan : s.cursor.literal? word = some span)
    (hle : s.cursor.offset ≤ span.stop) (otherwise : Span) :
    s.find word otherwise =
      (span, ⟨s.themes, s.places, ⟨s.cursor.text, span.stop⟩, s.diagnostics⟩) := by
  rw [find, hspan, Option.getD_some, Cursor.advanceTo_of_le hle]

variable (hspan : s.cursor.literal? d.name = some span) (hle : s.cursor.offset ≤ span.stop)

include hspan hle

theorem declare_duplicate {place : Span} (hplace : s.places.get? d.name = some place) :
    s.declare anchor d.value = ⟨s.themes, s.places, ⟨s.cursor.text, span.stop⟩,
      s.diagnostics ++ [(Problem.duplicateTheme d.name place).placedAt span]⟩ := by
  simp only [declare, ofValue?_value, find_eq_of_literal? hspan hle, hplace]
  rfl

theorem declare_unknown {target : String} {place : Span} (hname : s.places.get? d.name = none)
    (hd : d.target? = some target) (hunknown : s.themes.contains target = false)
    (hplace : Locate.literal? s.cursor.text span.stop target = some place)
    (hbehind : span.stop ≤ place.stop) :
    s.declare anchor d.value = ⟨s.themes, s.places, ⟨s.cursor.text, place.stop⟩,
      s.diagnostics ++ [(Problem.unknownTarget target).placedAt place]⟩ := by
  have hfind : Declared.find ⟨s.themes, s.places, ⟨s.cursor.text, span.stop⟩, s.diagnostics⟩
      target span = (place, ⟨s.themes, s.places, ⟨s.cursor.text, place.stop⟩, s.diagnostics⟩) := by
    apply find_eq_of_literal?
    · exact hplace
    · exact hbehind
  simp only [declare, ofValue?_value, find_eq_of_literal? hspan hle, hname, hd,
    Option.filter_some, hunknown, Bool.not_false, if_true, hfind]
  rfl

theorem declare_registered (hname : s.places.get? d.name = none)
    (hd : d.target?.filter (fun target => !s.themes.contains target) = none) :
    s.declare anchor d.value = ⟨⟨s.themes.targets.insert d.name d.target?⟩,
      s.places.insert d.name span, ⟨s.cursor.text, span.stop⟩, s.diagnostics⟩ := by
  simp only [declare, ofValue?_value, find_eq_of_literal? hspan hle, hname, hd]

end Declared

/-- A declaration has been read that stands behind `unread`.  Its problems are the next ones, and
they are labelled where they belong if `right`; the search goes on with what is `left` of it. -/
def Advances (s s' : Declared) (known : List (String × Bool)) (seen : List (String × Span))
    (d : Declaration) (unread behind : List Char) : Prop :=
  ∃ known' seen' left problems, ∃ right : Prop,
    Tracks s' known' seen' ∧ s'.diagnostics = s.diagnostics ++ problems ∧
    s'.cursor.text = s.cursor.text ∧ Reads s.cursor.text s'.cursor.offset (left ++ behind) ∧
    ∀ ds, (clear known unread (d :: ds) = true ↔ right ∧ clear known' (left ++ comma) ds = true) ∧
      ∀ more, Labelled seen (s.cursor.offset + bytes unread) (d :: ds) (problems ++ more) ↔
        right ∧ Labelled seen' ((d.place (s.cursor.offset + bytes unread)).stop + 2) ds more

namespace Tracks

variable {s : Declared} {known : List (String × Bool)} {seen : List (String × Span)}
  {d : Declaration} {unread behind : List Char}

section

variable (h : Tracks s known seen) (anchor : Span) (hname : isName d.name = true)
  (hunread : EndsApart unread)
  (hread : Reads s.cursor.text s.cursor.offset (unread ++ (d.text ++ behind)))

include h hname hunread hread

theorem advances_duplicate {place first : Span} {found : Bool}
    (hplace : s.places.get? d.name = some place) (hknown : known.lookup d.name = some found)
    (hseen : seen.lookup d.name = some first) (hright : place = first ↔ found = true) :
    Advances s (s.declare anchor d.value) known seen d unread behind := by
  obtain ⟨span, hspan, hle, hstop, hfound⟩ := exists_name hname hunread hread
  rw [Declared.declare_duplicate hspan hle hplace]
  refine ⟨known, seen, leftBehind d.name.toList (unread ++ d.text),
    [(Problem.duplicateTheme d.name place).placedAt span], ¬d.name.toList <:+: unread ∧ found = true,
    h.keep _ _, rfl, rfl, hstop, fun ds => ⟨?_, fun more => ?_⟩⟩
  · simp only [clear, hknown, Bool.and_eq_true, decide_eq_true_eq]
  · rw [List.singleton_append, labelled_duplicate_iff hseen, hfound, hright, and_assoc]

theorem advances_unknown {target : String} (hplace : s.places.get? d.name = none)
    (hknown : known.lookup d.name = none) (hseen : seen.lookup d.name = none)
    (hd : d.target? = some target) (htarget : isName target = true)
    (hunknown : known.lookup target = none) :
    Advances s (s.declare anchor d.value) known seen d unread behind := by
  obtain ⟨span, hspan, hle, hstop, -⟩ := exists_name hname hunread hread
  obtain ⟨place, hfound, hforward, hreads, hwithin⟩ :=
    exists_target hname htarget hunread hd hread hstop
  have hcontains : s.themes.contains target = false := by
    rw [h.contains_eq, hunknown]
    rfl
  rw [Declared.declare_unknown hspan hle hplace hd hcontains hfound hforward]
  refine ⟨known, seen, leftBehind target.toList (leftBehind d.name.toList (unread ++ d.text)),
    [(Problem.unknownTarget target).placedAt place],
    ¬d.name.toList <:+: unread ∨ ¬target.toList <:+: leftBehind d.name.toList unread,
    h.keep _ _, rfl, rfl, hreads, fun ds => ⟨?_, fun more => ?_⟩⟩
  · simp only [clear, hknown, hd, Option.filter_some, hunknown, Option.isNone_none, if_true,
      Bool.and_eq_true, Bool.or_eq_true, decide_eq_true_eq]
  · rw [List.singleton_append,
      labelled_unknown_iff hseen hd ((h.seen_eq_none_iff target).mpr hunknown), hwithin]

theorem advances_registered (hplace : s.places.get? d.name = none)
    (hknown : known.lookup d.name = none) (hseen : seen.lookup d.name = none)
    (htarget : ∀ target, d.target? = some target → known.lookup target ≠ none) :
    Advances s (s.declare anchor d.value) known seen d unread behind := by
  obtain ⟨span, hspan, hle, hstop, hfound⟩ := exists_name hname hunread hread
  have hnone : d.target?.filter (fun target => (known.lookup target).isNone) = none := by
    rw [Option.filter_eq_none_iff]
    intro target hd
    rw [Option.isNone_iff_eq_none]
    exact htarget target hd
  have hcontains : d.target?.filter (fun target => !s.themes.contains target) = none := by
    simpa only [h.contains_eq, Option.not_isSome] using hnone
  have hinStep : (s.declare anchor d.value).InStep := h.inStep.declare d.value
  rw [Declared.declare_registered hspan hle hplace hcontains] at hinStep ⊢
  have hright : span = d.namePlace (s.cursor.offset + bytes unread) ↔
      decide (¬d.name.toList <:+: unread) = true := by
    rw [hfound, decide_eq_true_eq]
  refine ⟨_, _, leftBehind d.name.toList (unread ++ d.text), [], True,
    ⟨hinStep, h.agree_insert d.name hright⟩, (List.append_nil _).symm, rfl, hstop,
    fun ds => ⟨?_, fun more => ?_⟩⟩
  · simp only [clear, hknown, hnone, true_and]
  · rw [List.nil_append, true_and, labelled_registered_iff hseen]
    intro target hd
    rw [ne_eq, h.seen_eq_none_iff]
    exact htarget target hd

end

/-- The step: a declaration is registered, or one problem is reported. -/
theorem advances (h : Tracks s known seen) (anchor : Span) (hwritten : d.isWritten = true)
    (hunread : EndsApart unread)
    (hread : Reads s.cursor.text s.cursor.offset (unread ++ (d.text ++ behind))) :
    Advances s (s.declare anchor d.value) known seen d unread behind := by
  obtain ⟨hname, htarget⟩ := isWritten_iff.mp hwritten
  rcases h.lookup d.name with ⟨hplace, hknown, hseen⟩ |
    ⟨place, found, first, hplace, hknown, hseen, hright⟩
  · by_cases hregistered : ∀ target, d.target? = some target → known.lookup target ≠ none
    · exact h.advances_registered anchor hname hunread hread hplace hknown hseen hregistered
    · simp only [not_forall, not_not] at hregistered
      obtain ⟨target, hd, hunknown⟩ := hregistered
      exact h.advances_unknown anchor hname hunread hread hplace hknown hseen hd
        (htarget target hd) hunknown
  · exact h.advances_duplicate anchor hname hunread hread hplace hknown hseen hright

/-- The run: the labels are where they belong exactly if the scan says so. -/
theorem declareAll (h : Tracks s known seen) (anchor : Span)
    {decls : List Declaration} (hdecls : decls.all isWritten = true) {rest : List Char}
    (hunread : EndsApart unread) (hreads : decls ≠ [] →
      Reads s.cursor.text s.cursor.offset (unread ++ (listText decls ++ rest))) :
    ∃ problems, ((decls.map value).foldl (Declared.declare anchor) s).diagnostics =
        s.diagnostics ++ problems ∧
      (Labelled seen (s.cursor.offset + bytes unread) decls problems ↔
        clear known unread decls = true) := by
  induction decls generalizing s known seen unread with
  | nil => exact ⟨[], (List.append_nil _).symm, fun _ => rfl, fun _ => .nil⟩
  | cons d ds ih =>
      rw [List.all_cons, Bool.and_eq_true] at hdecls
      obtain ⟨behind, hcons, hbehind⟩ := listText_cons d ds
      have hread := hreads (List.cons_ne_nil d ds)
      rw [hcons, List.append_assoc] at hread
      obtain ⟨known', seen', left, first, right, hnext, hfirst, htext, hleft, hstep⟩ :=
        h.advances anchor hdecls.1 hunread hread
      obtain ⟨hclear, hlabelled⟩ := hstep ds
      -- Whatever is left, the next declaration begins behind this one and a comma.
      have hend := Reads.offset_eq hleft.skip hread.skip.skip
      have hcomma : bytes comma = 2 := rfl
      have hstart : (s.declare anchor d.value).cursor.offset + bytes (left ++ comma) =
          (d.place (s.cursor.offset + bytes unread)).stop + 2 := by
        rw [bytes_append, hcomma, ← Nat.add_assoc, hend]
        rfl
      obtain ⟨more, hmore, hiff⟩ := ih hnext hdecls.2 (endsApart_comma left) (fun hne => by
        rw [htext, List.append_assoc, ← List.append_assoc comma, ← hbehind hne]
        exact hleft)
      rw [hstart] at hiff
      refine ⟨first ++ more, ?_, ?_⟩
      · rw [List.map_cons, List.foldl_cons, hmore, hfirst, List.append_assoc]
      · rw [hlabelled, hiff, hclear]

end Tracks

/-! ## Lists that are labelled right -/

/-- A name behind an alias that occurs neither in the word `import` nor in the target. -/
def Apart (d e : Declaration) : Prop :=
  ∀ target, d.target? = some target →
    ¬e.name.toList <:+: Keyword.importKey.toList ∧ ¬e.name.toList <:+: target.toList

theorem Apart.absent {d e : Declaration} (h : Apart d e) (hname : isName e.name = true) :
    ¬e.name.toList <:+: d.tail ++ comma := by
  have hnot : ∀ {c : Char}, c ∈ separators → c ∉ e.name.toList := not_mem_of_isName hname
  cases d with
  | plain name => exact (misses_of_separators hname rfl).absent
  | aliasOf name target =>
      obtain ⟨hword, htarget⟩ := h target rfl
      have hpath : isPath e.name = true := by
        rw [isPath_iff]
        exact ⟨(isName_iff.mp hname).1, fun c hc => .inr ((isName_iff.mp hname).2 c hc)⟩
      have htext : (Declaration.aliasOf name target).tail ++ comma =
          ([':', ' ', '\x7b'] ++ (Keyword.importKey.toList ++ [':'])) ++
            ' ' :: (target.toList ++ '\x7d' :: ('\x7d' :: comma)) := by
        simp [tail, importGap]
      intro hoccurs
      rw [htext] at hoccurs
      rcases infix_append_cons (hnot (by decide)) hoccurs with hgap | hrest
      · refine hword ((infix_importGap_iff hpath).mp (hgap.trans ⟨[], [' '], ?_⟩))
        simp [importGap]
      · rcases infix_append_cons (hnot (by decide)) hrest with hfirst | hlast
        · exact htarget hfirst
        · exact (misses_of_separators hname rfl).absent hlast

theorem clear_of_isChain {known : List (String × Bool)} {unread : List Char}
    {decls : List Declaration} (hdecls : decls.all isWritten = true) (hunread : EndsApart unread)
    (hknown : ∀ name, known.lookup name ≠ some false)
    (hhead : ∀ d ∈ decls.head?, ¬d.name.toList <:+: unread) (hchain : decls.IsChain Apart) :
    clear known unread decls = true := by
  induction decls generalizing known unread with
  | nil => rfl
  | cons d ds ih =>
      rw [List.all_cons, Bool.and_eq_true] at hdecls
      have hwritten := isWritten_iff.mp hdecls.1
      rw [List.isChain_cons] at hchain
      have hfound := hhead d rfl
      have hleft := leftBehind_of_not_early hwritten.1 hunread hfound
      -- Only the end of this declaration is unread in front of the next one.
      have hnext : ∀ {left}, left <:+ d.tail →
          ∀ e ∈ ds.head?, ¬e.name.toList <:+: left ++ comma := by
        intro left hsuffix e he hoccurs
        have hwritten := isWritten_iff.mp
          (List.all_eq_true.mp hdecls.2 e (List.mem_of_mem_head? he))
        obtain ⟨before, hbefore⟩ := hsuffix
        refine (hchain.1 e he).absent hwritten.1 (hoccurs.trans ⟨before, [], ?_⟩)
        rw [← hbefore]
        simp
      simp only [clear, hleft, hfound, not_false_eq_true, decide_true, Bool.true_and, Bool.true_or]
      split
      · next found hfirst =>
          have htrue : found = true := by
            cases found with
            | true => rfl
            | false => exact absurd hfirst (hknown d.name)
          rw [htrue, Bool.true_and]
          exact ih hdecls.2 (endsApart_comma _) hknown (hnext (List.suffix_refl _)) hchain.2
      · next target _ htarget =>
          obtain ⟨hd, -⟩ := Option.filter_eq_some_iff.mp htarget
          have hisName := hwritten.2 target hd
          obtain ⟨before, hbefore⟩ :=
            exists_eq_append_leftBehind (isName_iff.mp hisName).1 (infix_target hd)
          rw [← List.append_assoc] at hbefore
          exact ih hdecls.2 (endsApart_comma _) hknown (hnext ⟨_, hbefore.symm⟩) hchain.2
      · refine ih hdecls.2 (endsApart_comma _) (fun name => ?_) (hnext (List.suffix_refl _))
          hchain.2
        rw [List.lookup_cons]
        split
        · simp
        · exact hknown name

theorem tracks_start (cursor : Cursor) : Tracks ⟨empty, .empty, cursor, []⟩ [] [] := by
  refine ⟨⟨empty_ordered, fun name => ?_⟩, fun name => .inl ⟨rfl, rfl, rfl⟩⟩
  exact OrderedMap.get?_eq_none_iff

/-- The problems of a list are labelled where its declarations are written exactly if the scan is
clear. -/
theorem build_labelled_iff {text gap rest : List Char} {anchor : Span} {decls : List Declaration}
    (hdecls : decls.all isWritten = true) (hgap : EndsApart gap)
    (hreads : Reads text anchor.stop (gap ++ (listText decls ++ rest))) :
    Labelled [] (anchor.stop + bytes gap) decls (build text anchor (decls.map value)).2 ↔
      clear [] gap decls = true := by
  obtain ⟨problems, hproblems, hiff⟩ :=
    (tracks_start ⟨text, anchor.stop⟩).declareAll anchor hdecls hgap (fun _ => hreads)
  rw [List.nil_append] at hproblems
  rw [build, hproblems]
  exact hiff

end Themes

/-! ## The problems of an analysis -/

namespace Analysis

open Themes

theorem ItemContext.about_themes_report {c : ItemContext} {inherited : List String}
    {r : ItemReport} (h : c.report inherited = .ok r) : about .themes r.diagnostics = [] := by
  have hchecked : ∀ {platforms themes}, c.Checked inherited platforms themes →
      about .themes (platforms ++ themes) = [] := by
    rintro platforms themes ⟨⟨after, hplatforms⟩, hthemes⟩
    rw [about_append, about_other (by decide) (Platforms.check_isAbout hplatforms),
      about_other (by decide) (themeProblems_isAbout hthemes)]
    rfl
  obtain ⟨-, ⟨marker, hr⟩ | ⟨type, bundle, hr⟩⟩ := report_cases h
  · obtain ⟨platforms, themes, problem, hc, hproblem, hdiagnostics⟩ := hr.diagnostics_eq
    have hisAbout : ∀ d ∈ [problem], d.isAbout .items = true :=
      (badType_reported hproblem).isAbout (by simp [Problem.topic])
    rw [hdiagnostics, about_append, hchecked hc, about_other (by decide) hisAbout]
    rfl
  · obtain ⟨platforms, themes, values, hc, hvalues, hdiagnostics⟩ := hr.diagnostics_eq
    have hresolve := resolve_isAbout hvalues
    rw [hdiagnostics, about_append, hchecked hc, List.nil_append]
    split at hresolve
    · rw [hresolve]
      rfl
    · exact about_other (by decide) hresolve

theorem Run.about_themes {setting : Setting} {visits : List Visit} {f f' : Findings}
    (hrun : Run setting visits f f') :
    DesignTokens.about .themes f'.diagnostics = DesignTokens.about .themes f.diagnostics := by
  induction hrun with
  | nil => rfl
  | platforms _ hcheck _ ih =>
      rw [ih, Findings.addDiagnostics, about_append,
        about_other (by decide) (Platforms.check_isAbout hcheck), List.append_nil]
  | item hreport _ ih =>
      rw [ih, Findings.addItem, about_append, ItemContext.about_themes_report hreport,
        List.append_nil]

/-- What an analysis reports about the themes is what reading their list reports. -/
theorem ofDocument_about_themes {options : Options} {text : List Char} {document : Document}
    {a : Analysis} (h : ofDocument options text document = .ok a) :
    readThemes text document = .ok (a.themes, about .themes a.diagnostics) := by
  obtain ⟨problems, hthemes, -, hrun⟩ := ofDocument_run h
  have hstart : about .themes (Findings.empty.addDiagnostics problems).diagnostics = problems :=
    about_self (readThemes_isAbout hthemes)
  rw [hthemes, ← hstart]
  exact congrArg _ (congrArg _ hrun.about_themes.symm)

/-- The themes are declared in a list on one line.  Then the problems of the list are labelled where
its declarations are written exactly if the scan is clear, as it is if no name right behind an alias
occurs in the word `import` or in the target of the alias. -/
theorem theme_problems_labelled_iff {text gap rest : List Char} {anchor : Span}
    {decls : List Declaration} (hdecls : decls.all Declaration.isWritten = true)
    (hgap : gap.all (· ∈ Block.separators) = true)
    (hkey : Locate.key text 0 Keyword.themes = .ok anchor)
    (hreads : Reads text anchor.stop (gap ++ (listText decls ++ rest)))
    {document : Document} (hthemes : document.themes = some (decls.map Declaration.value)) :
    ∃ themes problems, readThemes text document = .ok (themes, problems) ∧
      (∀ options a, ofDocument options text document = .ok a →
        a.themes = themes ∧ about .themes a.diagnostics = problems) ∧
      (Labelled [] (anchor.stop + bytes gap) decls problems ↔ clear [] gap decls = true) ∧
      (decls.IsChain Apart → clear [] gap decls = true) := by
  have hread : readThemes text document =
      .ok (build text anchor (decls.map Declaration.value)) := by
    have hcursor : Cursor.key ⟨text, 0⟩ Keyword.themes = .ok anchor := hkey
    simp only [readThemes, hthemes, hcursor]
    rfl
  have hseparators : ∀ c ∈ gap, c ∈ Block.separators := by simpa using hgap
  have hapart : Block.EndsApart gap :=
    fun c hc => hseparators c (List.mem_of_mem_getLast? hc)
  refine ⟨_, _, hread, fun options a ha => ?_, build_labelled_iff hdecls hapart hreads, ?_⟩
  · have hsame := (ofDocument_about_themes ha).symm.trans hread
    exact Prod.mk.inj (Except.ok.inj hsame)
  · intro hchain
    refine clear_of_isChain hdecls hapart (by simp) (fun d hd => ?_) hchain
    have hwritten := Declaration.isWritten_iff.mp
      (List.all_eq_true.mp hdecls d (List.mem_of_mem_head? hd))
    exact (Block.misses_of_separators hwritten.1 hgap).absent

/-- A name in between takes the search behind the alias. -/
example : clear [] Block.opening
    [.plain "light", .aliasOf "dark" "light", .plain "dusk", .plain "light"] = true := by decide

/-- An alias of a theme, and the theme once more right behind it. -/
def againText : List Char :=
  ".themes: [light, \x7bdark: \x7bimport: light\x7d\x7d, light]\n".toList

def againDeclarations : List Declaration :=
  [.plain "light", .aliasOf "dark" "light", .plain "light"]

/-- The name that comes again is written at 42, but reported in the alias before it. -/
theorem againText_astray : ∃ document a, Document.ofText againText = .ok document ∧
    ofDocument .default againText document = .ok a ∧
    document.themes = some (againDeclarations.map Declaration.value) ∧
    (Declaration.plain "light").namePlace 42 = ⟨42, 47⟩ ∧
    a.diagnostics = [(Problem.duplicateTheme "light" ⟨10, 15⟩).placedAt ⟨33, 38⟩] ∧
    ¬Labelled [] 10 againDeclarations (about .themes a.diagnostics) := by
  have hpasses : passes .default againText (fun document a =>
      decide (document.themes = some (againDeclarations.map Declaration.value) ∧
        a.diagnostics = [(Problem.duplicateTheme "light" ⟨10, 15⟩).placedAt ⟨33, 38⟩])) = true := by
    decide +kernel
  obtain ⟨document, a, hread, ha, htest⟩ := passes_iff.mp hpasses
  obtain ⟨hthemes, hdiagnostics⟩ := of_decide_eq_true htest
  obtain ⟨read, hsame, hdocument⟩ := ofText_eq_ok.mp ha
  cases hread.symm.trans hsame
  have hwritten : againDeclarations.all Declaration.isWritten = true := by decide
  have hgap : Block.opening.all (· ∈ Block.separators) = true := by decide
  have hkey : Locate.key againText 0 Keyword.themes = .ok ⟨0, 7⟩ := by rfl
  have hreads : dropBytes 7 againText =
      some (Block.opening ++ (listText againDeclarations ++ ['\n'])) := by decide
  obtain ⟨themes, problems, -, hproblems, hiff, -⟩ :=
    theme_problems_labelled_iff hwritten hgap hkey hreads hthemes
  refine ⟨document, a, hread, hdocument, hthemes, by decide, hdiagnostics, ?_⟩
  rw [(hproblems _ a hdocument).2]
  exact mt hiff.mp (by decide)

end Analysis
end DesignTokens
