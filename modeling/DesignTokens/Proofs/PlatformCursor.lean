import DesignTokens.Proofs.Block.Lists
import DesignTokens.Proofs.HoverOrder
import DesignTokens.Proofs.PlainDigits

/-!
Where the check of a list of platforms leaves the walk.

The names of the list are searched one behind the other, each in all that is left of the text, not
only in the list.  If the list spells its names, they are found in it, and the walk goes on from
there.  But the value of a list need not spell them: it can be an alias of another list, or write a
name with escapes.  Then a name that stands somewhere further on is found there, and the walk goes
on behind children that it has not come to.  `Fits` says exactly when this does not happen.
-/

namespace DesignTokens

/-! ## The first occurrence of a word -/

namespace Text

theorem exists_of_behindWord? {word cs rest : List Char} (h : behindWord? word cs = some rest) :
    ∃ before, cs = before ++ (word ++ rest) := by
  induction cs with
  | nil => cases h
  | cons c cs ih =>
      rw [behindWord?] at h
      split at h
      · next hprefix =>
          cases h
          exact ⟨[], (List.prefix_iff_eq_append.mp (List.isPrefixOf_iff_prefix.mp hprefix)).symm⟩
      · obtain ⟨before, rfl⟩ := ih h
        exact ⟨c :: before, rfl⟩

theorem behindWord?_eq_none_iff {word : List Char} (hword : word ≠ []) {cs : List Char} :
    behindWord? word cs = none ↔ ¬word <:+: cs := by
  constructor
  · rintro hnone ⟨before, after, rfl⟩
    rw [List.append_assoc] at hnone
    obtain ⟨_, _, -, hfind, -⟩ := exists_find_le hword before after
    rcases find_eq_behindWord? hword (before ++ (word ++ after)) with
      ⟨hnotFound, -⟩ | ⟨_, _, -, -, hsome⟩
    · cases hnotFound.symm.trans hfind
    · cases hnone.symm.trans hsome
  · intro hinfix
    refine Option.eq_none_iff_forall_ne_some.mpr fun rest hrest => hinfix ?_
    obtain ⟨before, rfl⟩ := exists_of_behindWord? hrest
    exact ⟨before, rest, List.append_assoc _ _ _⟩

/-- Text that is added behind does not move the first occurrence. -/
theorem behindWord?_append {word cs rest : List Char} (h : behindWord? word cs = some rest)
    (behind : List Char) : behindWord? word (cs ++ behind) = some (rest ++ behind) := by
  induction cs with
  | nil => cases h
  | cons c cs ih =>
      rw [behindWord?] at h
      rw [List.cons_append, behindWord?]
      split at h
      · next hprefix =>
          cases h
          rw [List.isPrefixOf_iff_prefix] at hprefix
          have hlonger : word <+: c :: (cs ++ behind) :=
            hprefix.trans (List.prefix_append (c :: cs) behind)
          rw [if_pos (List.isPrefixOf_iff_prefix.mpr hlonger), ← List.cons_append,
            List.drop_append_of_le_length hprefix.length_le]
      · next hprefix =>
          rw [List.isPrefixOf_iff_prefix] at hprefix
          -- The word occurs in what is left, so it is too short to begin here and end behind.
          obtain ⟨before, hcs⟩ := exists_of_behindWord? h
          have hnot : ¬word <+: c :: (cs ++ behind) := by
            intro hlonger
            refine hprefix (List.prefix_of_prefix_length_le hlonger
              (List.prefix_append (c :: cs) behind) ?_)
            simp only [hcs, List.length_cons, List.length_append]
            omega
          rw [if_neg (mt List.isPrefixOf_iff_prefix.mp hnot), ih h]

/-- What stands behind the first occurrence ends with what stands behind any other one. -/
theorem suffix_of_behindWord? {word before rest last : List Char}
    (h : behindWord? word (before ++ (word ++ rest)) = some last) : rest <:+ last := by
  induction before with
  | nil =>
      cases hwhole : [] ++ (word ++ rest) with
      | nil =>
          rw [hwhole] at h
          cases h
      | cons c cs =>
          have hprefix : word <+: c :: cs := hwhole ▸ List.prefix_append word rest
          rw [hwhole, behindWord?, if_pos (List.isPrefixOf_iff_prefix.mpr hprefix), ← hwhole,
            List.nil_append, List.drop_left] at h
          cases h
          exact List.suffix_refl rest
  | cons c cs ih =>
      rw [List.cons_append, behindWord?] at h
      split at h
      · cases h
        rw [← List.cons_append, ← List.append_assoc,
          List.drop_append_of_le_length (by simp only [List.length_append]; omega)]
        exact List.suffix_append _ rest
      · exact ih h

end Text

open Text

namespace Analysis
namespace Platforms

/-! ## Names that stay in the list -/

/-- Each name in turn stands in what is left of the value, or nowhere in what is left of the text.
The empty name is passed over. -/
def Fits : List String → List Char → List Char → Prop
  | [], _, _ => True
  | name :: names, value, behind =>
      match behindWord? name.toList value with
      | some rest => Fits names rest behind
      | none =>
          (name.toList = [] ∨ ¬name.toList <:+: value ++ behind) ∧ Fits names value behind

instance Fits.decidable : (names : List String) → (value behind : List Char) →
    Decidable (Fits names value behind)
  | [], _, _ => isTrue trivial
  | name :: names, value, behind =>
      match h : behindWord? name.toList value with
      | some rest =>
          have := Fits.decidable names rest behind
          decidable_of_iff (Fits names rest behind) (by rw [Fits, h])
      | none =>
          have := Fits.decidable names value behind
          decidable_of_iff
            ((name.toList = [] ∨ ¬name.toList <:+: value ++ behind) ∧ Fits names value behind)
            (by rw [Fits, h])

/-- The value spells the names, in their order. -/
def Spells : List String → List Char → Prop
  | [], _ => True
  | name :: names, value =>
      ∃ before rest, value = before ++ (name.toList ++ rest) ∧ Spells names rest

theorem Spells.of_suffix {names : List String} {value rest : List Char} (h : Spells names rest)
    (hsuffix : rest <:+ value) : Spells names value := by
  obtain ⟨before, rfl⟩ := hsuffix
  cases names with
  | nil => trivial
  | cons name names =>
      obtain ⟨first, last, rfl, hlast⟩ := h
      exact ⟨before ++ first, last, (List.append_assoc _ _ _).symm, hlast⟩

theorem Spells.fits {names : List String} {value : List Char} (h : Spells names value)
    (behind : List Char) : Fits names value behind := by
  induction names generalizing value with
  | nil => trivial
  | cons name names ih =>
      obtain ⟨before, rest, rfl, hrest⟩ := h
      rw [Fits]
      split
      · next last hlast => exact ih (hrest.of_suffix (suffix_of_behindWord? hlast))
      · next hnone =>
          have hempty : name.toList = [] := by
            by_contra hname
            exact (behindWord?_eq_none_iff hname).mp hnone ⟨before, rest, List.append_assoc _ _ _⟩
          refine ⟨.inl hempty, ih (hrest.of_suffix ?_)⟩
          exact (List.suffix_append _ rest).trans (List.suffix_append before _)

example : Spells ["ios", "web"] "\n  - ios\n  - 'web'\n".toList :=
  ⟨"\n  - ".toList, "\n  - 'web'\n".toList, by decide, "\n  - '".toList, "'\n".toList, by decide,
    trivial⟩

/-! ## Where the search for the names ends -/

section

variable {cursor : Cursor} {key : Span} {name : String} {rest : List Char}

/-- Where the next name is searched from. -/
def advance (key : Span) (cursor : Cursor) (name : String) : Cursor :=
  cursor.advanceTo ((cursor.literal? name).getD key).stop

theorem advance_of_none (hkey : key.stop ≤ cursor.offset) (h : cursor.literal? name = none) :
    advance key cursor name = cursor := by
  rw [advance, h, Option.getD_none, Cursor.advanceTo, Nat.max_eq_left hkey]

theorem literal?_of_isEmpty (h : name.toList = []) : cursor.literal? name = none := by
  have hempty : name.isEmpty = true := by
    rw [String.isEmpty_iff]
    exact String.toList_eq_nil_iff.mp h
  rw [Cursor.literal?, Locate.literal?, if_pos hempty]

theorem advance_of_behindWord? (hkey : key.stop ≤ cursor.offset)
    (hreads : Reads cursor.text cursor.offset rest) {after : List Char}
    (h : behindWord? name.toList rest = some after) :
    Reads cursor.text (advance key cursor name).offset after := by
  by_cases hname : name.toList = []
  · have hsame : after = rest := by
      cases rest with
      | nil => cases h
      | cons c cs =>
          rw [hname] at h
          exact (Option.some.inj h).symm
    rw [advance_of_none hkey (literal?_of_isEmpty hname), hsame]
    exact hreads
  · rcases Locate.literal?_behindWord? hreads hname with
      ⟨-, hnone⟩ | ⟨span, last, hspan, hlast, hstop⟩
    · cases hnone.symm.trans h
    · cases hlast.symm.trans h
      obtain ⟨before, rfl⟩ := exists_of_behindWord? h
      have hle : cursor.offset ≤ span.stop := by
        rw [Reads.offset_eq hstop hreads.skip.skip]
        omega
      rw [advance, Cursor.literal?, hspan, Option.getD_some, Cursor.advanceTo_of_le hle]
      exact hstop

theorem advance_of_absent (hkey : key.stop ≤ cursor.offset)
    (hreads : Reads cursor.text cursor.offset rest)
    (h : name.toList = [] ∨ ¬name.toList <:+: rest) : advance key cursor name = cursor := by
  by_cases hname : name.toList = []
  · exact advance_of_none hkey (literal?_of_isEmpty hname)
  · have hnone := (behindWord?_eq_none_iff hname).mpr (h.resolve_left hname)
    rcases Locate.literal?_behindWord? hreads hname with ⟨hliteral, -⟩ | ⟨_, _, -, hsome, -⟩
    · exact advance_of_none hkey hliteral
    · cases hnone.symm.trans hsome

/-- A name that stands behind the value only takes the search there. -/
theorem lt_advance (hkey : key.stop ≤ cursor.offset) {value behind : List Char}
    (hreads : Reads cursor.text cursor.offset (value ++ behind)) (hname : name.toList ≠ [])
    (hvalue : behindWord? name.toList value = none) (h : name.toList <:+: value ++ behind) :
    cursor.offset + bytes value < (advance key cursor name).offset := by
  obtain ⟨after, hafter⟩ :=
    Option.ne_none_iff_exists'.mp (mt (behindWord?_eq_none_iff hname).mp (not_not.mpr h))
  have hadvance := advance_of_behindWord? hkey hreads hafter
  -- An occurrence that ended in the value would lie in it.
  by_contra hge
  obtain ⟨middle, rfl, -⟩ := hadvance.between hreads.skip (Nat.le_of_not_lt hge)
  obtain ⟨before, hsplit⟩ := exists_of_behindWord? hafter
  rw [← List.append_assoc, ← List.append_assoc, List.append_cancel_right_eq] at hsplit
  exact (behindWord?_eq_none_iff hname).mp hvalue ⟨before, middle, hsplit.symm⟩

end

/-- The search for the names ends in the value exactly if they fit. -/
theorem checkFrom_le_iff (setting : Setting) (inherited : List String) (path : ItemPath)
    {key : Span} {cursor : Cursor} (hkey : key.stop ≤ cursor.offset) {value behind : List Char}
    (hreads : Reads cursor.text cursor.offset (value ++ behind)) (own : List String) :
    (checkFrom setting inherited path key cursor own).1.offset ≤ cursor.offset + bytes value ↔
      Fits own value behind := by
  induction own generalizing cursor value with
  | nil => simp [checkFrom, Fits]
  | cons name names ih =>
      have hstep : (checkFrom setting inherited path key cursor (name :: names)).1 =
          (checkFrom setting inherited path key (advance key cursor name) names).1 := rfl
      have hforward : cursor.offset ≤ (advance key cursor name).offset :=
        cursor.le_offset_advanceTo _
      rw [hstep, Fits]
      split
      · next rest hrest =>
          -- What is left of the value ends where the value does.
          have hnext := advance_of_behindWord? hkey hreads (behindWord?_append hrest behind)
          rw [Reads.offset_eq hreads.skip hnext.skip]
          exact ih (Nat.le_trans hkey hforward) hnext
      · next hnone =>
          by_cases habsent : name.toList = [] ∨ ¬name.toList <:+: value ++ behind
          · rw [advance_of_absent hkey hreads habsent, ih hkey hreads]
            simp only [habsent, true_and]
          · -- From behind the value no later name leads back.
            obtain ⟨hname, hlater⟩ := not_or.mp habsent
            have hlt : cursor.offset + bytes value < (advance key cursor name).offset :=
              lt_advance hkey hreads hname hnone (not_not.mp hlater)
            have hle := checkFrom_forward setting inherited path key (advance key cursor name) names
            simp only [habsent, false_and, iff_false]
            omega

theorem check_le_iff {setting : Setting} {own inherited : List String} (path : ItemPath)
    {cursor : Cursor} (hown : own ≠ []) {key : Span}
    (hkey : cursor.key Keyword.platforms = .ok key) :
    ∃ after diagnostics, check setting own inherited path cursor = .ok (after, diagnostics) ∧
      key.stop ≤ after.offset ∧
      ∀ value behind, Reads cursor.text key.stop (value ++ behind) →
        (after.offset ≤ key.stop + bytes value ↔ Fits own value behind) := by
  let start : Cursor := ⟨cursor.text, key.stop⟩
  refine ⟨_, _, Block.check_eq_of_key hown hkey (Locate.le_stop_of_key hkey),
    checkFrom_forward setting inherited path key start own, fun value behind hreads => ?_⟩
  have hstart : Reads start.text start.offset (value ++ behind) := hreads
  exact checkFrom_le_iff setting inherited path (Nat.le_refl _) hstart own

end Platforms
end Analysis

/-! ## The key of the next child -/

theorem Text.lines_append_of_not_mem {lead body line : List Char} {others : List (List Char)}
    (hlead : '\n' ∉ lead) (h : lines body = line :: others) :
    lines (lead ++ body) = (lead ++ line) :: others := by
  induction lead with
  | nil => exact h
  | cons c cs ih =>
      rw [List.mem_cons, not_or] at hlead
      have hc : ¬c = '\n' := fun heq => hlead.1 heq.symm
      rw [List.cons_append, lines, if_neg hc, ih hlead.2, List.cons_append]

namespace Locate

theorem keyInLine?_indent {lead : List Char} (h : ∀ c ∈ lead, isIndent c = true)
    (key line : List Char) :
    keyInLine? key (lead ++ line) = (keyInLine? key line).map (bytes lead + ·) := by
  simp only [keyInLine?, List.takeWhile_append_of_pos h, List.dropWhile_append_of_pos h]
  split
  · rw [Option.map_some, bytes_append, Nat.add_assoc]
  · rfl

/-- No line at or behind any place of the text declares the key. -/
def Undeclared (key cs : List Char) : Prop :=
  ∀ rest ∈ cs.tails, ∀ line ∈ lines rest, keyInLine? key line = none

instance (key cs : List Char) : Decidable (Undeclared key cs) :=
  inferInstanceAs (Decidable (∀ rest ∈ cs.tails, ∀ line ∈ lines rest, keyInLine? key line = none))

/-- Behind the text `between` there is a line that is indented by `lead` and declares the key `n`
bytes further on.  Nothing in between declares it. -/
structure DeclaredNext (key between lead body : List Char) (n : Nat) : Prop where
  newline : between.getLast? = some '\n'
  silent : Undeclared key between
  indent : lead.all isIndent = true
  declares : (lines body).head?.bind (keyInLine? key) = some n

namespace DeclaredNext

variable {key between lead body : List Char} {n : Nat}

theorem keyInLines?_lead (h : DeclaredNext key between lead body n) {todo : List Char}
    (htodo : todo <:+ lead) (offset : Nat) :
    keyInLines? key offset (lines (todo ++ body)) =
      some ⟨offset + (bytes todo + n), offset + (bytes todo + n) + bytes key⟩ := by
  obtain ⟨line, hline, hn⟩ := Option.bind_eq_some_iff.mp h.declares
  obtain ⟨others, hlines⟩ := List.head?_eq_some_iff.mp hline
  have hindent : ∀ c ∈ todo, isIndent c = true :=
    fun c hc => List.all_eq_true.mp h.indent c (htodo.subset hc)
  have hnewline : '\n' ∉ todo := fun hmem => absurd (hindent _ hmem) (by decide)
  rw [lines_append_of_not_mem hnewline hlines, keyInLines?, keyInLine?_indent hindent, hn]
  rfl

/-- The key is found on its line from wherever the search begins before it. -/
theorem keyInLines? (h : DeclaredNext key between lead body n) {todo : List Char}
    (htodo : todo <:+ between ++ lead) (offset : Nat) :
    keyInLines? key offset (lines (todo ++ body)) =
      some ⟨offset + (bytes todo + n), offset + (bytes todo + n) + bytes key⟩ := by
  obtain ⟨done, hdone⟩ := htodo
  rcases List.append_eq_append_iff.mp hdone with ⟨rest, hbetween, rfl⟩ | ⟨rest, rfl, hlead⟩
  · rcases List.eq_nil_or_concat' rest with rfl | ⟨front, last, rfl⟩
    · exact h.keyInLines?_lead (List.suffix_refl lead) offset
    · -- The lines up to the last newline in between declare nothing.
      have hlast : last = '\n' := by
        have hnewline := h.newline
        rw [hbetween, ← List.append_assoc, List.getLast?_concat] at hnewline
        exact Option.some.inj hnewline
      subst hlast
      have hsilent := h.silent (front ++ ['\n']) ((List.mem_tails _ _).mpr ⟨done, hbetween.symm⟩)
      have hsplit : front ++ ['\n'] ++ lead ++ body = front ++ '\n' :: (lead ++ body) := by simp
      rw [hsplit, lines_append_newline, keyInLines?_append hsilent, flatten_lines,
        h.keyInLines?_lead (List.suffix_refl lead)]
      simp only [bytes_append, Nat.add_assoc]
  · exact h.keyInLines?_lead ⟨rest, hlead.symm⟩ offset

end DeclaredNext
end Locate

/-! ## The theorem -/

namespace Analysis

def keyPlace (k : String) (start : Nat) : Span :=
  ⟨start, start + bytes k.toList⟩

variable {setting : Setting} {offset : Nat} {k : String} {between lead body : List Char} {n : Nat}

/-- A search that begins before the line of a key finds it there. -/
theorem key_of_le {start : Nat} (hreads : Reads setting.text start (between ++ lead ++ body))
    (hchild : Locate.DeclaredNext k.toList between lead body n) (hstart : start ≤ offset)
    (hoffset : IsBoundary setting.text offset) (hle : offset ≤ start + bytes (between ++ lead)) :
    (setting.cursorAt offset).key k =
      .ok (keyPlace k (start + (bytes (between ++ lead) + n))) := by
  obtain ⟨rest, hrest⟩ := isBoundary_iff.mp hoffset
  obtain ⟨done, hdone, hbytes⟩ := hreads.between hrest hstart
  obtain ⟨todo, rfl, htodo⟩ := hrest.between hreads.skip hle
  have hsuffix : todo <:+ between ++ lead :=
    ⟨done, by rwa [← List.append_assoc, List.append_cancel_right_eq, eq_comm] at hdone⟩
  have hall : offset + (bytes todo + n) = start + (bytes (between ++ lead) + n) := by omega
  rw [← hall]
  exact Locate.key_eq_ok hrest (hchild.keyInLines? hsuffix offset)

theorem key_of_lt {start : Nat} (hreads : Reads setting.text start body)
    (hbehind : Locate.Undeclared k.toList body.tail) (hlt : start < offset)
    (hoffset : IsBoundary setting.text offset) :
    (setting.cursorAt offset).key k = .error (.keyNotFound k offset) := by
  obtain ⟨rest, hrest⟩ := isBoundary_iff.mp hoffset
  obtain ⟨done, rfl, hbytes⟩ := hreads.between hrest (Nat.le_of_lt hlt)
  have hsuffix : rest <:+ (done ++ rest).tail := by
    cases done with
    | nil =>
        rw [bytes] at hbytes
        omega
    | cons c cs => exact List.suffix_append cs rest
  have hsilent := hbehind rest ((List.mem_tails _ _).mpr hsuffix)
  have hnone := Locate.keyInLines?_append hsilent offset []
  rw [List.append_nil, Locate.keyInLines?] at hnone
  have hdrop : dropBytes offset setting.text = some rest := hrest
  simp only [Cursor.key, Setting.cursorAt, Locate.key, hdrop, hnone]

theorem walkMembers_child_congr (own : Option (List String)) (inherited : List String)
    (path : ItemPath) {other : Nat}
    (h : (setting.cursorAt offset).key k = (setting.cursorAt other).key k) (node : Node)
    (members : List Member) (f : Findings) :
    walkMembers setting own inherited path (.child k node :: members) offset f =
      walkMembers setting own inherited path (.child k node :: members) other f := by
  rw [walkMembers, walkMembers, h]

theorem walkMembers_platforms {own inherited : List String} {path : ItemPath} {after : Cursor}
    {diagnostics : List Diagnostic}
    (h : Platforms.check setting own inherited path (setting.cursorAt offset) =
      .ok (after, diagnostics)) (members : List Member) (f : Findings) :
    walkMembers setting (some own) inherited path (.platforms :: members) offset f =
      walkMembers setting (some own) inherited path members after.offset
        (f.addDiagnostics diagnostics) := by
  rw [walkMembers, Option.getD_some, h]
  rfl

theorem Platforms.check_isBoundary {own inherited : List String} {path : ItemPath} {key : Span}
    {after : Cursor} {diagnostics : List Diagnostic}
    (hkey : (setting.cursorAt offset).key Keyword.platforms = .ok key)
    (h : check setting own inherited path (setting.cursorAt offset) = .ok (after, diagnostics)) :
    IsBoundary setting.text after.offset := by
  obtain ⟨rest, hrest, -⟩ := Locate.exists_of_key_eq_ok hkey
  have hcursor : (setting.cursorAt offset).Inside setting.text :=
    ⟨rfl, isBoundary_iff.mpr ⟨rest, hrest⟩⟩
  exact ((check_stays setting own inherited path hcursor).of_eq_ok h).1.offset

/-- The list of platforms that a collection declares is checked if its key is found, and the walk
goes on in the value of the list exactly if the names fit, as they do if the value spells them.

Let a child be declared on a line further on.  If the names fit in the text before its key, as they
do if they fit in the value, the child is found there, and the walk goes on as if it had come to
this line.  If they do not fit and no other line declares the child, the pass ends. -/
theorem platform_check_hides_no_child_iff {setting : Setting} {own inherited : List String}
    {path : ItemPath} {offset : Nat} {key : Span} (hown : own ≠ [])
    (hkey : (setting.cursorAt offset).key Keyword.platforms = .ok key) :
    ∃ after diagnostics,
      Platforms.check setting own inherited path (setting.cursorAt offset) =
        .ok (after, diagnostics) ∧
      ∀ value behind, Reads setting.text key.stop (value ++ behind) →
        (after.offset ≤ key.stop + bytes value ↔ Platforms.Fits own value behind) ∧
        (Platforms.Spells own value → Platforms.Fits own value behind) ∧
        ∀ k gap lead body n, behind = gap ++ lead ++ body →
          Locate.DeclaredNext k.toList (value ++ gap) lead body n → ∀ node members f,
          (Platforms.Fits own value behind → Platforms.Fits own (value ++ gap ++ lead) body) ∧
          (Platforms.Fits own (value ++ gap ++ lead) body →
            (setting.cursorAt after.offset).key k =
              .ok (keyPlace k (key.stop + (bytes (value ++ gap ++ lead) + n))) ∧
            walkMembers setting (some own) inherited path
                (.platforms :: .child k node :: members) offset f =
              walkMembers setting (some own) inherited path (.child k node :: members)
                (key.stop + bytes (value ++ gap)) (f.addDiagnostics diagnostics)) ∧
          (¬Platforms.Fits own (value ++ gap ++ lead) body →
            Locate.Undeclared k.toList body.tail →
            walkMembers setting (some own) inherited path
                (.platforms :: .child k node :: members) offset f =
              .error (.keyNotFound k after.offset)) := by
  obtain ⟨after, diagnostics, hcheck, hstart, hfits⟩ := Platforms.check_le_iff path hown hkey
  refine ⟨after, diagnostics, hcheck, fun value behind hreads =>
    ⟨hfits value behind hreads, fun hspells => hspells.fits behind, ?_⟩⟩
  rintro k gap lead body n rfl hchild node members f
  have hbefore : Reads setting.text key.stop (value ++ gap ++ lead ++ body) := by
    simpa only [List.append_assoc] using hreads
  have hfits' : after.offset ≤ key.stop + bytes (value ++ gap ++ lead) ↔
      Platforms.Fits own (value ++ gap ++ lead) body := hfits _ _ hbefore
  have hboundary := Platforms.check_isBoundary hkey hcheck
  have hwalk := walkMembers_platforms hcheck (.child k node :: members) f
  refine ⟨fun hvalue => hfits'.mp ?_, fun hbody => ?_, fun hbody hbehind => ?_⟩
  · have hle := (hfits _ _ hreads).mpr hvalue
    simp only [bytes_append]
    omega
  · have hfound := key_of_le hbefore hchild hstart hboundary (hfits'.mpr hbody)
    have hline : IsBoundary setting.text (key.stop + bytes (value ++ gap)) := by
      rw [List.append_assoc _ lead] at hbefore
      exact isBoundary_iff.mpr ⟨lead ++ body, hbefore.skip⟩
    have hthere := key_of_le hbefore hchild (Nat.le_add_right _ _) hline
      (by rw [bytes_append _ lead]; omega)
    refine ⟨hfound, hwalk.trans ?_⟩
    exact walkMembers_child_congr _ _ _ (hfound.trans hthere.symm) node members _
  · have hlt : key.stop + bytes (value ++ gap ++ lead) < after.offset :=
      Nat.lt_of_not_le (mt hfits'.mp hbody)
    rw [hwalk, walkMembers, key_of_lt hbefore.skip hbehind hlt hboundary]
    rfl

/-- A collection whose list is an alias, and a sibling behind it with the name of a platform. -/
def listAliasText : List Char :=
  (".platforms: &p [ios]\n.shared:\n a:\n  .platforms: *p\n  b:\n   .type: int\n   .value: 1\n"
    ++ " ios:\n  .type: int\n  .value: 2\n").toList

def listAliasSetting : Setting :=
  ⟨listAliasText, .default, .empty, ["ios"]⟩

/-- The name is found in the sibling's key, and the child in between is not found any more. -/
theorem listAliasText_hides_child : ∃ key after diagnostics,
    (listAliasSetting.cursorAt 32).key Keyword.platforms = .ok key ∧
    Platforms.check listAliasSetting ["ios"] ["ios"] (ItemPath.shared.child "a")
      (listAliasSetting.cursorAt 32) = .ok (after, diagnostics) ∧
    key.stop + bytes ": *p".toList < after.offset ∧
    (∀ node members f, walkMembers listAliasSetting (some ["ios"]) ["ios"]
        (ItemPath.shared.child "a") (.platforms :: .child "b" node :: members) 32 f =
      .error (.keyNotFound "b" after.offset)) ∧
    ofText .default listAliasText = .error (.locate (.keyNotFound "b" 87)) := by
  let key : Span := ⟨36, 46⟩
  let body : List Char :=
    "b:\n   .type: int\n   .value: 1\n ios:\n  .type: int\n  .value: 2\n".toList
  have hkey : (listAliasSetting.cursorAt 32).key Keyword.platforms = .ok key := by decide +kernel
  have hreads : Reads listAliasSetting.text key.stop
      (": *p".toList ++ ("\n".toList ++ "  ".toList ++ body)) := by
    rw [Reads]
    decide +kernel
  have hchild : Locate.DeclaredNext "b".toList (": *p".toList ++ "\n".toList) "  ".toList body 0 :=
    ⟨by decide +kernel, by decide +kernel, by decide +kernel, by decide +kernel⟩
  have hvalue : ¬Platforms.Fits ["ios"] ": *p".toList ("\n".toList ++ "  ".toList ++ body) := by
    decide +kernel
  have hbefore : ¬Platforms.Fits ["ios"] (": *p".toList ++ "\n".toList ++ "  ".toList) body := by
    decide +kernel
  have hbehind : Locate.Undeclared "b".toList body.tail := by decide +kernel
  have hfails : (match ofText .default listAliasText with
      | .error (.locate error) => decide (error = .keyNotFound "b" 87)
      | _ => false) = true := by
    decide +kernel
  obtain ⟨after, diagnostics, hcheck, hvalues⟩ :=
    platform_check_hides_no_child_iff (List.cons_ne_nil "ios" []) hkey
  obtain ⟨hfits, -, hchildren⟩ := hvalues _ _ hreads
  refine ⟨key, after, diagnostics, hkey, hcheck, ?_, fun node members f => ?_, ?_⟩
  · exact Nat.lt_of_not_le (mt hfits.mp hvalue)
  · obtain ⟨-, -, hhidden⟩ :=
      hchildren "b" "\n".toList "  ".toList body 0 rfl hchild node members f
    exact hhidden hbefore hbehind
  · split at hfails
    · next error herror => rw [herror, of_decide_eq_true hfails]
    · cases hfails

end Analysis
end DesignTokens
