import DesignTokens.Proofs.Places

/-!
The walk goes forward, and its hovers stand one behind the other.

A key is searched from where the walk has got to, so it stands there or further on, and what comes
after the node is searched from behind the key.  Hence no hover begins before the end of an earlier
one.  That it does not begin right at this end is seen from the text: an earlier key is followed by
its closing quote or by the colon, neither of which a key is found in unless it is empty or begins
with a colon itself.  The ends of hovers count as inside, but if all keys are of the usual form, no
offset belongs to two of them.
-/

namespace DesignTokens

namespace Text

theorem exists_lines_cons (c : Char) (cs : List Char) :
    ∃ line others, lines (c :: cs) = (c :: line) :: others := by
  rw [lines]
  split
  · exact ⟨[], lines cs, rfl⟩
  · split
    · exact ⟨[], [], rfl⟩
    · next line others _ => exact ⟨line, others, rfl⟩

theorem isBoundary_iff {text : List Char} {offset : Nat} :
    IsBoundary text offset ↔ ∃ rest, Reads text offset rest := by
  simp only [IsBoundary, reads_iff]
  exact exists_comm

end Text

/-! ## The place of a key -/

namespace Locate

open Text

/-- A key that is not empty and does not begin with a colon. -/
def isPlainKey : List Char → Bool
  | [] => false
  | c :: _ => c != ':'

/-- What ends a key stands at the offset. -/
def EndsAt (text : List Char) (offset : Nat) : Prop :=
  ∃ c rest, Reads text offset (c :: rest) ∧ endsKey c = true

theorem exists_of_key_eq_ok {text : List Char} {offset : Nat} {key : String} {span : Span}
    (h : Locate.key text offset key = .ok span) :
    ∃ rest, Reads text offset rest ∧ keyInLines? key.toList offset (lines rest) = some span := by
  rw [Locate.key] at h
  split at h
  · cases h
  · next rest hrest =>
      split at h
      · next found hfound =>
          cases h
          exact ⟨rest, hrest, hfound⟩
      · cases h

theorem keyInLines?_le {key : List Char} {offset : Nat} {lines : List (List Char)} {span : Span}
    (h : keyInLines? key offset lines = some span) : offset ≤ span.start := by
  induction lines generalizing offset with
  | nil => cases h
  | cons line lines ih =>
      rw [keyInLines?] at h
      split at h
      · cases h
        exact Nat.le_add_right _ _
      · exact Nat.le_trans (Nat.le_add_right _ _) (ih h)

theorem keyInLines?_endsAt {text key : List Char} {offset : Nat} {lines : List (List Char)}
    {span : Span} (hreads : Reads text offset lines.flatten)
    (h : keyInLines? key offset lines = some span) : EndsAt text span.stop := by
  induction lines generalizing offset with
  | nil => cases h
  | cons line lines ih =>
      rw [List.flatten_cons] at hreads
      rw [keyInLines?] at h
      split at h
      · next n hline =>
          cases h
          obtain ⟨before, c, after, rfl, rfl, hc⟩ := exists_end_of_keyInLine? hline
          simp only [List.append_assoc] at hreads
          exact ⟨c, after ++ lines.flatten, hreads.skip.skip, hc⟩
      · exact ih hreads.skip h

theorem keyInLine?_pos {key line : List Char} {c : Char} {n : Nat} (hplain : isPlainKey key = true)
    (hc : endsKey c = true) (h : keyInLine? key (c :: line) = some n) : 0 < n := by
  obtain ⟨first, more, rfl⟩ : ∃ first more, key = first :: more := by
    cases key with
    | nil => cases hplain
    | cons first more => exact ⟨first, more, rfl⟩
  have hfirst : first ≠ ':' := by simpa [isPlainKey] using hplain
  -- At a colon the key would begin with one, and a quote is passed over before the key.
  rcases Bool.or_eq_true_iff.mp hc with hcolon | hquote
  · rw [beq_iff_eq.mp hcolon] at h
    simp [keyInLine?, splitQuote, isIndent, isQuote, hfirst] at h
  · have hindent : isIndent c = false := by
      rcases Bool.or_eq_true_iff.mp hquote with hquote | hquote <;>
        rw [beq_iff_eq.mp hquote] <;> rfl
    have hpos := c.utf8Size_pos
    simp only [keyInLine?, List.takeWhile_cons, List.dropWhile_cons, hindent, splitQuote, hquote,
      Bool.false_eq_true, if_false, if_true, Option.ite_none_right_eq_some, Option.some.injEq,
      bytes] at h
    omega

/-- A plain key that is searched from the end of another one is found further on. -/
theorem lt_start_of_endsAt {text : List Char} {offset : Nat} {key : String} {span : Span}
    (hends : EndsAt text offset) (hplain : isPlainKey key.toList = true)
    (h : Locate.key text offset key = .ok span) : offset < span.start := by
  obtain ⟨c, cs, hreads, hc⟩ := hends
  obtain ⟨rest, hrest, hfound⟩ := exists_of_key_eq_ok h
  cases Option.some.inj (hreads.symm.trans hrest)
  obtain ⟨line, others, hlines⟩ := exists_lines_cons c cs
  rw [hlines, keyInLines?] at hfound
  split at hfound
  · next n hline =>
      have hpos := keyInLine?_pos hplain hc hline
      cases hfound
      exact Nat.lt_add_of_pos_right hpos
  · have hforward := keyInLines?_le hfound
    have hpos := c.utf8Size_pos
    rw [bytes] at hforward
    omega

/-- A key is found at or behind the offset, where it is spelled and ends. -/
theorem key_spec {text : List Char} {offset : Nat} {key : String} {span : Span}
    (h : Locate.key text offset key = .ok span) :
    offset ≤ span.start ∧ span.Marks text key.toList ∧ EndsAt text span.stop := by
  obtain ⟨rest, hrest, hfound⟩ := exists_of_key_eq_ok h
  have hflatten : Reads text offset (lines rest).flatten := by rwa [flatten_lines]
  have hboundary : IsBoundary text offset := isBoundary_iff.mpr ⟨rest, hrest⟩
  exact ⟨keyInLines?_le hfound, (key_stays hboundary key).of_eq_ok h,
    keyInLines?_endsAt hflatten hfound⟩

theorem le_stop_of_key {text : List Char} {offset : Nat} {key : String} {span : Span}
    (h : Locate.key text offset key = .ok span) : offset ≤ span.stop := by
  obtain ⟨hstart, hmarks, -⟩ := key_spec h
  exact Nat.le_trans hstart hmarks.inside.ordered

end Locate

/-! ## Hovers one behind the other -/

/-- The hover stands at a plain key. -/
def Hover.hasPlainKey (text : List Char) (hover : Hover) : Bool :=
  (Text.slice hover.span.start hover.span.stop text).any Locate.isPlainKey

/-- The second hover begins where the first one has ended, or behind that if it stands at a plain
key. -/
def Hover.Before (text : List Char) (first second : Hover) : Prop :=
  first.span.stop ≤ second.span.start ∧
    (second.hasPlainKey text = true → first.span.stop < second.span.start)

namespace Analysis

/-- Hovers of the items, one behind the other, that a walk which has got to the offset has left
behind. -/
structure Recorded (text : List Char) (items : List (ItemPath × Item)) (offset : Nat)
    (hovers : List Hover) : Prop where
  named : ∀ hover ∈ hovers, NamesItem text items hover
  passed : ∀ hover ∈ hovers, hover.span.stop ≤ offset ∧ Locate.EndsAt text hover.span.stop
  ordered : hovers.Pairwise (Hover.Before text)

namespace Recorded

variable {text : List Char} {items : List (ItemPath × Item)} {offset : Nat} {hovers : List Hover}

theorem nil (text : List Char) (items : List (ItemPath × Item)) (offset : Nat) :
    Recorded text items offset [] where
  named := by simp
  passed := by simp
  ordered := .nil

theorem forward (h : Recorded text items offset hovers) {further : Nat} (hle : offset ≤ further) :
    Recorded text items further hovers where
  named := h.named
  passed hover hmem := ⟨Nat.le_trans (h.passed hover hmem).1 hle, (h.passed hover hmem).2⟩
  ordered := h.ordered

/-- The key of a hover that is found from the offset stands behind all hovers so far. -/
theorem add (h : Recorded text items offset hovers) {hover : Hover} {key : String}
    (hkey : Locate.key text offset key = .ok hover.span) (hnamed : NamesItem text items hover) :
    Recorded text items hover.span.stop (hovers ++ [hover]) := by
  obtain ⟨hstart, hmarks, hends⟩ := Locate.key_spec hkey
  have hstop := Locate.le_stop_of_key hkey
  refine ⟨List.forall_mem_append.mpr ⟨h.named, by simpa using hnamed⟩,
    List.forall_mem_append.mpr ⟨(h.forward hstop).passed, by simpa using hends⟩, ?_⟩
  refine List.pairwise_append.mpr ⟨h.ordered, List.pairwise_singleton _ _, fun earlier hmem => ?_⟩
  obtain ⟨hpassed, hended⟩ := h.passed earlier hmem
  rw [List.forall_mem_singleton]
  refine ⟨Nat.le_trans hpassed hstart, fun hplain => ?_⟩
  -- The text behind an earlier hover matters only if the search begins right there.
  rcases Nat.lt_or_eq_of_le hpassed with hlt | heq
  · exact Nat.lt_of_lt_of_le hlt hstart
  · rw [Hover.hasPlainKey, hmarks.slice, Option.any_some] at hplain
    rw [heq] at hended ⊢
    exact Locate.lt_start_of_endsAt hended hplain hkey

end Recorded

/-! ## The walk -/

/-- To the hovers `past`, hovers of the items have been added by a walk which has got to the
offset. -/
def Findings.Adds (text : List Char) (items : List (ItemPath × Item)) (past : List Hover)
    (offset : Nat) (f : Findings) : Prop :=
  ∃ hovers, f.hovers = past ++ hovers ∧ Recorded text items offset hovers

theorem Findings.Adds.forward {text : List Char} {items : List (ItemPath × Item)}
    {past : List Hover} {offset further : Nat} {f : Findings}
    (h : f.Adds text items past offset) (hle : offset ≤ further) :
    f.Adds text items past further := by
  obtain ⟨hovers, heq, hrecorded⟩ := h
  exact ⟨hovers, heq, hrecorded.forward hle⟩

theorem Platforms.checkFrom_forward (setting : Setting) (inherited : List String) (path : ItemPath)
    (key : Span) (cursor : Cursor) (own : List String) :
    cursor.offset ≤ (checkFrom setting inherited path key cursor own).1.offset := by
  induction own generalizing cursor with
  | nil => exact Nat.le_refl _
  | cons platform own ih => exact Nat.le_trans (cursor.le_offset_advanceTo _) (ih _)

theorem Platforms.check_forward {setting : Setting} {own inherited : List String} {path : ItemPath}
    {cursor after : Cursor} {diagnostics : List Diagnostic}
    (h : check setting own inherited path cursor = .ok (after, diagnostics)) :
    cursor.offset ≤ after.offset := by
  rw [check] at h
  split at h
  · cases h
    exact Nat.le_refl _
  · simp only [bind_eq_ok, pure_eq_ok] at h
    obtain ⟨key, -, h⟩ := h
    have hforward := checkFrom_forward setting inherited path key (cursor.advanceTo key.stop) own
    rw [h] at hforward
    exact Nat.le_trans (cursor.le_offset_advanceTo _) hforward

theorem ItemContext.ending_forward {c : ItemContext} {next : Nat} (h : c.ending = .ok next) :
    c.key.stop ≤ next := by
  rw [ending] at h
  split at h
  · cases h
    exact Nat.le_refl _
  · simp only [bind_eq_ok, pure_eq_ok] at h
    obtain ⟨span, -, rfl⟩ := h
    exact c.body.le_offset_advanceTo _

section

variable {setting : Setting} {items : List (ItemPath × Item)} {past : List Hover}

theorem addItem_adds {c : ItemContext} (hsetting : c.setting = setting)
    (hmem : (c.path, c.item) ∈ items) {offset : Nat}
    (hkey : Locate.key setting.text offset c.path.ownKey = .ok c.key) {inherited : List String}
    {report : ItemReport} (hreport : c.report inherited = .ok report) {f : Findings}
    (hf : f.Adds setting.text items past offset) :
    c.key.stop ≤ report.next ∧
      (f.addItem c.path report).Adds setting.text items past report.next := by
  have hnext := ItemContext.ending_forward (ItemContext.report_cases hreport).1
  refine ⟨hnext, ?_⟩
  obtain ⟨hovers, heq, hrecorded⟩ := hf
  obtain ⟨-, hmarks, -⟩ := Locate.key_spec hkey
  have hinside := (c.report_stays (hsetting ▸ rfl) hmarks.inside inherited).of_eq_ok hreport
  cases hhover : report.hover with
  | none =>
      refine ⟨hovers, by simp [Findings.addItem, hhover, heq], hrecorded.forward ?_⟩
      exact Nat.le_trans (Locate.le_stop_of_key hkey) hnext
  | some hover =>
      obtain ⟨hshared, hpath, hspan⟩ := hinside.hover hover hhover
      refine ⟨hovers ++ [hover], by simp [Findings.addItem, hhover, heq], ?_⟩
      rw [← hspan] at hkey hmarks hnext
      exact (hrecorded.add hkey ⟨c.path, c.item, hmem, hshared, hpath, hmarks⟩).forward hnext

mutual

theorem walk_adds (inherited : List String) (path : ItemPath) {offset : Nat} {key : Span}
    (hkey : (setting.cursorAt offset).key path.ownKey = .ok key) (node : Node)
    (hitems : nodeItems path node ⊆ items) {f : Findings}
    (hf : f.Adds setting.text items past offset) {next : Nat} {f' : Findings}
    (h : walk setting inherited path key node f = .ok (next, f')) :
    key.stop ≤ next ∧ f'.Adds setting.text items past next := by
  cases node with
  | item content =>
      simp only [walk, bind_eq_ok, pure_eq_ok] at h
      obtain ⟨report, hreport, h⟩ := h
      cases h
      let c : ItemContext := ⟨setting, f.registry, content, path, key⟩
      have hmem : (c.path, c.item) ∈ items := hitems (by simp [nodeItems, c])
      exact addItem_adds (c := c) rfl hmem hkey hreport hf
  | collection own members =>
      rw [walk] at h
      rw [nodeItems] at hitems
      have hbody := hf.forward (Locate.le_stop_of_key hkey)
      exact walkMembers_adds own inherited path members hitems hbody h

theorem walkMembers_adds (own : Option (List String)) (inherited : List String) (path : ItemPath)
    (members : List Member) (hitems : memberItems path members ⊆ items) {offset : Nat}
    {f : Findings} (hf : f.Adds setting.text items past offset) {next : Nat} {f' : Findings}
    (h : walkMembers setting own inherited path members offset f = .ok (next, f')) :
    offset ≤ next ∧ f'.Adds setting.text items past next := by
  match members with
  | [] =>
      rw [walkMembers] at h
      cases h
      exact ⟨Nat.le_refl _, hf⟩
  | .platforms :: members =>
      simp only [walkMembers, bind_eq_ok] at h
      obtain ⟨⟨after, diagnostics⟩, hcheck, h⟩ := h
      rw [memberItems] at hitems
      have hafter : offset ≤ after.offset := Platforms.check_forward hcheck
      have hadds : (f.addDiagnostics diagnostics).Adds setting.text items past after.offset :=
        hf.forward hafter
      obtain ⟨hnext, hf'⟩ := walkMembers_adds own inherited path members hitems hadds h
      exact ⟨Nat.le_trans hafter hnext, hf'⟩
  | .child key node :: members =>
      simp only [walkMembers, bind_eq_ok] at h
      obtain ⟨span, hspan, ⟨behind, g⟩, hwalk, h⟩ := h
      rw [memberItems, List.append_subset] at hitems
      have hown : (setting.cursorAt offset).key (path.child key).ownKey = .ok span := by
        rwa [ItemPath.ownKey_child]
      obtain ⟨hbehind, hg⟩ := walk_adds _ _ hown node hitems.1 hf hwalk
      obtain ⟨hnext, hf'⟩ := walkMembers_adds own inherited path members hitems.2 hg h
      have hstop := Locate.le_stop_of_key hspan
      exact ⟨Nat.le_trans hstop (Nat.le_trans hbehind hnext), hf'⟩

end

theorem walk_hovers {inherited : List String} {path : ItemPath} {offset : Nat} {key : Span}
    (hkey : (setting.cursorAt offset).key path.ownKey = .ok key) {node : Node} {f f' : Findings}
    {next : Nat} (h : walk setting inherited path key node f = .ok (next, f')) :
    key.stop ≤ next ∧ f'.Adds setting.text (nodeItems path node) f.hovers next := by
  refine walk_adds inherited path hkey node (List.Subset.refl _) ?_ h
  exact ⟨[], (List.append_nil _).symm, .nil _ _ offset⟩

theorem walkSection_hovers {key : String} {path : ItemPath} (hown : path.ownKey = key)
    {node : Option Node} {f f' : Findings} (h : walkSection setting key path node f = .ok f') :
    ∃ next, f'.Adds setting.text (sectionItems path node) f.hovers next := by
  cases node with
  | none =>
      cases h
      exact ⟨0, [], (List.append_nil _).symm, .nil _ _ 0⟩
  | some node =>
      simp only [walkSection, bind_eq_ok, pure_eq_ok] at h
      obtain ⟨span, hspan, ⟨next, g⟩, hwalk, rfl⟩ := h
      rw [← hown] at hspan
      exact ⟨next, (walk_hovers hspan hwalk).2⟩

end

theorem ofDocument_hovers {options : Options} {text : List Char} {document : Document}
    {a : Analysis} (h : ofDocument options text document = .ok a) :
    ∃ next, Recorded text (sectionItems .themed (themedSection a.themes document)) next
      a.hovers := by
  simp only [ofDocument, bind_eq_ok, pure_eq_ok] at h
  obtain ⟨⟨themes, diagnostics⟩, -, f, hshared, g, hthemed, rfl⟩ := h
  have hsharedKey : ItemPath.shared.ownKey = Keyword.shared := rfl
  have hthemedKey : ItemPath.themed.ownKey = Keyword.themed := rfl
  obtain ⟨_, shared, hf, hrecorded⟩ := walkSection_hovers hsharedKey hshared
  -- The shared section has no hovers, so all of them are those of the themed one.
  have hnone : shared = [] := by
    refine List.eq_nil_iff_forall_not_mem.mpr fun hover hmem => ?_
    obtain ⟨path, item, hitem, hpath, -⟩ := hrecorded.named hover hmem
    rw [← sectionVisits_subjects []] at hitem
    rw [isShared_of_mem_shared hitem] at hpath
    cases hpath
  obtain ⟨next, hovers, hg, hrecorded⟩ := walkSection_hovers hthemedKey hthemed
  rw [hf, hnone] at hg
  have hall : g.hovers = hovers := hg
  rw [← hall] at hrecorded
  exact ⟨next, hrecorded⟩

/-! ## The theorem -/

/-- If no two elements of a list pass a test, the search for one that does gives any that does. -/
theorem find?_eq_some_iff_of_pairwise {α : Type} {p : α → Bool} {xs : List α}
    (h : xs.Pairwise fun x y => p x = true → p y = false) {x : α} :
    xs.find? p = some x ↔ x ∈ xs ∧ p x = true := by
  constructor
  · exact fun hfind => ⟨List.mem_of_find?_eq_some hfind, List.find?_some hfind⟩
  · rintro ⟨hmem, hx⟩
    induction h with
    | nil => cases hmem
    | @cons y ys hy _ ih =>
        rcases List.mem_cons.mp hmem with rfl | hmem
        · exact List.find?_cons_of_pos hx
        · have hnot : ¬p y = true := fun hpy => by
            rw [hy x hmem hpy] at hx
            cases hx
          rw [List.find?_cons_of_neg hnot]
          exact ih hmem

/-- A walk goes on behind the key of its node, and adds hovers of items that stand one behind the
other, apart from one another at plain keys.  If an analysis has hovers at plain keys only, the
hover at an offset is the one whose key stands there, both ends included. -/
theorem hovers_one_behind_the_other :
    (∀ (setting : Setting) (inherited : List String) (path : ItemPath) (offset : Nat) (key : Span)
        (node : Node) (f f' : Findings) (next : Nat),
      (setting.cursorAt offset).key path.ownKey = .ok key →
      walk setting inherited path key node f = .ok (next, f') →
      key.stop ≤ next ∧ ∃ hovers, f'.hovers = f.hovers ++ hovers ∧
        (∀ hover ∈ hovers, NamesItem setting.text (nodeItems path node) hover) ∧
        hovers.Pairwise (Hover.Before setting.text)) ∧
    ∀ (options : Options) (text : List Char) (document : Document) (a : Analysis),
      ofDocument options text document = .ok a →
      (∀ hover ∈ a.hovers,
        NamesItem text (sectionItems .themed (themedSection a.themes document)) hover) ∧
      a.hovers.Pairwise (Hover.Before text) ∧
      ((∀ hover ∈ a.hovers, hover.hasPlainKey text = true) → ∀ offset hover,
        a.hoverAt? offset = some hover ↔
          hover ∈ a.hovers ∧ hover.span.start ≤ offset ∧ offset ≤ hover.span.stop) := by
  refine ⟨fun setting inherited path offset key node f f' next hkey hwalk => ?_,
    fun options text document a ha => ?_⟩
  · obtain ⟨hnext, hovers, heq, hrecorded⟩ := walk_hovers hkey hwalk
    exact ⟨hnext, hovers, heq, hrecorded.named, hrecorded.ordered⟩
  · obtain ⟨next, hrecorded⟩ := ofDocument_hovers ha
    refine ⟨hrecorded.named, hrecorded.ordered, fun hplain offset hover => ?_⟩
    have hcontains : ∀ span : Span, span.contains offset = true ↔
        span.start ≤ offset ∧ offset ≤ span.stop := by simp [Span.contains]
    have hone : a.hovers.Pairwise fun first second : Hover =>
        first.span.contains offset = true → second.span.contains offset = false := by
      refine hrecorded.ordered.imp_of_mem fun {first second} _ hsecond hbefore hfirst => ?_
      have hlt := hbefore.2 (hplain second hsecond)
      have hle := (hcontains _).mp hfirst
      rw [Bool.eq_false_iff, ne_eq, hcontains]
      omega
    rw [hoverAt?, find?_eq_some_iff_of_pairwise hone, hcontains]

/-- Two colors, the second at a quoted key. -/
def twoColorsText : List Char :=
  (".themes: [d]\n.themed:\n a:\n  .type: color\n  d: ffaabbcc\n 'b':\n"
    ++ "  .type: color\n  d: ffddeeff\n").toList

theorem twoColorsText_hovers : ∃ document a, Document.ofText twoColorsText = .ok document ∧
    ofDocument .default twoColorsText document = .ok a ∧
    a.hovers.map (·.span) = [⟨23, 24⟩, ⟨57, 58⟩] ∧
    (∀ hover ∈ a.hovers, hover.hasPlainKey twoColorsText = true) ∧
    (∀ offset hover, a.hoverAt? offset = some hover ↔
      hover ∈ a.hovers ∧ hover.span.start ≤ offset ∧ offset ≤ hover.span.stop) ∧
    ∃ setting key node f next f', (setting.cursorAt 0).key ItemPath.themed.ownKey = .ok key ∧
      walk setting setting.platforms .themed key node f = .ok (next, f') ∧ key.stop ≤ next := by
  have hpasses : passes .default twoColorsText (fun document a =>
      decide (a.hovers.map (·.span) = [⟨23, 24⟩, ⟨57, 58⟩] ∧
        (∀ hover ∈ a.hovers, hover.hasPlainKey twoColorsText = true) ∧
        (themedSection a.themes document).isSome = true)) = true := by
    decide +kernel
  obtain ⟨document, a, hread, ha, htest⟩ := passes_iff.mp hpasses
  obtain ⟨hspans, hplain, hsome⟩ := of_decide_eq_true htest
  obtain ⟨read, hsame, hdocument⟩ := ofText_eq_ok.mp ha
  cases hread.symm.trans hsame
  obtain ⟨hwalks, hhovers⟩ := hovers_one_behind_the_other
  refine ⟨document, a, hread, hdocument, hspans, hplain,
    (hhovers .default twoColorsText document a hdocument).2.2 hplain, ?_⟩
  simp only [ofDocument, bind_eq_ok, pure_eq_ok] at hdocument
  obtain ⟨⟨themes, diagnostics⟩, -, f, -, g, hthemed, rfl⟩ := hdocument
  obtain ⟨node, hnode⟩ := Option.isSome_iff_exists.mp hsome
  rw [themedSection] at hnode
  simp only [hnode, walkSection, bind_eq_ok, pure_eq_ok] at hthemed
  obtain ⟨key, hkey, ⟨next, f'⟩, hwalk, -⟩ := hthemed
  exact ⟨_, key, node, f, next, f', hkey, hwalk, (hwalks _ _ _ _ _ _ _ _ _ hkey hwalk).1⟩

end Analysis
end DesignTokens
