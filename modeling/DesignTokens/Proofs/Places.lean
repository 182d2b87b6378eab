import DesignTokens.Proofs.Findings
import DesignTokens.Proofs.Imports
import DesignTokens.Proofs.Search
import DesignTokens.Settings

/-!
Every place that a pass names lies in the text.

A search for a key cuts the text at the offset where it begins, which fails past the end and inside a
character.  The offsets come from places that were found before, from the key that stands in for a
word that is not found, and from the larger of two such offsets.  So each of them is the end of a
prefix of the text, whatever the text has to do with the tree.  `Stays` says of a computation that
all its searches begin at such offsets, and what it comes to; it is proved function by function along
the pass.
-/

namespace DesignTokens
namespace Text

/-- A prefix of the text ends at the offset, so it is neither past the end nor inside a character. -/
def IsBoundary (text : List Char) (offset : Nat) : Prop :=
  ∃ before after, text = before ++ after ∧ bytes before = offset

theorem isBoundary_zero (text : List Char) : IsBoundary text 0 :=
  ⟨[], text, rfl, rfl⟩

theorem IsBoundary.le_bytes {text : List Char} {offset : Nat} (h : IsBoundary text offset) :
    offset ≤ bytes text := by
  obtain ⟨before, after, rfl, rfl⟩ := h
  rw [bytes_append]
  omega

theorem IsBoundary.max {text : List Char} {first second : Nat} (h : IsBoundary text first)
    (h' : IsBoundary text second) : IsBoundary text (max first second) := by
  rcases Nat.le_total first second with hle | hle
  · rwa [Nat.max_eq_right hle]
  · rwa [Nat.max_eq_left hle]

theorem exists_of_find {word cs : List Char} {n : Nat} (h : find word cs = some n) :
    ∃ before after, cs = before ++ (word ++ after) ∧ bytes before = n := by
  induction cs generalizing n with
  | nil =>
      simp only [find, Option.ite_none_right_eq_some, List.isEmpty_iff, Option.some.injEq] at h
      obtain ⟨rfl, rfl⟩ := h
      exact ⟨[], [], rfl, rfl⟩
  | cons c cs ih =>
      by_cases hprefix : word <+: c :: cs
      · obtain ⟨after, hafter⟩ := hprefix
        rw [find, if_pos (List.isPrefixOf_iff_prefix.mpr ⟨after, hafter⟩), Option.some.injEq] at h
        exact ⟨[], after, hafter.symm, h⟩
      · rw [find_skip hprefix, Option.map_eq_some_iff] at h
        obtain ⟨m, hm, rfl⟩ := h
        obtain ⟨before, after, rfl, rfl⟩ := ih hm
        exact ⟨c :: before, after, rfl, by rw [bytes, Nat.add_comm]⟩

end Text

namespace Span

open Text

/-- Both ends lie in the text, in order and between characters. -/
structure Inside (text : List Char) (span : Span) : Prop where
  ordered : span.start ≤ span.stop
  le_bytes : span.stop ≤ bytes text
  start : IsBoundary text span.start
  stop : IsBoundary text span.stop

/-- The span covers an occurrence of the word. -/
def Marks (text word : List Char) (span : Span) : Prop :=
  ∃ before after, text = before ++ (word ++ after) ∧
    span = ⟨bytes before, bytes before + bytes word⟩

theorem Marks.inside {text word : List Char} {span : Span} (h : span.Marks text word) :
    span.Inside text := by
  obtain ⟨before, after, rfl, rfl⟩ := h
  have hstop : IsBoundary (before ++ (word ++ after)) (bytes before + bytes word) :=
    ⟨before ++ word, after, (List.append_assoc _ _ _).symm, bytes_append before word⟩
  exact ⟨Nat.le_add_right _ _, hstop.le_bytes, ⟨before, word ++ after, rfl, rfl⟩, hstop⟩

theorem Marks.slice {text word : List Char} {span : Span} (h : span.Marks text word) :
    slice span.start span.stop text = some word := by
  obtain ⟨before, after, rfl, rfl⟩ := h
  exact Reads.slice (reads_iff.mpr ⟨before, rfl, rfl⟩)

end Span

/-! ## Computations that stay in the text -/

/-- The computation begins no search outside the text, and what it comes to is as described. -/
inductive Stays {α : Type} (post : α → Prop) : Except LocateError α → Prop
  | ok {a : α} : post a → Stays post (.ok a)
  | keyNotFound (key : String) (offset : Nat) : Stays post (.error (.keyNotFound key offset))

namespace Stays

variable {α β : Type} {post : α → Prop} {post' : β → Prop} {x : Except LocateError α}

theorem pure {a : α} (h : post a) : Stays post (Pure.pure a) :=
  .ok h

theorem bind {f : α → Except LocateError β} (h : Stays post x)
    (hf : ∀ a, post a → Stays post' (f a)) : Stays post' (x >>= f) := by
  cases h with
  | ok ha => exact hf _ ha
  | keyNotFound key offset => exact .keyNotFound key offset

theorem mapM {f : α → Except LocateError β} {xs : List α} (h : ∀ x ∈ xs, Stays post' (f x)) :
    Stays (fun ys => ∀ y ∈ ys, post' y) (xs.mapM f) := by
  induction xs with
  | nil => exact .ok (by simp)
  | cons x xs ih =>
      rw [List.forall_mem_cons] at h
      rw [List.mapM_cons]
      refine h.1.bind fun y hy => (ih h.2).bind fun ys hys => .pure ?_
      exact List.forall_mem_cons.mpr ⟨hy, hys⟩

theorem of_eq_ok (h : Stays post x) {a : α} (hx : x = .ok a) : post a := by
  subst hx
  cases h with
  | ok ha => exact ha

theorem ne_outsideText (h : Stays post x) (offset : Nat) : x ≠ .error (.outsideText offset) := by
  rintro rfl
  cases h

end Stays

/-! ## Searches -/

namespace Locate

open Text

theorem keyInLines?_marks {key before : List Char} {lines : List (List Char)} {span : Span}
    (h : keyInLines? key (bytes before) lines = some span) :
    span.Marks (before ++ lines.flatten) key := by
  induction lines generalizing before with
  | nil => cases h
  | cons line lines ih =>
      rw [keyInLines?] at h
      cases hline : keyInLine? key line with
      | some n =>
          simp only [hline, Option.some.injEq] at h
          subst h
          obtain ⟨lead, after, rfl, rfl⟩ := exists_of_keyInLine? hline
          exact ⟨before ++ lead, after ++ lines.flatten, by simp, by rw [bytes_append]⟩
      | none =>
          simp only [hline, ← bytes_append] at h
          rw [List.flatten_cons, ← List.append_assoc]
          exact ih h

/-- A key that is searched from a boundary is found where the text spells it, or not at all. -/
theorem key_stays {text : List Char} {offset : Nat} (h : IsBoundary text offset) (key : String) :
    Stays (Span.Marks text key.toList) (Locate.key text offset key) := by
  obtain ⟨before, after, rfl, rfl⟩ := h
  simp only [Locate.key, dropBytes_bytes_append]
  split
  · next span hfound =>
      have hmarks := keyInLines?_marks hfound
      rw [flatten_lines] at hmarks
      exact .ok hmarks
  · exact .keyNotFound key (bytes before)

theorem literal?_marks {text : List Char} {offset : Nat} {word : String} {span : Span}
    (h : literal? text offset word = some span) : span.Marks text word.toList := by
  simp only [literal?, Option.ite_none_left_eq_some, bind, Option.bind_eq_some_iff, pure,
    Option.some.injEq] at h
  obtain ⟨-, rest, hrest, n, hfind, rfl⟩ := h
  obtain ⟨before, rfl, rfl⟩ := dropBytes_eq_some_iff.mp hrest
  obtain ⟨gap, after, rfl, rfl⟩ := exists_of_find hfind
  exact ⟨before ++ gap, after, by simp, by rw [bytes_append]⟩

/-- A word that is not found stands where the key in its place does. -/
theorem literal?_getD_inside {text : List Char} {key : Span} (hkey : key.Inside text) (offset : Nat)
    (word : String) : ((literal? text offset word).getD key).Inside text := by
  cases h : literal? text offset word with
  | none => exact hkey
  | some span => exact (literal?_marks h).inside

end Locate

namespace Cursor

/-- The cursor stands in the text. -/
structure Inside (text : List Char) (c : Cursor) : Prop where
  text_eq : c.text = text
  offset : Text.IsBoundary text c.offset

theorem Inside.key {text : List Char} {c : Cursor} (h : c.Inside text) (key : String) :
    Stays (Span.Marks text key.toList) (c.key key) := by
  rw [Cursor.key, h.text_eq]
  exact Locate.key_stays h.offset key

theorem Inside.advanceTo {text : List Char} {c : Cursor} (h : c.Inside text) {offset : Nat}
    (hoffset : Text.IsBoundary text offset) : (c.advanceTo offset).Inside text :=
  ⟨h.text_eq, h.offset.max hoffset⟩

end Cursor

/-! ## Problems -/

/-- Every label marks a place in the text. -/
def Diagnostic.Inside (text : List Char) (d : Diagnostic) : Prop :=
  ∀ label ∈ d.labels, label.span.Inside text

theorem Diagnostic.errorAt_inside {text : List Char} {span : Span} (h : span.Inside text)
    (code : Code) (message label : String) :
    (Diagnostic.errorAt code message span label).Inside text := by
  intro l hl
  rw [List.mem_singleton.mp hl]
  exact h

namespace Themes

/-- The declarations so far are placed in the text. -/
structure Declared.Inside (text : List Char) (d : Declared) : Prop where
  text_eq : d.cursor.text = text
  places : ∀ name span, d.places.get? name = some span → span.Inside text
  diagnostics : ∀ x ∈ d.diagnostics, x.Inside text

theorem Declared.Inside.find {text : List Char} {d : Declared} (h : d.Inside text) (word : String)
    {otherwise : Span} (hotherwise : otherwise.Inside text) :
    (d.find word otherwise).1.Inside text ∧ (d.find word otherwise).2.Inside text := by
  refine ⟨?_, h.text_eq, h.places, h.diagnostics⟩
  simp only [Declared.find, Cursor.literal?, h.text_eq]
  exact Locate.literal?_getD_inside hotherwise _ word

theorem Declared.Inside.report {text : List Char} {d : Declared} (h : d.Inside text)
    {x : Diagnostic} (hx : x.Inside text) : (d.report x).Inside text := by
  refine ⟨h.text_eq, h.places, List.forall_mem_append.mpr ⟨h.diagnostics, ?_⟩⟩
  simpa using hx

theorem Declared.Inside.declare {text : List Char} {anchor : Span} (hanchor : anchor.Inside text)
    {d : Declared} (h : d.Inside text) (value : Yaml.Value) :
    (d.declare anchor value).Inside text := by
  simp only [Declared.declare]
  cases Declaration.ofValue? value with
  | none =>
      obtain ⟨hspan, hfound⟩ := h.find value.render hanchor
      exact hfound.report (Diagnostic.errorAt_inside hspan _ _ _)
  | some declaration =>
      obtain ⟨hspan, hfound⟩ := h.find declaration.name hanchor
      simp only
      split
      · next first hfirst =>
          refine hfound.report fun label hlabel => ?_
          simp only [Declared.duplicateTheme, List.mem_cons, List.not_mem_nil, or_false] at hlabel
          rcases hlabel with rfl | rfl
          · exact hspan
          · exact hfound.places _ first hfirst
      · next target _ _ =>
          obtain ⟨hplace, hfound'⟩ := hfound.find target hspan
          exact hfound'.report (Diagnostic.errorAt_inside hplace _ _ _)
      · refine ⟨hfound.text_eq, fun name span hget => ?_, hfound.diagnostics⟩
        rw [OrderedMap.get?_insert] at hget
        split at hget
        · cases hget
          exact hspan
        · exact hfound.places name span hget

theorem build_inside {text : List Char} {anchor : Span} (hanchor : anchor.Inside text)
    (values : List Yaml.Value) : ∀ x ∈ (build text anchor values).2, x.Inside text := by
  suffices hgen : ∀ d : Declared, d.Inside text →
      (values.foldl (Declared.declare anchor) d).Inside text from
    (hgen _ ⟨rfl, fun _ _ h => by simp [OrderedMap.empty, OrderedMap.get?, OrderedMap.find] at h,
      by simp⟩).diagnostics
  induction values with
  | nil => exact fun d hd => hd
  | cons value values ih => exact fun d hd => ih _ (hd.declare hanchor value)

end Themes

namespace Analysis

theorem readThemes_stays (text : List Char) (document : Document) :
    Stays (fun declared => ∀ d ∈ declared.2, d.Inside text) (readThemes text document) := by
  rw [readThemes]
  split
  · exact .ok (by simp)
  · next values _ =>
      have hstart : Cursor.Inside text ⟨text, 0⟩ := ⟨rfl, Text.isBoundary_zero text⟩
      refine (hstart.key Keyword.themes).bind fun anchor hanchor => .pure ?_
      exact Themes.build_inside hanchor.inside values

theorem Platforms.checkFrom_inside {text : List Char} (setting : Setting) (inherited : List String)
    (path : ItemPath) {key : Span} (hkey : key.Inside text) {cursor : Cursor}
    (hcursor : cursor.Inside text) (platforms : List String) :
    (Platforms.checkFrom setting inherited path key cursor platforms).1.Inside text ∧
      ∀ d ∈ (Platforms.checkFrom setting inherited path key cursor platforms).2, d.Inside text := by
  induction platforms generalizing cursor with
  | nil => exact ⟨hcursor, by simp [Platforms.checkFrom]⟩
  | cons platform platforms ih =>
      have hspan : ((cursor.literal? platform).getD key).Inside text := by
        rw [Cursor.literal?, hcursor.text_eq]
        exact Locate.literal?_getD_inside hkey _ platform
      obtain ⟨hafter, hrest⟩ := ih (hcursor.advanceTo hspan.stop)
      refine ⟨hafter, fun d hd => ?_⟩
      simp only [Platforms.checkFrom, List.mem_append, Option.mem_toList] at hd
      rcases hd with hd | hd
      · simp only [Platforms.check?] at hd
        split at hd
        · cases hd
          exact Diagnostic.errorAt_inside hspan _ _ _
        · split at hd
          · cases hd
            exact Diagnostic.errorAt_inside hspan _ _ _
          · cases hd
      · exact hrest d hd

theorem Platforms.check_stays {text : List Char} (setting : Setting) (own inherited : List String)
    (path : ItemPath) {cursor : Cursor} (hcursor : cursor.Inside text) :
    Stays (fun found => found.1.Inside text ∧ ∀ d ∈ found.2, d.Inside text)
      (Platforms.check setting own inherited path cursor) := by
  rw [Platforms.check]
  split
  · exact .ok ⟨hcursor, by simp⟩
  · refine (hcursor.key Keyword.platforms).bind fun key hkey => .pure ?_
    exact checkFrom_inside setting inherited path hkey.inside
      (hcursor.advanceTo hkey.inside.stop) own

theorem EntryFault.report?_inside {text : List Char} {fault : EntryFault} {setting : Setting}
    (htext : setting.text = text) {site : Span} (hsite : site.Inside text) {d : Diagnostic}
    (h : fault.report? setting site = some d) : d.Inside text := by
  simp only [EntryFault.report?] at h
  split at h
  · have hspan := fun word => Locate.literal?_getD_inside hsite site.stop word
    subst htext
    cases fault <;> simp only [EntryFault.subject?, EntryFault.diagnosticAt?, bind, Option.bind,
      Option.some.injEq, reduceCtorEq] at h <;> subst h <;>
      exact Diagnostic.errorAt_inside (hspan _) _ _ _
  · cases h

/-! ## Items -/

/-- The report on an item names places of the text only; a hover is that of a themed item, at its
key. -/
structure ItemReport.Inside (text : List Char) (c : ItemContext) (r : ItemReport) : Prop where
  diagnostics : ∀ d ∈ r.diagnostics, d.Inside text
  swatches : ∀ swatch ∈ r.swatches, swatch.2.Inside text
  hover : ∀ hover ∈ r.hover,
    c.path.isShared = false ∧ hover.path = c.path.text ∧ hover.span = c.key
  next : Text.IsBoundary text r.next

namespace ItemContext

variable {text : List Char} {c : ItemContext} (htext : c.setting.text = text)
  (hkey : c.key.Inside text)
include htext hkey

theorem body_inside : c.body.Inside text :=
  ⟨htext, hkey.stop⟩

omit htext in
theorem missingDefault?_inside : ∀ d ∈ c.missingDefault?.toList, d.Inside text := by
  intro d hd
  simp only [missingDefault?, Option.mem_toList, bind, Option.bind_eq_some_iff] at hd
  obtain ⟨name, -, hd⟩ := hd
  split at hd
  · cases hd
  · cases hd
    intro label hlabel
    rw [List.mem_singleton.mp hlabel]
    exact hkey

theorem themeProblems_stays : Stays (∀ d ∈ ·, d.Inside text) c.themeProblems := by
  rw [themeProblems]
  split
  · exact .ok (by simp)
  · have hunknown : Stays (∀ d ∈ ·, d.Inside text) c.unknownThemes := by
      refine .mapM fun name _ => ((body_inside htext hkey).key name).bind fun span hspan => .pure ?_
      exact Diagnostic.errorAt_inside hspan.inside _ _ _
    refine hunknown.bind fun unknown hunknown => .pure ?_
    exact List.forall_mem_append.mpr ⟨missingDefault?_inside hkey, hunknown⟩

theorem badType_stays (marker : String) : Stays (Diagnostic.Inside text) (c.badType marker) := by
  refine ((body_inside htext hkey).key Keyword.type).bind fun key hfound => .pure ?_
  rw [htext]
  exact Diagnostic.errorAt_inside (Locate.literal?_getD_inside hfound.inside _ marker) _ _ _

omit hkey in
theorem settle_inside {site : Option Span} (hsite : ∀ span ∈ site, span.Inside text)
    (result : Except EntryFault Value) : ∀ d ∈ (c.settle site result).2, d.Inside text := by
  cases result with
  | ok v => simp [settle]
  | error fault =>
      intro d hd
      simp only [settle, Option.mem_toList, Option.bind_eq_some_iff] at hd
      obtain ⟨span, hspan, hd⟩ := hd
      exact EntryFault.report?_inside htext (hsite span hspan) hd

theorem resolveThemes_stays (type : ItemType) (themes : List String) :
    Stays (fun resolved => ∀ d ∈ resolved.2, d.Inside text) (c.resolveThemes type themes) := by
  induction themes with
  | nil => exact .ok (by simp)
  | cons theme themes ih =>
      rw [resolveThemes]
      split
      · exact ih
      · next entry under _ =>
          refine ((body_inside htext hkey).key under).bind fun origin horigin => ?_
          refine ih.bind fun resolved hresolved => .pure ?_
          refine List.forall_mem_append.mpr ⟨settle_inside htext (fun span hspan => ?_) _, hresolved⟩
          obtain ⟨-, hspan⟩ := Option.mem_ite_none_right.mp hspan
          cases hspan
          exact horigin.inside

theorem resolve_stays (type : ItemType) :
    Stays (fun resolved => ∀ d ∈ resolved.2, d.Inside text) (c.resolve type) := by
  rw [resolve]
  split
  · rw [resolveShared]
    split
    · refine .ok fun d hd => ?_
      rw [List.mem_singleton.mp hd]
      exact Diagnostic.errorAt_inside hkey _ _ _
    · refine ((body_inside htext hkey).key Keyword.value).bind fun key hfound => .pure ?_
      refine settle_inside htext (fun span hspan => ?_) _
      cases hspan
      exact hfound.inside
  · refine (resolveThemes_stays htext hkey type _).bind fun resolved hresolved => .pure ?_
    exact hresolved

omit hkey in
theorem swatches_stays {cursor : Cursor} (hcursor : cursor.Inside text) (keys : List String) :
    Stays (fun swatches => ∀ s ∈ swatches, s.2.Inside text) (c.swatches cursor keys) := by
  induction keys generalizing cursor with
  | nil => exact .ok (by simp)
  | cons key keys ih =>
      rw [swatches]
      split
      · exact ih hcursor
      · refine (hcursor.key key).bind fun site hsite => ?_
        refine (ih (hcursor.advanceTo hsite.inside.stop)).bind fun rest hrest => .pure ?_
        refine List.forall_mem_append.mpr ⟨fun s hs => ?_, hrest⟩
        simp only [Option.mem_toList, bind, Option.bind_eq_some_iff, pure, Option.some.injEq] at hs
        obtain ⟨⟨word, color⟩, -, span, hspan, rfl⟩ := hs
        rw [htext] at hspan
        exact (Locate.literal?_marks hspan).inside

theorem ending_stays : Stays (Text.IsBoundary text) c.ending := by
  have hbody := body_inside htext hkey
  rw [ending]
  split
  · exact .ok hbody.offset
  · next key _ =>
      refine (hbody.key key).bind fun span hspan => .pure ?_
      exact (hbody.advanceTo hspan.inside.stop).offset

omit htext hkey in
theorem hover?_eq_some {bundle : Bundle} {hover : Hover} (h : c.hover? bundle = some hover) :
    c.path.isShared = false ∧ hover.path = c.path.text ∧ hover.span = c.key := by
  rw [hover?] at h
  split at h
  · cases h
  · next hshared =>
      cases h
      exact ⟨Bool.not_eq_true _ ▸ hshared, rfl, rfl⟩

theorem report_stays (inherited : List String) :
    Stays (ItemReport.Inside text c) (c.report inherited) := by
  have hbody := body_inside htext hkey
  rw [report]
  refine (Platforms.check_stays c.setting _ inherited c.path hbody).bind ?_
  rintro ⟨after, platforms⟩ ⟨-, hplatforms⟩
  refine (themeProblems_stays htext hkey).bind fun themes hthemes => ?_
  have hchecked : ∀ d ∈ platforms ++ themes, d.Inside text :=
    List.forall_mem_append.mpr ⟨hplatforms, hthemes⟩
  split
  · next marker _ =>
      refine (badType_stays htext hkey marker).bind fun problem hproblem => ?_
      refine (ending_stays htext hkey).bind fun next hnext => .pure ⟨?_, by simp, by simp, hnext⟩
      exact List.forall_mem_append.mpr ⟨hchecked, by simpa using hproblem⟩
  · next type _ =>
      refine (resolve_stays htext hkey type).bind ?_
      rintro ⟨bundle, values⟩ hvalues
      have hdiagnostics : ∀ d ∈ platforms ++ themes ++ values, d.Inside text :=
        List.forall_mem_append.mpr ⟨hchecked, hvalues⟩
      simp only
      split
      · refine (swatches_stays htext hbody _).bind fun swatches hswatches => ?_
        refine (ending_stays htext hkey).bind fun next hnext => .pure ?_
        exact ⟨hdiagnostics, hswatches, fun hover hhover => hover?_eq_some hhover, hnext⟩
      · have hnone : Stays (· = []) (.ok [] : Except LocateError (List (Color × Span))) := .ok rfl
        refine hnone.bind fun swatches hswatches => ?_
        refine (ending_stays htext hkey).bind fun next hnext => .pure ?_
        exact ⟨hdiagnostics, by simp [hswatches], by simp, hnext⟩

end ItemContext

end Analysis

/-! ## The walk -/

/-- The key that leads to a node: the last of its path, or that of the themed section. -/
def ItemPath.ownKey (path : ItemPath) : String :=
  path.segments.getLastD Keyword.themed

theorem ItemPath.ownKey_child (path : ItemPath) (key : String) : (path.child key).ownKey = key := by
  simp [ownKey, child]

theorem OrderedMap.forall_mem_put {α β : Type} [DecidableEq α] {P : α × β → Prop} {key : α}
    {f : Option β → β} {entries : List (α × β)} (h : ∀ e ∈ entries, P e)
    (hkey : ∀ old, (∀ v ∈ old, P (key, v)) → P (key, f old)) : ∀ e ∈ put key f entries, P e := by
  induction entries with
  | nil => simpa [put] using hkey none (by simp)
  | cons e es ih =>
      obtain ⟨k, v⟩ := e
      rw [List.forall_mem_cons] at h
      by_cases hk : k = key
      · subst hk
        rw [put, if_pos rfl]
        exact List.forall_mem_cons.mpr ⟨hkey (some v) (by simpa using h.1), h.2⟩
      · rw [put, if_neg hk]
        exact List.forall_mem_cons.mpr ⟨h.1, ih h.2⟩

/-- Every place of a grouping lies in the text. -/
def AllInside {α : Type} (text : List Char) (m : OrderedMap α (List Span)) : Prop :=
  ∀ entry ∈ m.entries, ∀ span ∈ entry.2, span.Inside text

theorem AllInside.extend {α : Type} [DecidableEq α] {text : List Char}
    {m : OrderedMap α (List Span)} (h : AllInside text m) (key : α) {span : Span}
    (hspan : span.Inside text) : AllInside text (m.extend key [span]) := by
  refine OrderedMap.forall_mem_put h fun old hold => ?_
  refine List.forall_mem_append.mpr ⟨?_, by simpa using hspan⟩
  cases old with
  | none => simp
  | some spans => exact hold spans rfl

namespace Analysis

/-- The hover stands at the key of one of the items, a themed one. -/
def NamesItem (text : List Char) (items : List (ItemPath × Item)) (hover : Hover) : Prop :=
  ∃ path item, (path, item) ∈ items ∧ path.isShared = false ∧ hover.path = path.text ∧
    hover.span.Marks text path.ownKey.toList

/-- All that was found so far lies in the text. -/
structure Findings.Inside (text : List Char) (items : List (ItemPath × Item)) (f : Findings) :
    Prop where
  diagnostics : ∀ d ∈ f.diagnostics, d.Inside text
  single : AllInside text f.decorations.single
  multi : AllInside text f.decorations.multi
  hovers : ∀ hover ∈ f.hovers, NamesItem text items hover

namespace Findings

variable {text : List Char} {items : List (ItemPath × Item)} {f : Findings}

theorem empty_inside (text : List Char) (items : List (ItemPath × Item)) :
    empty.Inside text items where
  diagnostics := by simp [empty]
  single := by simp [AllInside, empty, Decorations.empty, OrderedMap.empty]
  multi := by simp [AllInside, empty, Decorations.empty, OrderedMap.empty]
  hovers := by simp [empty]

theorem Inside.addDiagnostics (h : f.Inside text items) {diagnostics : List Diagnostic}
    (hnew : ∀ d ∈ diagnostics, d.Inside text) : (f.addDiagnostics diagnostics).Inside text items :=
  ⟨List.forall_mem_append.mpr ⟨h.diagnostics, hnew⟩, h.single, h.multi, h.hovers⟩

theorem foldl_addSingle_inside {swatches : List (Color × Span)} {d : Decorations}
    (hswatches : ∀ s ∈ swatches, s.2.Inside text) (h : AllInside text d.single) :
    AllInside text (swatches.foldl (fun d (color, span) => d.addSingle color span) d).single := by
  induction swatches generalizing d with
  | nil => exact h
  | cons s rest ih =>
      rw [List.forall_mem_cons] at hswatches
      exact ih hswatches.2 (h.extend s.1 hswatches.1)

theorem Inside.addItem (h : f.Inside text items) {c : ItemContext}
    (hkey : c.key.Marks text c.path.ownKey.toList) (hmem : (c.path, c.item) ∈ items)
    {report : ItemReport} (hreport : report.Inside text c) :
    (f.addItem c.path report).Inside text items := by
  have hsingle := foldl_addSingle_inside hreport.swatches h.single
  have hmulti := (foldl_addSingle report.swatches f.decorations).2
  have hdiagnostics := List.forall_mem_append.mpr ⟨h.diagnostics, hreport.diagnostics⟩
  cases hhover : report.hover with
  | none =>
      refine ⟨hdiagnostics, ?_, ?_, ?_⟩
      · simpa only [Findings.addItem, decorate, hhover] using hsingle
      · simpa only [Findings.addItem, decorate, hhover, hmulti] using h.multi
      · simpa [Findings.addItem, hhover] using h.hovers
  | some hover =>
      obtain ⟨hshared, hpath, hspan⟩ := hreport.hover hover hhover
      rw [← hspan] at hkey
      refine ⟨hdiagnostics, ?_, ?_, ?_⟩
      · simpa only [Findings.addItem, decorate, hhover, Decorations.addMulti] using hsingle
      · simp only [Findings.addItem, decorate, hhover, Decorations.addMulti, hmulti]
        exact h.multi.extend _ hkey.inside
      · simp only [Findings.addItem, hhover, Option.toList_some]
        refine List.forall_mem_append.mpr ⟨h.hovers, ?_⟩
        simpa using ⟨c.path, c.item, hmem, hshared, hpath, hkey⟩

end Findings

variable {text : List Char} {items : List (ItemPath × Item)} {setting : Setting}
  (htext : setting.text = text)
include htext

mutual

theorem walk_stays (inherited : List String) (path : ItemPath) {key : Span}
    (hkey : key.Marks text path.ownKey.toList) (node : Node) (hitems : nodeItems path node ⊆ items)
    {f : Findings} (hf : f.Inside text items) :
    Stays (fun found => Text.IsBoundary text found.1 ∧ found.2.Inside text items)
      (walk setting inherited path key node f) := by
  cases node with
  | item content =>
      rw [walk]
      let c : ItemContext := ⟨setting, f.registry, content, path, key⟩
      have hmem : (c.path, c.item) ∈ items := hitems (by simp [nodeItems, c])
      refine (c.report_stays htext hkey.inside inherited).bind fun report hreport => ?_
      have hadded : (f.addItem path report).Inside text items := hf.addItem (c := c) hkey hmem hreport
      exact .pure ⟨hreport.next, hadded⟩
  | collection own members =>
      rw [walk]
      rw [nodeItems] at hitems
      exact walkMembers_stays own inherited path members hitems hkey.inside.stop hf

theorem walkMembers_stays (own : Option (List String)) (inherited : List String) (path : ItemPath)
    (members : List Member) (hitems : memberItems path members ⊆ items) {offset : Nat}
    (hoffset : Text.IsBoundary text offset) {f : Findings} (hf : f.Inside text items) :
    Stays (fun found => Text.IsBoundary text found.1 ∧ found.2.Inside text items)
      (walkMembers setting own inherited path members offset f) := by
  have hcursor : (setting.cursorAt offset).Inside text := ⟨htext, hoffset⟩
  match members with
  | [] =>
      rw [walkMembers]
      exact .ok ⟨hoffset, hf⟩
  | .platforms :: members =>
      rw [walkMembers]
      rw [memberItems] at hitems
      refine (Platforms.check_stays setting _ inherited path hcursor).bind ?_
      rintro ⟨after, diagnostics⟩ ⟨hafter, hdiagnostics⟩
      exact walkMembers_stays own inherited path members hitems hafter.offset
        (hf.addDiagnostics hdiagnostics)
  | .child key node :: members =>
      rw [walkMembers]
      rw [memberItems, List.append_subset] at hitems
      refine (hcursor.key key).bind fun span hspan => ?_
      have hown : span.Marks text (path.child key).ownKey.toList := by
        rwa [ItemPath.ownKey_child]
      refine (walk_stays _ _ hown node hitems.1 hf).bind ?_
      rintro ⟨next, g⟩ ⟨hnext, hg⟩
      exact walkMembers_stays own inherited path members hitems.2 hnext hg

end

theorem walkSection_stays (key : String) (path : ItemPath) (hkey : path.ownKey = key)
    (node : Option Node) (hitems : sectionItems path node ⊆ items) {f : Findings}
    (hf : f.Inside text items) :
    Stays (Findings.Inside text items) (walkSection setting key path node f) := by
  cases node with
  | none => exact .ok hf
  | some node =>
      have hstart : (setting.cursorAt 0).Inside text := ⟨htext, Text.isBoundary_zero text⟩
      rw [walkSection]
      refine (hstart.key key).bind fun span hspan => ?_
      rw [← hkey] at hspan
      exact (walk_stays htext setting.platforms path hspan node hitems hf).bind
        fun found hfound => .pure hfound.2

omit htext

theorem ofDocument_stays (options : Options) (text : List Char) (document : Document) :
    Stays (fun a => Findings.Inside text (walkOrder a.themes document)
        ⟨a.registry, a.diagnostics, a.decorations, a.hovers⟩)
      (ofDocument options text document) := by
  rw [ofDocument]
  refine (readThemes_stays text document).bind ?_
  rintro ⟨themes, diagnostics⟩ hdiagnostics
  let setting : Setting := ⟨text, options, themes, document.platforms.getD []⟩
  have htext : setting.text = text := rfl
  have hstart := (Findings.empty_inside text (walkOrder themes document)).addDiagnostics hdiagnostics
  refine (walkSection_stays htext Keyword.shared .shared rfl document.shared
    (List.subset_append_left _ _) hstart).bind fun f hf => ?_
  refine (walkSection_stays htext Keyword.themed .themed rfl (themedSection themes document)
    (List.subset_append_right _ _) hf).bind fun g hg => ?_
  exact .pure hg

/-! ## The theorem -/

/-- All places of an analysis lie in the text, and every hover covers the key of a themed item. -/
structure Placed (text : List Char) (document : Document) (a : Analysis) : Prop where
  labels : ∀ d ∈ a.diagnostics, ∀ label ∈ d.labels, label.span.Inside text
  swatches : ∀ entry ∈ a.decorations.single.entries, ∀ span ∈ entry.2, span.Inside text
  rows : ∀ entry ∈ a.decorations.multi.entries, ∀ span ∈ entry.2, span.Inside text
  hovers : ∀ hover ∈ a.hovers, hover.span.Inside text ∧
    ∃ path item, (path, item) ∈ sectionItems .themed (themedSection a.themes document) ∧
      hover.path = path.text ∧
      Text.slice hover.span.start hover.span.stop text = some path.ownKey.toList

theorem placed_of_inside {text : List Char} {document : Document} {a : Analysis}
    (h : Findings.Inside text (walkOrder a.themes document)
      ⟨a.registry, a.diagnostics, a.decorations, a.hovers⟩) : Placed text document a := by
  refine ⟨h.diagnostics, h.single, h.multi, fun hover hhover => ?_⟩
  obtain ⟨path, item, hmem, hshared, hpath, hmarks⟩ := h.hovers hover hhover
  refine ⟨hmarks.inside, path, item, ?_, hpath, hmarks.slice⟩
  rcases List.mem_append.mp hmem with hmem | hmem
  · rw [← sectionVisits_subjects []] at hmem
    rw [isShared_of_mem_shared hmem] at hshared
    cases hshared
  · exact hmem

/-- A document is accepted exactly if nothing is reported but themes that are declared twice. -/
theorem isOk_check_iff {options : Options} {text : List Char} {a : Analysis}
    (ha : ofText options text = .ok a) (hwell : ∀ d ∈ a.diagnostics, d.WellFormed) :
    (check options text).isOk = true ↔ ∀ d ∈ a.diagnostics, d.code = some .duplicateTheme := by
  have hcheck : (check options text).isOk = !a.hasErrors := by
    simp only [check, analyze, ha, bind, Except.bind]
    cases a.hasErrors <;> rfl
  rw [hcheck, hasErrors, Bool.not_eq_true', List.any_eq_false]
  refine forall₂_congr fun d hd => ?_
  rw [← (hwell d hd).severity, Diagnostic.isError]
  cases d.severity <;> decide

/-- No search begins outside the text, and all places of an analysis lie in it.  Every problem has a
code and one primary label, and is a warning only if a theme is declared twice. -/
theorem places_lie_in_text (options : Options) (text : List Char) :
    (∀ offset, ofText options text ≠ .error (.locate (.outsideText offset))) ∧
    ∀ document a, Document.ofText text = .ok document → ofText options text = .ok a →
      Placed text document a ∧ (∀ d ∈ a.diagnostics, d.WellFormed) ∧
      ((check options text).isOk = true ↔
        ∀ d ∈ a.diagnostics, d.code = some .duplicateTheme) := by
  constructor
  · intro offset hofText
    rw [ofText] at hofText
    split at hofText
    · cases hofText
    · next document _ =>
        have hstays := ofDocument_stays options text document
        split at hofText
        · next error herror =>
            cases hofText
            exact hstays.ne_outsideText offset herror
        · cases hofText
  · intro document a hread ha
    obtain ⟨read, hsame, hdocument⟩ := ofText_eq_ok.mp ha
    cases hread.symm.trans hsame
    have hwell := (ofDocument_wellFormed hdocument).diagnostics
    exact ⟨placed_of_inside ((ofDocument_stays options text document).of_eq_ok hdocument), hwell,
      isOk_check_iff ha hwell⟩

/-- A color whose key takes more bytes than characters, and a theme that is declared twice. -/
def umlautText : List Char :=
  (".themes: [tag, tag]\n.themed:\n  überschrift:\n    .type: color\n    tag: ff102030\n").toList

theorem umlautText_placed : ∃ document a, Document.ofText umlautText = .ok document ∧
    ofText .default umlautText = .ok a ∧ a.hovers.map (·.span) = [⟨31, 43⟩] ∧
    (check .default umlautText).isOk = true ∧ Placed umlautText document a := by
  have hpasses : passes .default umlautText (fun _ a =>
      decide (a.hovers.map (·.span) = [⟨31, 43⟩] ∧
        ∀ d ∈ a.diagnostics, d.code = some .duplicateTheme)) = true := by
    decide +kernel
  obtain ⟨document, a, hread, ha, htest⟩ := passes_iff.mp hpasses
  obtain ⟨hspans, hcodes⟩ := of_decide_eq_true htest
  obtain ⟨hplaced, -, hcheck⟩ := (places_lie_in_text .default umlautText).2 document a hread ha
  exact ⟨document, a, hread, ha, hspans, hcheck.mpr hcodes, hplaced⟩

end Analysis
end DesignTokens
