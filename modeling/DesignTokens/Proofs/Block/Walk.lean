import DesignTokens.Proofs.Block.ItemMarks

/-!
The walk over a node of a block document.

Whatever the lists of platforms are, every key is found and the walk ends before the lines behind the
node.  If no list has its first name taken from its own key, everything is marked where it is
written.  If one has, the first such list gets a problem at a wrong place, at least if the document
declares no platforms.
-/

namespace DesignTokens
namespace Block

open Text Locate Analysis

/-! ## The node that a value describes -/

theorem Node.areValid_platforms {names : List String} {members : List Member} :
    Node.areValid (.platforms names :: members) = true ↔
      names.all isName = true ∧ Node.areValid members = true := by
  rw [Node.areValid, Bool.and_eq_true]

theorem Node.areValid_child {key : String} {node : Node} {members : List Member} :
    Node.areValid (.child key node :: members) = true ↔
      isName key = true ∧ node.isValid = true ∧ Node.areValid members = true := by
  rw [Node.areValid, Bool.and_eq_true, Bool.and_eq_true, and_assoc]

theorem platformsOf_memberPairs {members : List Member} (h : Node.areValid members = true) :
    platformsOf (Node.memberPairs members) = Member.own? members := by
  match members with
  | [] => rfl
  | .platforms names :: members => exact platformsOf_strings rfl
  | .child key node :: members =>
      obtain ⟨hkey, -, hmembers⟩ := Node.areValid_child.mp h
      have hne : key ≠ Keyword.platforms := ne_of_isName hkey rfl
      rw [Member.own?, ← platformsOf_memberPairs hmembers]
      simp [Node.memberPairs, platformsOf, Yaml.get?, Yaml.Value.isString, hne]

theorem hasKey_memberPairs {members : List Member} (h : Node.areValid members = true) :
    Yaml.hasKey Keyword.type (Node.memberPairs members) = false := by
  match members with
  | [] => rfl
  | .platforms names :: members =>
      have hne : Keyword.platforms ≠ Keyword.type := by decide
      have hmembers := (Node.areValid_platforms.mp h).2
      rw [Node.memberPairs, Yaml.hasKey, List.any_cons, Bool.or_eq_false_iff]
      exact ⟨beq_eq_false_iff_ne.mpr hne, hasKey_memberPairs hmembers⟩
  | .child key node :: members =>
      obtain ⟨hkey, -, hmembers⟩ := Node.areValid_child.mp h
      have hne : key ≠ Keyword.type := ne_of_isName hkey rfl
      rw [Node.memberPairs, Yaml.hasKey, List.any_cons, Bool.or_eq_false_iff]
      exact ⟨beq_eq_false_iff_ne.mpr hne, hasKey_memberPairs hmembers⟩

/-- The members that the value of a collection describes. -/
def Node.memberTrees (members : List Member) : List DesignTokens.Member :=
  DesignTokens.Node.membersOf (Node.memberPairs members)

theorem Node.memberTrees_platforms (names : List String) (members : List Member) :
    Node.memberTrees (.platforms names :: members) = .platforms :: Node.memberTrees members := by
  simp [Node.memberTrees, Node.memberPairs, DesignTokens.Node.membersOf, keyText?]

theorem Node.memberTrees_child {key : String} (hkey : isName key = true) (node : Node)
    (members : List Member) : Node.memberTrees (.child key node :: members) =
      .child key (DesignTokens.Node.ofValue node.value) :: Node.memberTrees members := by
  have hne : key ≠ Keyword.platforms := ne_of_isName hkey rfl
  simp [Node.memberTrees, Node.memberPairs, DesignTokens.Node.membersOf, keyText?, hne,
    isReserved_of_isName hkey]

theorem ofValue_item {content : List ItemLine} (h : ValidItem content) :
    DesignTokens.Node.ofValue (Node.item content).value = .item (itemOf content) := by
  obtain ⟨word, hword⟩ := h.typed
  have htype : Yaml.hasKey Keyword.type (content.map ItemLine.pair) = true :=
    List.any_eq_true.mpr ⟨_, List.mem_map_of_mem hword, rfl⟩
  rw [Node.value, DesignTokens.Node.ofValue, if_pos htype]
  rfl

theorem ofValue_collection {members : List Member} (h : Node.areValid members = true) :
    DesignTokens.Node.ofValue (Node.collection members).value =
      .collection (Member.own? members) (Node.memberTrees members) := by
  cases members with
  | nil => rfl
  | cons member members =>
      rw [Node.value, DesignTokens.Node.ofValue, hasKey_memberPairs h, platformsOf_memberPairs h]
      rfl

/-- A collection declares one list of platforms at most. -/
theorem own?_of_mem {members : List Member} (hnodup : (members.map Member.key).Nodup)
    {names : List String} (h : .platforms names ∈ members) : Member.own? members = some names := by
  induction members with
  | nil => cases h
  | cons member members ih =>
      rw [List.map_cons, List.nodup_cons] at hnodup
      rcases List.mem_cons.mp h with rfl | hmem
      · rfl
      · cases member with
        | platforms first => exact absurd (List.mem_map_of_mem (f := Member.key) hmem) hnodup.1
        | child key node => exact ih hnodup.2 hmem

/-! ## Every key is found -/

theorem textOf_memberLines_platforms (layout : Layout) (level : Nat) (names : List String)
    (members : List Member) (rest : List Char) :
    textOf (Node.memberLines layout level (.platforms names :: members)) ++ rest =
      (platformsLine (layout.width level) names).text ++
        (textOf (Node.memberLines layout level members) ++ rest) := by
  rw [Node.memberLines, textOf_cons, List.append_assoc]

theorem textOf_memberLines_child (layout : Layout) (level : Nat) (key : String) (node : Node)
    (members : List Member) (rest : List Char) :
    textOf (Node.memberLines layout level (.child key node :: members)) ++ rest =
      (childLine (layout.width level) key).text ++ (textOf (node.lines layout (level + 1)) ++
        (textOf (Node.memberLines layout level members) ++ rest)) := by
  rw [Node.memberLines, textOf_cons, textOf_append, List.append_assoc, List.append_assoc]

theorem regular_childLine {key : String} (h : isName key = true) (indent : Nat) :
    (childLine indent key).Regular :=
  ⟨isKey_of_isName h, List.not_mem_nil⟩

variable {setting : Setting} {layout : Layout}

mutual

theorem Behind.walk (node : Node) (hvalid : node.isValid = true) {level : Nat}
    {inherited : List String} {path : ItemPath} {key : Span} {f : Findings} {start : Nat}
    {rest : List Char}
    (h : Behind setting.text key.stop start (textOf (node.lines layout level) ++ rest)) :
    ∃ next f', walk setting inherited path key (.ofValue node.value) f = .ok (next, f') ∧
      Behind setting.text next (behind start (node.lines layout level)) rest := by
  cases node with
  | item content =>
      have hitem := validItem_iff.mp hvalid
      rw [Node.lines] at h ⊢
      obtain ⟨r, hr, hbehind⟩ := Behind.report (c := ⟨setting, f.registry, itemOf content, path, key⟩)
        hitem rfl h inherited
      refine ⟨r.next, f.addItem path r, ?_, hbehind⟩
      rw [ofValue_item hitem, Analysis.walk]
      exact bind_eq_ok.mpr ⟨r, hr, rfl⟩
  | collection members =>
      rw [Node.isValid, Bool.and_eq_true, decide_eq_true_eq] at hvalid
      rw [ofValue_collection hvalid.2, Analysis.walk, Node.lines]
      rw [Node.lines] at h
      exact h.walkMembers members hvalid.2 (fun hmem => own?_of_mem hvalid.1 hmem)

theorem Behind.walkMembers (members : List Member) (hvalid : Node.areValid members = true)
    {own : Option (List String)}
    (hown : ∀ {names}, .platforms names ∈ members → own = some names) {level : Nat}
    {inherited : List String} {path : ItemPath} {offset : Nat} {f : Findings} {start : Nat}
    {rest : List Char}
    (h : Behind setting.text offset start (textOf (Node.memberLines layout level members) ++ rest)) :
    ∃ next f', walkMembers setting own inherited path (Node.memberTrees members) offset f =
        .ok (next, f') ∧
      Behind setting.text next (behind start (Node.memberLines layout level members)) rest := by
  match members with
  | [] => exact ⟨offset, f, rfl, h⟩
  | .platforms names :: members =>
      obtain ⟨hnames, hmembers⟩ := Node.areValid_platforms.mp hvalid
      rw [textOf_memberLines_platforms] at h
      obtain ⟨stop, problems, hcheck, hbehind⟩ := h.check hnames
      obtain ⟨next, f', hwalk, hnext⟩ := hbehind.walkMembers members hmembers
        (fun hmem => hown (List.mem_cons_of_mem _ hmem))
      refine ⟨next, f', ?_, ?_⟩
      · rw [Node.memberTrees_platforms, Analysis.walkMembers, hown List.mem_cons_self]
        exact bind_eq_ok.mpr ⟨_, hcheck, hown List.mem_cons_self ▸ hwalk⟩
      · rw [Node.memberLines, behind_cons]
        exact hnext
  | .child key node :: members =>
      obtain ⟨hkey, hnode, hmembers⟩ := Node.areValid_child.mp hvalid
      rw [textOf_memberLines_child] at h
      have hhere : Behind setting.text offset start (textOf [] ++ _) := h
      obtain ⟨span, hspan, -, hstop, hreads⟩ := hhere.key (by simp) (regular_childLine hkey _)
      have hbelow : Behind setting.text span.stop (behind start [childLine (layout.width level) key])
          (textOf (node.lines layout (level + 1)) ++
            (textOf (Node.memberLines layout level members) ++ rest)) := by
        refine h.forward_line.move ?_ hreads
        exact Nat.le_trans hstop (Line.keyPlace_stop_le _ _)
      obtain ⟨offset', g, hwalk, hoffset⟩ := hbelow.walk node hnode
      obtain ⟨next, f', hwalk', hnext⟩ := hoffset.walkMembers members hmembers
        (fun hmem => hown (List.mem_cons_of_mem _ hmem))
      refine ⟨next, f', ?_, ?_⟩
      · rw [Node.memberTrees_child hkey, Analysis.walkMembers]
        exact bind_eq_ok.mpr ⟨span, hspan, bind_eq_ok.mpr ⟨_, hwalk, hwalk'⟩⟩
      · rw [Node.memberLines, behind_cons, behind_append]
        exact hnext

end

/-! ## What is marked -/

theorem Marks.append_assoc (m n o : Marks) : m ++ n ++ o = m ++ (n ++ o) := by
  show Marks.mk _ _ = Marks.mk _ _
  rw [Marks.mk.injEq]
  exact ⟨List.append_assoc .., List.append_assoc ..⟩

theorem Marks.append_empty (m : Marks) : m ++ Marks.empty = m := by
  show Marks.mk _ _ = m
  cases m
  rw [Marks.mk.injEq]
  exact ⟨List.append_nil _, List.append_nil _⟩

/-- What a pass has marked so far. -/
def marked (f : Findings) : Marks :=
  Marks.of f.diagnostics f.hovers

theorem marked_addDiagnostics (f : Findings) (diagnostics : List Diagnostic) :
    marked (f.addDiagnostics diagnostics) = marked f ++ Marks.of diagnostics [] := by
  show Marks.mk _ _ = Marks.mk _ _
  rw [Marks.mk.injEq]
  exact ⟨List.filter_append .., (List.append_nil _).symm⟩

theorem marked_addItem (f : Findings) (path : ItemPath) (r : ItemReport) :
    marked (f.addItem path r) = marked f ++ Marks.of r.diagnostics r.hover.toList := by
  show Marks.mk _ _ = Marks.mk _ _
  rw [Marks.mk.injEq]
  exact ⟨List.filter_append .., List.map_append ..⟩

/-- Two lists that go on differently behind what they have in common. -/
def Diverges {α : Type} (found expected : List α) : Prop :=
  ∃ common x y xs ys, x ≠ y ∧ found = common ++ x :: xs ∧ expected = common ++ y :: ys

namespace Diverges

variable {α : Type} {found expected : List α}

theorem append (h : Diverges found expected) (more others : List α) :
    Diverges (found ++ more) (expected ++ others) := by
  obtain ⟨common, x, y, xs, ys, hne, rfl, rfl⟩ := h
  exact ⟨common, x, y, xs ++ more, ys ++ others, hne, by simp, by simp⟩

theorem after (h : Diverges found expected) (first : List α) :
    Diverges (first ++ found) (first ++ expected) := by
  obtain ⟨common, x, y, xs, ys, hne, rfl, rfl⟩ := h
  exact ⟨first ++ common, x, y, xs, ys, hne, by simp, by simp⟩

theorem ne (h : Diverges found expected) : found ≠ expected := by
  obtain ⟨common, x, y, xs, ys, hne, rfl, rfl⟩ := h
  intro heq
  exact hne (List.cons.inj (List.append_cancel_left heq)).1

end Diverges

/-- What a part of a pass from `f` to `f'` marks: what it should if it is clear, and else something
different, at least if every platform is unknown. -/
structure Adds (setting : Setting) (f : Findings) (expected : Marks) (isClear : Bool)
    (f' : Findings) : Prop where
  right : isClear = true → marked f' = marked f ++ expected
  wrong : isClear = false → setting.platforms = [] →
    ∃ found, (marked f').problems = (marked f).problems ++ found ∧ Diverges found expected.problems

theorem Adds.trans {f g f' : Findings} {first second : Marks} {isClear isClear' : Bool}
    (hfirst : Adds setting f first isClear g)
    (hmore : ∃ more, f'.diagnostics = g.diagnostics ++ more)
    (hsecond : isClear = true → Adds setting g second isClear' f') :
    Adds setting f (first ++ second) (isClear && isClear') f' := by
  cases isClear with
  | true =>
      refine ⟨fun hclear => ?_, fun hclear hnone => ?_⟩
      · rw [(hsecond rfl).right hclear, hfirst.right rfl, Marks.append_assoc]
      · obtain ⟨found, hfound, hdiverges⟩ := (hsecond rfl).wrong hclear hnone
        refine ⟨first.problems ++ found, ?_, hdiverges.after _⟩
        rw [hfound, hfirst.right rfl]
        exact List.append_assoc ..
  | false =>
      refine ⟨fun hclear => (by cases hclear), fun _ hnone => ?_⟩
      obtain ⟨found, hfound, hdiverges⟩ := hfirst.wrong rfl hnone
      obtain ⟨more, hmore⟩ := hmore
      have hproblems : (marked f').problems =
          (marked g).problems ++ more.filter Marks.isStructural := by
        show f'.diagnostics.filter Marks.isStructural = _
        rw [hmore]
        exact List.filter_append ..
      refine ⟨found ++ more.filter Marks.isStructural, ?_, hdiverges.append _ _⟩
      rw [hproblems, hfound, List.append_assoc]

/-- What a part of a pass marks, and where the search goes on at `next`. -/
structure Marked (setting : Setting) (f : Findings) (expected : Marks) (isClear endsPending : Bool)
    (start : Nat) (rest : List Char) (next : Nat) (f' : Findings) : Prop where
  adds : Adds setting f expected isClear f'
  ahead : isClear = true →
    ∃ pending, Ahead setting.text next pending start rest ∧ (!pending.isEmpty) = endsPending

theorem Marked.trans {f g f' : Findings} {first second : Marks}
    {isClear isClear' endsPending endsPending' : Bool} {start start' next next' : Nat}
    {rest rest' : List Char}
    (hfirst : Marked setting f first isClear endsPending start rest next g)
    (hmore : ∃ more, f'.diagnostics = g.diagnostics ++ more)
    (hsecond : ∀ {pending}, Ahead setting.text next pending start rest →
      (!pending.isEmpty) = endsPending →
      Marked setting g second isClear' endsPending' start' rest' next' f') :
    Marked setting f (first ++ second) (isClear && isClear') endsPending' start' rest' next' f' := by
  have hsecond : isClear = true →
      Marked setting g second isClear' endsPending' start' rest' next' f' := by
    intro hclear
    obtain ⟨pending, hahead, hpending⟩ := hfirst.ahead hclear
    exact hsecond hahead hpending
  refine ⟨hfirst.adds.trans hmore fun hclear => (hsecond hclear).adds, fun hclear => ?_⟩
  rw [Bool.and_eq_true] at hclear
  exact (hsecond hclear.1).ahead hclear.2

theorem unknown_ne {name : String} {span other : Span} (h : span.start ≠ other.start) :
    (Problem.unknownPlatform name).placedAt span ≠ (Problem.unknownPlatform name).placedAt other := by
  intro heq
  have hlabels := congrArg (fun d : Diagnostic => d.labels.map (·.span.start)) heq
  exact h (List.cons.inj hlabels).1

theorem placedProblems_of_none (h : setting.platforms = []) (inherited : List String)
    (path : ItemPath) (name : String) (span : Span) (places : List (String × Span)) :
    placedProblems setting inherited path ((name, span) :: places) =
      (Problem.unknownPlatform name).placedAt span ::
        placedProblems setting inherited path places := by
  have hunknown : platformProblem? setting.platforms inherited path name =
      some (.unknownPlatform name) := by
    rw [platformProblem?, h, if_pos List.not_mem_nil]
  simp only [placedProblems, List.flatMap_cons, hunknown]
  rfl

/-- The check of a list of platforms. -/
theorem Ahead.marked_list {inherited names : List String} {path : ItemPath} {f : Findings}
    {offset start indent : Nat} {pending : List Nat} {rest : List Char} {cursor : Cursor}
    {diagnostics : List Diagnostic}
    (h : Ahead setting.text offset pending start ((platformsLine indent names).text ++ rest))
    (hnames : names.all isName = true)
    (hcheck : Platforms.check setting names inherited path (setting.cursorAt offset) =
      .ok (cursor, diagnostics)) :
    Marked setting f
      ⟨listProblems setting inherited path ((platformsLine indent names).keyPlace start) names, []⟩
      (!(!pending.isEmpty && Node.occursInKey names)) names.isEmpty
      (behind start [platformsLine indent names]) rest cursor.offset
      (f.addDiagnostics diagnostics) := by
  cases names with
  | nil =>
      cases hcheck
      refine ⟨⟨fun _ => ?_, fun hclear => ?_⟩, fun _ => ⟨pending ++ [indent], h.pass, by simp⟩⟩
      · rw [marked_addDiagnostics]
        rfl
      · simp [Node.occursInKey] at hclear
  | cons name more =>
      have hright : (!(!pending.isEmpty && Node.occursInKey (name :: more))) = true →
          ∃ stop, Ahead setting.text stop []
              (behind start [platformsLine indent (name :: more)]) rest ∧
            cursor.offset = stop ∧ diagnostics = listProblems setting inherited path
              ((platformsLine indent (name :: more)).keyPlace start) (name :: more) := by
        intro hclear
        have hclear : pending = [] ∨ Node.occursInKey (name :: more) = false := by
          cases pending <;> simp_all
        obtain ⟨stop, hcheck', hahead⟩ := h.check hnames (List.cons_ne_nil _ _) hclear
        cases hcheck.symm.trans hcheck'
        exact ⟨stop, hahead, rfl, rfl⟩
      refine ⟨⟨fun hclear => ?_, fun hclear hnone => ?_⟩, fun hclear => ?_⟩
      · obtain ⟨stop, -, -, rfl⟩ := hright hclear
        rw [marked_addDiagnostics, Marks.of, filter_structural fun d hd => listProblems_structural hd]
        rfl
      · have hclear : pending ≠ [] ∧ Node.occursInKey (name :: more) = true := by
          cases pending <;> simp_all
        obtain ⟨cursor', wrong, problems, hcheck', hwrong⟩ :=
          h.check_misread hnames hclear.1 hclear.2
        cases hcheck.symm.trans hcheck'
        -- The first name is reported, but not at the place where it is written.
        refine ⟨_, by rw [marked_addDiagnostics]; rfl, ?_⟩
        simp only [Marks.of, listProblems, elementPlaces, placedProblems_of_none hnone]
        exact ⟨[], _, _, _, _, unknown_ne (Nat.ne_of_lt hwrong), rfl, rfl⟩
      · obtain ⟨stop, hahead, hstop, -⟩ := hright hclear
        exact ⟨[], hstop ▸ hahead, rfl⟩

mutual

/-- What the walk over a node marks. -/
theorem Ahead.walk (node : Node) (hvalid : node.isValid = true) {level : Nat}
    {inherited : List String} {path : ItemPath} {key : Span} {f f' : Findings} {start next : Nat}
    {rest : List Char}
    (h : Ahead setting.text key.stop [] start (textOf (node.lines layout level) ++ rest))
    (hwalk : walk setting inherited path key (.ofValue node.value) f = .ok (next, f')) :
    Marked setting f (node.marks setting layout level inherited path key start) node.isClear
      node.endsPending (behind start (node.lines layout level)) rest next f' := by
  cases node with
  | item content =>
      have hitem := validItem_iff.mp hvalid
      rw [ofValue_item hitem, Analysis.walk] at hwalk
      obtain ⟨r, hr, hpure⟩ := bind_eq_ok.mp hwalk
      cases hpure
      rw [Node.lines] at h
      obtain ⟨hmarks, hahead⟩ := h.report hitem rfl hr
      refine ⟨⟨fun _ => ?_, fun hclear => (by cases hclear)⟩, fun _ => ⟨[], hahead, rfl⟩⟩
      rw [marked_addItem, hmarks]
      rfl
  | collection members =>
      rw [Node.isValid, Bool.and_eq_true, decide_eq_true_eq] at hvalid
      rw [ofValue_collection hvalid.2, Analysis.walk] at hwalk
      rw [Node.lines] at h
      rw [Node.marks, Node.isClear, Node.endsPending, Node.lines]
      exact h.walkMembers members hvalid.2 (fun hmem => own?_of_mem hvalid.1 hmem) hwalk

theorem Ahead.walkMembers (members : List Member) (hvalid : Node.areValid members = true)
    {own : Option (List String)}
    (hown : ∀ {names}, .platforms names ∈ members → own = some names) {level : Nat}
    {inherited : List String} {path : ItemPath} {f f' : Findings} {offset start next : Nat}
    {pending : List Nat} {rest : List Char}
    (h : Ahead setting.text offset pending start
      (textOf (Node.memberLines layout level members) ++ rest))
    (hwalk : walkMembers setting own inherited path (Node.memberTrees members) offset f =
      .ok (next, f')) :
    Marked setting f (Node.memberMarks setting layout level own inherited path start members)
      (Node.areClear (!pending.isEmpty) members) (Node.endPending (!pending.isEmpty) members)
      (behind start (Node.memberLines layout level members)) rest next f' := by
  match members with
  | [] =>
      cases hwalk
      exact ⟨⟨fun _ => (Marks.append_empty _).symm, fun hclear => (by cases hclear)⟩,
        fun _ => ⟨pending, h, rfl⟩⟩
  | .platforms names :: members =>
      obtain ⟨hnames, hmembers⟩ := Node.areValid_platforms.mp hvalid
      rw [Node.memberTrees_platforms, Analysis.walkMembers, hown List.mem_cons_self] at hwalk
      obtain ⟨⟨cursor, diagnostics⟩, hcheck, hwalk⟩ := bind_eq_ok.mp hwalk
      rw [textOf_memberLines_platforms] at h
      rw [Node.memberLines, behind_cons, Node.memberMarks, Node.areClear, Node.endPending]
      -- If the list is misread, the members behind it only add to a list that differs already.
      refine (h.marked_list hnames hcheck).trans
        (walkMembers_run _ _ _ _ _ _ _ hwalk).diagnostics_append fun hahead hpending => ?_
      rw [← hown List.mem_cons_self] at hwalk
      rw [← hpending]
      exact hahead.walkMembers members hmembers (fun hmem => hown (List.mem_cons_of_mem _ hmem)) hwalk
  | .child key node :: members =>
      obtain ⟨hkey, hnode, hmembers⟩ := Node.areValid_child.mp hvalid
      rw [Node.memberTrees_child hkey, Analysis.walkMembers] at hwalk
      obtain ⟨span, hspan, hwalk⟩ := bind_eq_ok.mp hwalk
      obtain ⟨⟨offset', g⟩, hwalk, hwalk'⟩ := bind_eq_ok.mp hwalk
      rw [textOf_memberLines_child] at h
      have hhere : Ahead setting.text offset pending start (textOf [] ++ _) := h
      -- The key is a name, so no list that was passed over is taken for it.
      obtain ⟨hfound, hreads⟩ := hhere.key (.inr (ne_of_isName hkey rfl)) (by simp)
        (regular_childLine hkey _)
      cases hspan.symm.trans hfound
      have hbelow := Ahead.of_colon List.not_mem_nil hreads (Reads.behind_line h.there)
      rw [Node.memberLines, behind_cons, behind_append, Node.memberMarks, Node.areClear,
        Node.endPending]
      refine (hbelow.walk node hnode hwalk).trans
        (walkMembers_run _ _ _ _ _ _ _ hwalk').diagnostics_append fun hahead hpending => ?_
      rw [← hpending]
      exact hahead.walkMembers members hmembers (fun hmem => hown (List.mem_cons_of_mem _ hmem))
        hwalk'

end

end Block
end DesignTokens
