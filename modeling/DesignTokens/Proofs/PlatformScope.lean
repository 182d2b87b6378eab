import DesignTokens.Proofs.DistinctKeys
import DesignTokens.Proofs.Problems

/-!
Which platforms a node may name.

The walk hands the platforms of a collection down to its children, one level at a time.  Here the
same is said of each node by itself: the platforms it inherits are those of the nearest collection
around it that declares any, or else those of the document.  `documentSites` lists the nodes of a
document, each once, a collection at the place of its list among its children.  The problems of their
lists, in this order, are what a pass reports about platforms.

A collection of a document has its list among its members at most once, because no key is written
twice and no number or boolean is spelled like the key of the list.
-/

namespace DesignTokens

/-! ## How numbers are spelled -/

namespace Decimal

/-- The text has no letter `p`, as the key of a list of platforms has. -/
def LacksP (s : String) : Prop :=
  'p' ∉ s.toList

theorem LacksP.append {s t : String} (hs : LacksP s) (ht : LacksP t) : LacksP (s ++ t) := by
  simpa [LacksP] using ⟨hs, ht⟩

theorem LacksP.ite {c : Prop} [Decidable c] {s t : String} (hs : LacksP s) (ht : LacksP t) :
    LacksP (if c then s else t) := by
  split
  · exact hs
  · exact ht

theorem lacksP_ofList {cs : List Char} (h : ∀ c ∈ cs, c.isDigit = true) :
    LacksP (String.ofList cs) := by
  intro hmem
  rw [String.toList_ofList] at hmem
  cases h 'p' hmem

theorem lacksP_digitText (n : Nat) : LacksP (digitText n) :=
  lacksP_ofList fun _ hc => Nat.isDigit_of_mem_toDigits (by decide) (by decide) hc

theorem lacksP_int (n : Int) : LacksP (toString n) := by
  rw [Int.toString_eq_repr]
  cases n with
  | ofNat m => exact lacksP_digitText m
  | negSucc m =>
      have hsign : LacksP "-" := by simp [LacksP]
      exact hsign.append (lacksP_digitText _)

theorem lacksP_magnitude (layout : Layout) (d : Decimal) : LacksP (layout.magnitude d) := by
  have hdigits := lacksP_digitText d.digits
  have hpart : ∀ cs, cs ⊆ (digitText d.digits).toList → LacksP (String.ofList cs) := by
    intro cs hsub hmem
    rw [String.toList_ofList] at hmem
    exact hdigits (hsub hmem)
  have hzeros : ∀ n, LacksP (zeros n) := fun n =>
    lacksP_ofList fun c hc => by rw [List.eq_of_mem_replicate hc]; rfl
  have hpoint : LacksP "." := by simp [LacksP]
  have hwhole : ∀ s, LacksP s → LacksP (if layout.fraction then s ++ ".0" else s) :=
    fun s hs => .ite (hs.append (by simp [LacksP])) hs
  have hcut : ∀ n, LacksP (String.ofList ((digitText d.digits).toList.take n) ++ "."
      ++ String.ofList ((digitText d.digits).toList.drop n)) := fun n =>
    ((hpart _ (List.take_subset _ _)).append hpoint).append (hpart _ (List.drop_subset _ _))
  -- The branches of `magnitude`: zero, the three positional forms, and the form with an exponent.
  exact .ite (hwhole _ (by simp [LacksP]))
    (.ite (.ite (hwhole _ (hdigits.append (hzeros _)))
        (.ite (hcut _) ((LacksP.append (by simp [LacksP]) (hzeros _)).append hdigits)))
      (((LacksP.ite hdigits (hcut 1)).append (by simp [LacksP])).append (lacksP_int _)))

end Decimal

theorem Yaml.Number.lacksP_text (n : Yaml.Number) : Decimal.LacksP n.text := by
  cases n with
  | int n => exact Decimal.lacksP_int n
  | float x =>
      have hmagnitude := Decimal.lacksP_magnitude .document (Decimal.ofFloat .even x)
      have hsign : Decimal.LacksP (if x.toBits.toNat / Decimal.twoTo 63 = 1 then "-" else "") :=
        .ite (by simp [Decimal.LacksP]) (by simp [Decimal.LacksP])
      exact .ite (by simp [Decimal.LacksP, Decimal.Layout.document])
        (.ite (hsign.append (by simp [Decimal.LacksP, Decimal.Layout.document]))
          (hsign.append hmagnitude))

/-- Only the string is read as the key of a list of platforms. -/
theorem eq_string_of_keyText?_platforms {k : Yaml.Value}
    (h : keyText? k = some Keyword.platforms) : k = .string Keyword.platforms := by
  cases k with
  | string s => rw [Option.some.inj h]
  | number n =>
      have hlacks := n.lacksP_text
      rw [Option.some.inj h] at hlacks
      exact absurd (by decide) hlacks
  | bool b => cases b <;> exact absurd (Option.some.inj h) (by decide)
  | _ => cases h

/-! ## Collections that declare their list once -/

namespace Node

mutual

/-- Every collection has its list of platforms among its members exactly once if it declares one,
and at most once if it does not. -/
def DeclaresOnce : Node → Prop
  | .item _ => True
  | .collection own members =>
      (members.countP Member.isPlatforms ≤ 1 ∧
        (own.isSome = true → members.countP Member.isPlatforms = 1)) ∧ DeclareOnce members

def DeclareOnce : List Member → Prop
  | [] => True
  | .platforms :: members => DeclareOnce members
  | .child _ node :: members => node.DeclaresOnce ∧ DeclareOnce members

end

/-- The members that entries describe have the list of platforms as often as the entries have its
key. -/
theorem countP_membersOf (entries : List (Yaml.Value × Yaml.Value)) :
    (membersOf entries).countP Member.isPlatforms =
      (Yaml.stringKeys entries).count Keyword.platforms := by
  induction entries with
  | nil => rfl
  | cons entry entries ih =>
      obtain ⟨k, v⟩ := entry
      rw [membersOf]
      split
      · next hnone =>
          rw [ih]
          cases k <;> first | rfl | cases hnone
      · next key hkey =>
          split
          · next hplatforms =>
              rw [hplatforms] at hkey
              rw [eq_string_of_keyText?_platforms hkey]
              rw [List.countP_cons_of_pos rfl, ih]
              simp [Yaml.stringKeys]
          · next hne =>
              have hcount : (Yaml.stringKeys ((k, v) :: entries)).count Keyword.platforms =
                  (Yaml.stringKeys entries).count Keyword.platforms := by
                cases k with
                | string s =>
                    cases hkey
                    simp [Yaml.stringKeys, hne]
                | _ => rfl
              rw [hcount, ← ih]
              split
              · rfl
              · simp [Member.isPlatforms]

theorem mem_stringKeys_of_platformsOf {entries : List (Yaml.Value × Yaml.Value)}
    (h : (platformsOf entries).isSome = true) : Keyword.platforms ∈ Yaml.stringKeys entries := by
  rw [platformsOf] at h
  cases hget : Yaml.get? Keyword.platforms entries with
  | none => simp [hget] at h
  | some v => exact Yaml.mem_stringKeys.mpr ⟨v, Yaml.mem_of_get?_eq_some hget⟩

mutual

theorem ofValue_declaresOnce (v : Yaml.Value) (hv : Yaml.WellKeyed v) :
    (ofValue v).DeclaresOnce := by
  cases v with
  | mapping entries =>
      rw [ofValue]
      split
      · exact trivial
      · have hcount := List.nodup_iff_count_le_one.mp hv.nodup Keyword.platforms
        rw [← countP_membersOf] at hcount
        refine ⟨⟨hcount, fun hown => ?_⟩,
          membersOf_declareOnce entries (fun entry hmem => hv.entry hmem)⟩
        have hpos := List.count_pos_iff.mpr (mem_stringKeys_of_platformsOf hown)
        rw [← countP_membersOf] at hpos
        omega
  | tagged tag v =>
      rw [ofValue]
      exact ofValue_declaresOnce v hv.of_tagged
  | _ => simp [ofValue, DeclaresOnce, DeclareOnce]

theorem membersOf_declareOnce (entries : List (Yaml.Value × Yaml.Value))
    (hentries : ∀ entry ∈ entries, Yaml.WellKeyed entry.2) :
    DeclareOnce (membersOf entries) := by
  match entries with
  | [] => exact trivial
  | (k, v) :: entries =>
      rw [List.forall_mem_cons] at hentries
      have hrest := membersOf_declareOnce entries hentries.2
      rw [membersOf]
      split
      · exact hrest
      · split
        · exact hrest
        · split
          · exact hrest
          · exact ⟨ofValue_declaresOnce v hentries.1, hrest⟩

end

end Node

/-- A document that was read declares every list of platforms once. -/
theorem Document.declaresOnce_of_ofText {text : List Char} {document : Document}
    (h : Document.ofText text = .ok document) :
    (∀ node ∈ document.shared, node.DeclaresOnce) ∧
      ∀ node ∈ document.themed, node.DeclaresOnce := by
  rw [Document.ofText] at h
  split at h
  · cases h
    simp [Document.empty]
  · cases hvalue : Yaml.Value.ofText text with
    | error fault => simp [hvalue, Except.map] at h
    | ok value =>
        simp only [hvalue, Except.map, Except.ok.injEq] at h
        subst h
        have hkeyed := Yaml.Value.ofText_wellKeyed hvalue
        cases value with
        | mapping entries =>
            have hsection : ∀ key, ∀ node ∈ Document.subtree? key entries, node.DeclaresOnce := by
              intro key node hnode
              obtain ⟨v, hv, rfl⟩ := Option.map_eq_some_iff.mp hnode
              have hget := (Option.filter_eq_some_iff.mp hv).1
              exact Node.ofValue_declaresOnce v (hkeyed.entry (Yaml.mem_of_get?_eq_some hget))
            exact ⟨hsection _, hsection _⟩
        | _ => simp [Document.ofValue, Document.empty]

namespace Analysis

/-! ## The nodes of a document -/

/-- A node with the collections around it, the nearest first. -/
structure Site where
  path : ItemPath
  around : List Node
  node : Node

namespace Site

/-- The platforms of the nearest collection around the node that declares any, or else those of the
document. -/
def inherited (root : List String) (site : Site) : List String :=
  (site.around.findSome? Node.platforms).getD root

def problems (root : List String) (site : Site) : List Problem :=
  listProblems root (site.inherited root) site.path (site.node.platforms.getD [])

end Site

mutual

/-- The nodes at and below a node, each once.  A collection stands where its list of platforms does,
behind the children that are written before the list. -/
def nodeSites (around : List Node) (path : ItemPath) : Node → List Site
  | .item content => [⟨path, around, .item content⟩]
  | .collection own members =>
      let node := Node.collection own members
      let below := memberSites (node :: around) path members
      let position := (Member.platformsPosition? members).getD 0
      (below.take position).flatten ++ ⟨path, around, node⟩ :: (below.drop position).flatten

def memberSites (around : List Node) (path : ItemPath) : List Member → List (List Site)
  | [] => []
  | .platforms :: members => memberSites around path members
  | .child key node :: members =>
      nodeSites around (path.child key) node :: memberSites around path members

end

def sectionSites (path : ItemPath) (node : Option Node) : List Site :=
  (node.map (nodeSites [] path)).getD []

/-- The nodes of the sections that a pass walks. -/
def documentSites (themes : Themes) (document : Document) : List Site :=
  sectionSites .shared document.shared ++ sectionSites .themed (themedSection themes document)

/-- The problems of a document with its platforms, in the order of its nodes. -/
def platformProblems (themes : Themes) (document : Document) : List Problem :=
  (documentSites themes document).flatMap (Site.problems (document.platforms.getD []))

/-! ## The visits of a pass report the problems of the nodes -/

def Visit.platformProblems (root : List String) : Visit → List Problem
  | .platforms own inherited path => listProblems root inherited path own
  | .item content inherited path => listProblems root inherited path (content.platforms.getD [])

theorem memberSites_append (around : List Node) (path : ItemPath) (before after : List Member) :
    memberSites around path (before ++ after) =
      memberSites around path before ++ memberSites around path after := by
  induction before with
  | nil => rfl
  | cons member before ih =>
      cases member with
      | platforms => exact ih
      | child key node => rw [List.cons_append, memberSites, ih, memberSites, List.cons_append]

theorem length_memberSites {members : List Member}
    (h : ∀ member ∈ members, member.isPlatforms = false) (around : List Node) (path : ItemPath) :
    (memberSites around path members).length = members.length := by
  induction members with
  | nil => rfl
  | cons member members ih =>
      rw [List.forall_mem_cons] at h
      cases member with
      | platforms => cases h.1
      | child key node => rw [memberSites, List.length_cons, List.length_cons, ih h.2]

theorem memberVisits_append (own : Option (List String)) (inherited : List String) (path : ItemPath)
    (before after : List Member) :
    memberVisits own inherited path (before ++ after) =
      memberVisits own inherited path before ++ memberVisits own inherited path after := by
  induction before with
  | nil => rfl
  | cons member before ih =>
      cases member with
      | platforms => rw [List.cons_append, memberVisits, ih, memberVisits, List.cons_append]
      | child key node => rw [List.cons_append, memberVisits, ih, memberVisits, List.append_assoc]

theorem exists_split_platforms {members : List Member}
    (h : members.countP Member.isPlatforms = 1) :
    ∃ before after, members = before ++ .platforms :: after ∧
      (∀ member ∈ before, member.isPlatforms = false) ∧
      ∀ member ∈ after, member.isPlatforms = false := by
  induction members with
  | nil => cases h
  | cons member members ih =>
      cases member with
      | platforms =>
          rw [List.countP_cons_of_pos rfl, Nat.add_eq_right, List.countP_eq_zero] at h
          exact ⟨[], members, rfl, by simp, by simpa using h⟩
      | child key node =>
          rw [List.countP_cons_of_neg (by simp [Member.isPlatforms])] at h
          obtain ⟨before, after, rfl, hbefore, hafter⟩ := ih h
          refine ⟨.child key node :: before, after, rfl, ?_, hafter⟩
          exact List.forall_mem_cons.mpr ⟨rfl, hbefore⟩

theorem platformsPosition?_split {before after : List Member}
    (hbefore : ∀ member ∈ before, member.isPlatforms = false) :
    Member.platformsPosition? (before ++ .platforms :: after) = some before.length := by
  have hnone : before.findIdx? Member.isPlatforms = none := by
    simpa [List.findIdx?_eq_none_iff] using hbefore
  have hhere : (Member.platforms :: after).findIdx? Member.isPlatforms = some 0 := rfl
  rw [Member.platformsPosition?, List.findIdx?_append, hnone, hhere]
  simp

/-- A collection with its list of platforms stands between its children on either side of the
list. -/
theorem nodeSites_split (around : List Node) (path : ItemPath) (own : Option (List String))
    {before after : List Member} (hbefore : ∀ member ∈ before, member.isPlatforms = false) :
    nodeSites around path (.collection own (before ++ .platforms :: after)) =
      (memberSites (.collection own (before ++ .platforms :: after) :: around) path before).flatten ++
        ⟨path, around, .collection own (before ++ .platforms :: after)⟩ ::
        (memberSites (.collection own (before ++ .platforms :: after) :: around) path
          after).flatten := by
  have hlength := length_memberSites hbefore
    (.collection own (before ++ .platforms :: after) :: around) path
  rw [nodeSites, platformsPosition?_split hbefore, Option.getD_some, memberSites_append,
    List.take_left' hlength, List.drop_left' hlength]
  rfl

/-- The visits of the node report the problems of the nodes at and below it. -/
def ReportsSites (root : List String) (around : List Node) (path : ItemPath) (node : Node) : Prop :=
  (nodeVisits ((around.findSome? Node.platforms).getD root) path node).flatMap
      (Visit.platformProblems root) =
    (nodeSites around path node).flatMap (Site.problems root)

/-- Children inherit the list of their collection, or else what it inherits. -/
theorem memberVisits_problems {root : List String} {around : List Node} {path : ItemPath}
    {own : Option (List String)} {all members : List Member}
    (hchildren : ∀ key node, .child key node ∈ members →
      ReportsSites root (.collection own all :: around) (path.child key) node)
    (hnone : ∀ member ∈ members, member.isPlatforms = false) :
    (memberVisits own ((around.findSome? Node.platforms).getD root) path members).flatMap
        (Visit.platformProblems root) =
      (memberSites (.collection own all :: around) path members).flatten.flatMap
        (Site.problems root) := by
  induction members with
  | nil => rfl
  | cons member members ih =>
      rw [List.forall_mem_cons] at hnone
      cases member with
      | platforms => cases hnone.1
      | child key node =>
          have hinherited : own.getD ((around.findSome? Node.platforms).getD root) =
              ((Node.collection own all :: around).findSome? Node.platforms).getD root := by
            cases own <;> rfl
          have hnode := hchildren key node List.mem_cons_self
          have hrest := ih (fun k n hmem => hchildren k n (List.mem_cons_of_mem _ hmem)) hnone.2
          rw [ReportsSites, ← hinherited] at hnode
          rw [memberVisits, memberSites, List.flatMap_append, List.flatten_cons,
            List.flatMap_append, hnode, hrest]

theorem reportsSites_collection {root : List String} {around : List Node} {path : ItemPath}
    {own : Option (List String)} {members : List Member}
    (hle : members.countP Member.isPlatforms ≤ 1)
    (hone : own.isSome = true → members.countP Member.isPlatforms = 1)
    (hchildren : ∀ key node, .child key node ∈ members →
      ReportsSites root (.collection own members :: around) (path.child key) node) :
    ReportsSites root around path (.collection own members) := by
  rcases Nat.le_one_iff_eq_zero_or_eq_one.mp hle with hzero | hcount
  · -- Without a list among the members nothing is declared, so the place does not matter.
    have hnone : ∀ member ∈ members, member.isPlatforms = false := by
      simpa using List.countP_eq_zero.mp hzero
    have hposition : Member.platformsPosition? members = none := by
      simpa [Member.platformsPosition?, List.findIdx?_eq_none_iff] using hnone
    have hself : Site.problems root ⟨path, around, .collection own members⟩ = [] := by
      cases own with
      | none => rfl
      | some own => simp [hzero] at hone
    rw [ReportsSites, nodeVisits, memberVisits_problems hchildren hnone, nodeSites, hposition]
    simp [hself]
  · obtain ⟨before, after, rfl, hbefore, hafter⟩ := exists_split_platforms hcount
    have hfirst := memberVisits_problems
      (fun key node hmem => hchildren key node (List.mem_append_left _ hmem)) hbefore
    have hlast := memberVisits_problems
      (fun key node hmem =>
        hchildren key node (List.mem_append_right _ (List.mem_cons_of_mem _ hmem))) hafter
    rw [ReportsSites, nodeVisits, memberVisits_append, memberVisits, List.flatMap_append,
      List.flatMap_cons, hfirst, hlast, nodeSites_split around path own hbefore,
      List.flatMap_append, List.flatMap_cons]
    rfl

mutual

theorem nodeVisits_problems (root : List String) (around : List Node) (path : ItemPath)
    (node : Node) (hnode : node.DeclaresOnce) : ReportsSites root around path node := by
  cases node with
  | item content => rfl
  | collection own members =>
      obtain ⟨⟨hle, hone⟩, hmembers⟩ := hnode
      exact reportsSites_collection hle hone
        (childVisits_problems root (.collection own members :: around) path members hmembers)

theorem childVisits_problems (root : List String) (around : List Node) (path : ItemPath)
    (members : List Member) (hmembers : Node.DeclareOnce members) (key : String) (node : Node)
    (hmem : .child key node ∈ members) : ReportsSites root around (path.child key) node := by
  match members with
  | [] => cases hmem
  | .platforms :: members =>
      rcases List.mem_cons.mp hmem with heq | hmem
      · cases heq
      · exact childVisits_problems root around path members hmembers key node hmem
  | .child first child :: members =>
      rcases List.mem_cons.mp hmem with heq | hmem
      · cases heq
        exact nodeVisits_problems root around (path.child key) node hmembers.1
      · exact childVisits_problems root around path members hmembers.2 key node hmem

end

theorem sectionVisits_problems (root : List String) (path : ItemPath) {node : Option Node}
    (hnode : ∀ n ∈ node, n.DeclaresOnce) :
    (sectionVisits root path node).flatMap (Visit.platformProblems root) =
      (sectionSites path node).flatMap (Site.problems root) := by
  cases node with
  | none => rfl
  | some node => exact nodeVisits_problems root [] path node (hnode node rfl)

theorem documentVisits_problems (themes : Themes) {document : Document}
    (hshared : ∀ n ∈ document.shared, n.DeclaresOnce)
    (hthemed : ∀ n ∈ document.themed, n.DeclaresOnce) :
    (documentVisits themes document).flatMap
        (Visit.platformProblems (document.platforms.getD [])) =
      platformProblems themes document := by
  have hsection : ∀ n ∈ themedSection themes document, n.DeclaresOnce := by
    intro n hn
    rw [themedSection] at hn
    split at hn
    · cases hn
    · exact hthemed n hn
  rw [documentVisits, platformProblems, documentSites, List.flatMap_append, List.flatMap_append,
    sectionVisits_problems _ _ hshared]
  exact congrArg _ (sectionVisits_problems _ _ hsection)

/-! ## The theorem -/

/-- What a pass reports about platforms is, node by node, what the list of the node gives rise to
under the platforms of the document and those of the nearest collection around the node that
declares any.  Each problem is reported with the code and the wording of its kind. -/
theorem platform_reports_exact {options : Options} {text : List Char} {document : Document}
    {a : Analysis} (hread : Document.ofText text = .ok document)
    (ha : ofText options text = .ok a) :
    Reported (platformProblems a.themes document) (about .platforms a.diagnostics) := by
  obtain ⟨read, hsame, hdocument⟩ := ofText_eq_ok.mp ha
  cases hread.symm.trans hsame
  obtain ⟨hshared, hthemed⟩ := Document.declaresOnce_of_ofText hread
  rw [← documentVisits_problems a.themes hshared hthemed]
  refine ofDocument_about hdocument (by decide) (fun hcheck => ?_) fun _ hreport =>
    ItemContext.report_platforms hreport
  rw [about_self (Platforms.check_isAbout hcheck)]
  exact Platforms.check_reported hcheck

/-- A list behind the child that inherits it, and a null list on the way to a grandchild. -/
def scopedText : List Char :=
  (".platforms: [i, w]\n.shared:\n a:\n  x:\n   .platforms: [w, v]\n  .platforms: [i]\n  y:\n"
    ++ "   .platforms:\n   z:\n    .platforms: w\n").toList

/-- What is reported about the platforms of the text, line by line. -/
def scopedReports : List String :=
  ["error[E201]: The platform 'w' is not accessible in '.shared.a.x'. A parent collection must have "
      ++ "filtered it out. Verify 'w' was included in all the parent collections '.platforms' list.",
    "error[E200]: Unknown platform: 'v'. All the platforms must be defined in the '.platforms' array.",
    "error[E201]: The platform 'w' is not accessible in '.shared.a.y.z'. A parent collection must "
      ++ "have filtered it out. Verify 'w' was included in all the parent collections '.platforms' "
      ++ "list."]

theorem scopedText_reported : ∃ document a, Document.ofText scopedText = .ok document ∧
    ofText .default scopedText = .ok a ∧
    platformProblems a.themes document =
      [.hiddenPlatform "w" ⟨[".shared", "a", "x"]⟩, .unknownPlatform "v",
        .hiddenPlatform "w" ⟨[".shared", "a", "y", "z"]⟩] ∧
    Reported (platformProblems a.themes document) (about .platforms a.diagnostics) ∧
    (about .platforms a.diagnostics).map Diagnostic.text = scopedReports := by
  have hpasses : passes .default scopedText (fun document a =>
      decide (platformProblems a.themes document =
          [.hiddenPlatform "w" ⟨[".shared", "a", "x"]⟩, .unknownPlatform "v",
            .hiddenPlatform "w" ⟨[".shared", "a", "y", "z"]⟩] ∧
        (about .platforms a.diagnostics).map Diagnostic.text = scopedReports)) = true := by
    decide +kernel
  obtain ⟨document, a, hread, ha, htest⟩ := passes_iff.mp hpasses
  obtain ⟨hproblems, htexts⟩ := of_decide_eq_true htest
  exact ⟨document, a, hread, ha, hproblems, platform_reports_exact hread ha, htexts⟩

end Analysis
end DesignTokens
