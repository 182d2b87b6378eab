import DesignTokens.Proofs.Block.Positions
import DesignTokens.Proofs.Swatches

/-!
Where a pass over a block document comes to its items.

The tree says of every item at which offset its lines begin.  If every list of platforms is found
where it is written, then a pass comes to the items in the order of the tree, and to each of them
with the search standing right before its lines.
-/

namespace DesignTokens
namespace Block

open Text Locate Analysis

/-- An item, how far its lines are indented, and where the first of them begins. -/
structure ItemSite where
  path : ItemPath
  content : List ItemLine
  indent : Nat
  start : Nat

def ItemSite.subject (site : ItemSite) : ItemPath × Item :=
  (site.path, itemOf site.content)

namespace Node

mutual

/-- The items of a node whose lines begin at `start`. -/
def itemSites (layout : Layout) (level : Nat) (path : ItemPath) (start : Nat) :
    Node → List ItemSite
  | .item content => [⟨path, content, layout.width level, start⟩]
  | .collection members => memberSites layout level path start members

def memberSites (layout : Layout) (level : Nat) (path : ItemPath) (start : Nat) :
    List Member → List ItemSite
  | [] => []
  | .platforms names :: members =>
      memberSites layout level path (behind start [platformsLine (layout.width level) names]) members
  | .child key node :: members =>
      let below := behind start [childLine (layout.width level) key]
      node.itemSites layout (level + 1) (path.child key) below ++
        memberSites layout level path (behind below (node.lines layout (level + 1))) members

end

end Node

namespace Shape

variable (shape : Shape) (layout : Layout) (platforms : Option (List String))

def sectionSites (key : String) (path : ItemPath) (start : Nat) : Option Node → List ItemSite
  | none => []
  | some node => node.itemSites layout 1 path (behind start [childLine (layout.width 0) key])

def itemSites : List ItemSite :=
  let start := behind 0 (shape.headLines layout platforms)
  let between := behind start (sectionLines layout Keyword.shared shape.shared)
  sectionSites layout Keyword.shared .shared start shape.shared ++
    sectionSites layout Keyword.themed .themed between shape.visited

end Shape

/-! ## Visits -/

/-- The visit is one to the item at the site, and the search stands before its lines. -/
structure Placed (v : ItemVisit) (site : ItemSite) : Prop where
  item_eq : v.context.item = itemOf site.content
  valid : ValidItem site.content
  ahead : ∃ rest, Ahead v.context.setting.text v.context.key.stop [] site.start
    (itemText site.indent site.content ++ rest)

/-- A part of a pass comes to the sites, one after the other. -/
structure Visits (setting : Setting) (sites : List ItemSite) (visits : List ItemVisit)
    (f f' : Findings) : Prop extends
    Filed setting (sites.map ItemSite.subject) visits f f' where
  placed : List.Forall₂ Placed visits sites

namespace Visits

variable {setting : Setting} {sites others : List ItemSite} {first second : List ItemVisit}
  {f g h : Findings}

theorem nil (f : Findings) : Visits setting [] [] f f :=
  ⟨.nil f, .nil⟩

theorem append (hfirst : Visits setting sites first f g)
    (hsecond : Visits setting others second g h) :
    Visits setting (sites ++ others) (first ++ second) f h := by
  refine ⟨?_, List.rel_append hfirst.placed hsecond.placed⟩
  rw [List.map_append]
  exact hfirst.toFiled.append hsecond.toFiled

theorem after (diagnostics : List Diagnostic)
    (hvisits : Visits setting sites first (f.addDiagnostics diagnostics) g) :
    Visits setting sites first f g :=
  ⟨(Filed.addDiagnostics f diagnostics).append hvisits.toFiled, hvisits.placed⟩

end Visits

variable {setting : Setting} {layout : Layout}

mutual

/-- The walk over a node visits its items where they are written. -/
theorem Ahead.visits (node : Node) (hvalid : node.isValid = true) (hclear : node.isClear = true)
    {level : Nat} {inherited : List String} {path : ItemPath} {key : Span} {f f' : Findings}
    {start next : Nat} {rest : List Char}
    (h : Ahead setting.text key.stop [] start (textOf (node.lines layout level) ++ rest))
    (hwalk : Analysis.walk setting inherited path key (.ofValue node.value) f = .ok (next, f')) :
    ∃ visits, Visits setting (node.itemSites layout level path start) visits f f' := by
  cases node with
  | item content =>
      have hitem := validItem_iff.mp hvalid
      rw [ofValue_item hitem, Analysis.walk] at hwalk
      obtain ⟨r, hr, hpure⟩ := bind_eq_ok.mp hwalk
      cases hpure
      rw [Node.lines] at h
      rw [Node.itemSites]
      exact ⟨_, .item hr, .cons ⟨rfl, hitem, rest, h⟩ .nil⟩
  | collection members =>
      rw [Node.isValid, Bool.and_eq_true, decide_eq_true_eq] at hvalid
      rw [ofValue_collection hvalid.2, Analysis.walk] at hwalk
      rw [Node.isClear] at hclear
      rw [Node.lines] at h
      rw [Node.itemSites]
      exact h.memberVisits members hvalid.2 (fun hmem => own?_of_mem hvalid.1 hmem) hclear hwalk

theorem Ahead.memberVisits (members : List Member) (hvalid : Node.areValid members = true)
    {own : Option (List String)}
    (hown : ∀ {names}, .platforms names ∈ members → own = some names) {level : Nat}
    {inherited : List String} {path : ItemPath} {f f' : Findings} {offset start next : Nat}
    {pending : List Nat} {rest : List Char}
    (h : Ahead setting.text offset pending start
      (textOf (Node.memberLines layout level members) ++ rest))
    (hclear : Node.areClear (!pending.isEmpty) members = true)
    (hwalk : Analysis.walkMembers setting own inherited path (Node.memberTrees members) offset f =
      .ok (next, f')) :
    ∃ visits, Visits setting (Node.memberSites layout level path start members) visits f f' := by
  match members with
  | [] =>
      cases hwalk
      exact ⟨[], .nil f⟩
  | .platforms names :: members =>
      obtain ⟨hnames, hmembers⟩ := Node.areValid_platforms.mp hvalid
      rw [Node.areClear, Bool.and_eq_true] at hclear
      rw [Node.memberTrees_platforms, Analysis.walkMembers, hown List.mem_cons_self] at hwalk
      obtain ⟨⟨cursor, diagnostics⟩, hcheck, hwalk⟩ := bind_eq_ok.mp hwalk
      rw [textOf_memberLines_platforms] at h
      have hmarked := h.marked_list (f := f) hnames hcheck
      obtain ⟨pending', hahead, hpending⟩ := hmarked.ahead hclear.1
      rw [← hown List.mem_cons_self] at hwalk
      obtain ⟨visits, hvisits⟩ := hahead.memberVisits members hmembers
        (fun hmem => hown (List.mem_cons_of_mem _ hmem)) (hpending ▸ hclear.2) hwalk
      rw [Node.memberSites]
      exact ⟨visits, hvisits.after diagnostics⟩
  | .child key node :: members =>
      obtain ⟨hkey, hnode, hmembers⟩ := Node.areValid_child.mp hvalid
      rw [Node.areClear, Bool.and_eq_true] at hclear
      rw [Node.memberTrees_child hkey, Analysis.walkMembers] at hwalk
      obtain ⟨span, hspan, hwalk⟩ := bind_eq_ok.mp hwalk
      obtain ⟨⟨offset', g⟩, hwalk, hwalk'⟩ := bind_eq_ok.mp hwalk
      rw [textOf_memberLines_child] at h
      have hhere : Ahead setting.text offset pending start (textOf [] ++ _) := h
      obtain ⟨hfound, hreads⟩ := hhere.key (.inr (ne_of_isName hkey rfl)) (by simp)
        (regular_childLine hkey _)
      cases hspan.symm.trans hfound
      have hbelow := Ahead.of_colon List.not_mem_nil hreads (Reads.behind_line h.there)
      obtain ⟨first, hfirst⟩ := hbelow.visits node hnode hclear.1 hwalk
      -- What the node leaves behind is known from what it marks.
      obtain ⟨pending', hahead, hpending⟩ := (hbelow.walk node hnode hwalk).ahead hclear.1
      obtain ⟨second, hsecond⟩ := hahead.memberVisits members hmembers
        (fun hmem => hown (List.mem_cons_of_mem _ hmem)) (hpending ▸ hclear.2) hwalk'
      rw [Node.memberSites]
      exact ⟨first ++ second, hfirst.append hsecond⟩

end

theorem walkSection_visits {key : String} {path : ItemPath} {f f' : Findings} {before : List Line}
    {rest : List Char} {node : Option Node} (hkey : IsKey key.toList)
    (hvalid : node.all Node.isValid = true) (hclear : node.all Node.isClear = true)
    (htext : setting.text = textOf before ++ (textOf (Shape.sectionLines layout key node) ++ rest))
    (hbefore : ∀ line ∈ before, line.Regular ∧ line.key ≠ key)
    (h : walkSection setting key path (sectionOf node) f = .ok f') :
    ∃ visits, Visits setting (Shape.sectionSites layout key path (behind 0 before) node) visits
      f f' := by
  cases node with
  | none =>
      cases h
      exact ⟨[], .nil f⟩
  | some node =>
      rcases sectionOf_some node with ⟨rfl, hnone⟩ | hsome
      · rw [hnone] at h
        cases h
        exact ⟨[], .nil f⟩
      · obtain ⟨hplace, hahead⟩ := Ahead.of_section hkey htext hbefore
        rw [hsome, walkSection] at h
        obtain ⟨span, hspan, hbelow⟩ := bind_eq_ok.mp h
        obtain ⟨⟨next, g⟩, hwalk, hpure⟩ := bind_eq_ok.mp hbelow
        cases hspan.symm.trans hplace
        cases hpure
        exact hahead.visits node hvalid hclear hwalk

/-- An analysis visits the items of the document where they are written. -/
theorem analysis_visits {shape : Shape} {platforms : Option (List String)} {options : Options}
    (hvalid : shape.Valid platforms) (hclear : shape.isClear = true) {a : Analysis}
    (ha : shape.analysis layout platforms options = .ok a) :
    ∃ visits, Visits (shape.setting layout platforms options) (shape.itemSites layout platforms)
      visits .empty ⟨a.registry, a.diagnostics, a.decorations, a.hovers⟩ := by
  rw [Shape.isClear, Bool.and_eq_true] at hclear
  obtain ⟨f, g, hf, hg, rfl⟩ := (analysis_eq_ok hvalid).mp ha
  obtain ⟨rest, hthemed⟩ := text_themed
  obtain ⟨first, hfirst⟩ := walkSection_visits isKey_shared hvalid.shared hclear.1 text_shared
    (before_shared hvalid) hf
  obtain ⟨second, hsecond⟩ := walkSection_visits isKey_themed hvalid.visited hclear.2 hthemed
    (before_themed hvalid) hg
  rw [behind_append] at hsecond
  exact ⟨first ++ second, (hfirst.append hsecond).after _⟩

end Block
end DesignTokens
