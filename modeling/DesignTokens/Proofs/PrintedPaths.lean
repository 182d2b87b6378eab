import DesignTokens.Proofs.Imports
import Mathlib.Data.List.Dedup

/-!
When two items are registered under one printed path.

A path is printed as its keys joined by dots, and a key may itself contain dots.  So printing forgets
where the keys begin and end: two paths print alike exactly if cutting every key at its dots gives
the same pieces (`ItemPath.text_eq_text_iff`).  The registry has an entry for every item of a known
type exactly if no two of them have the same pieces.  This is so if no key has a dot in it, no two
members of a collection share a key, and no child of the themed section has the empty key, which
prints like the beginning of a shared path.
-/

namespace DesignTokens

namespace OrderedMap

variable {α β : Type} [DecidableEq α]

theorem mem_keys_foldl_insert (entries : List (α × β)) (m : OrderedMap α β) (key : α) :
    key ∈ (entries.foldl (fun m (k, v) => m.insert k v) m).keys ↔
      key ∈ entries.map Prod.fst ∨ key ∈ m.keys := by
  induction entries generalizing m with
  | nil => simp
  | cons e es ih =>
      rw [List.foldl_cons, ih, mem_keys_insert, List.map_cons, List.mem_cons]
      tauto

theorem mem_keys_ofList {entries : List (α × β)} {key : α} :
    key ∈ (ofList entries).keys ↔ key ∈ entries.map Prod.fst := by
  have hempty : key ∉ (empty : OrderedMap α β).keys := List.not_mem_nil
  rw [ofList, mem_keys_foldl_insert, or_iff_left hempty]

theorem size_ofList (entries : List (α × β)) :
    (ofList entries).size = (entries.map Prod.fst).dedup.length := by
  have hperm : (ofList entries).keys.Perm (entries.map Prod.fst).dedup :=
    (List.perm_ext_iff_of_nodup (distinct_ofList entries) (List.nodup_dedup _)).mpr
      fun key => by rw [mem_keys_ofList, List.mem_dedup]
  have hlength := hperm.length_eq
  rw [keys, List.length_map] at hlength
  exact hlength

theorem size_ofList_eq_iff {entries : List (α × β)} :
    (ofList entries).size = entries.length ↔ (entries.map Prod.fst).Nodup := by
  rw [size_ofList]
  constructor
  · intro h
    rw [← List.dedup_eq_self]
    exact (List.dedup_sublist _).eq_of_length (by rw [h, List.length_map])
  · intro h
    rw [List.dedup_eq_self.mpr h, List.length_map]

theorem entries_ofList_eq_iff {entries : List (α × β)} :
    (ofList entries).entries = entries ↔ (entries.map Prod.fst).Nodup := by
  refine ⟨fun h => ?_, entries_ofList⟩
  have hdistinct : ((ofList entries).entries.map Prod.fst).Nodup := distinct_ofList entries
  rwa [h] at hdistinct

end OrderedMap

/-! ## Printing a path -/

namespace ItemPath

/-- The keys of a path, cut at their dots.  The path without keys prints as the empty key does. -/
def pieces (path : ItemPath) : List (List Char) :=
  match path.segments with
  | [] => [[]]
  | key :: keys => (key :: keys).flatMap fun key => key.toList.splitOn '.'

theorem splitOn_intercalate_cons (xs : List Char) (rest : List (List Char)) :
    (List.intercalate ['.'] (xs :: rest)).splitOn '.' =
      (xs :: rest).flatMap fun cs => cs.splitOn '.' := by
  induction rest generalizing xs with
  | nil => simp [List.intercalate]
  | cons ys rest ih =>
      have hcons : List.intercalate ['.'] (xs :: ys :: rest) =
          xs ++ '.' :: List.intercalate ['.'] (ys :: rest) := by
        simp [List.intercalate]
      rw [hcons, List.splitOn_append_cons_self, ih]
      rfl

theorem pieces_eq_splitOn (path : ItemPath) : path.pieces = path.text.toList.splitOn '.' := by
  obtain ⟨segments⟩ := path
  cases segments with
  | nil => rfl
  | cons key keys =>
      have htext : (text ⟨key :: keys⟩).toList =
          List.intercalate ['.'] (key.toList :: keys.map String.toList) := by
        rw [text, String.toList_intercalate, List.map_cons]
        rfl
      rw [htext, splitOn_intercalate_cons, pieces]
      simp only [List.flatMap_cons, List.flatMap_map]

/-- Two paths print alike exactly if they have the same pieces. -/
theorem text_eq_text_iff {p q : ItemPath} : p.text = q.text ↔ p.pieces = q.pieces := by
  rw [pieces_eq_splitOn, pieces_eq_splitOn]
  refine ⟨fun h => by rw [h], fun h => ?_⟩
  have hjoin := congrArg (List.intercalate ['.']) h
  rw [List.intercalate_splitOn, List.intercalate_splitOn] at hjoin
  exact String.toList_inj.mp hjoin

theorem nodup_map_text_iff {paths : List ItemPath} :
    (paths.map text).Nodup ↔ (paths.map pieces).Nodup := by
  rw [List.Nodup, List.Nodup, List.pairwise_map, List.pairwise_map]
  simp only [ne_eq, text_eq_text_iff]

theorem flatMap_splitOn_of_plain {keys : List String} (h : ∀ key ∈ keys, '.' ∉ key.toList) :
    (keys.flatMap fun key => key.toList.splitOn '.') = keys.map String.toList := by
  induction keys with
  | nil => rfl
  | cons key keys ih =>
      rw [List.forall_mem_cons] at h
      rw [List.flatMap_cons, List.splitOn_eq_singleton h.1, ih h.2, List.map_cons,
        List.singleton_append]

theorem pieces_themed {key : String} {keys : List String}
    (h : ∀ k ∈ key :: keys, '.' ∉ k.toList) :
    pieces ⟨key :: keys⟩ = key.toList :: keys.map String.toList :=
  flatMap_splitOn_of_plain h

theorem pieces_shared {keys : List String} (h : ∀ k ∈ keys, '.' ∉ k.toList) :
    pieces ⟨sharedKey :: keys⟩ = [] :: "shared".toList :: keys.map String.toList := by
  have hkey : sharedKey.toList.splitOn '.' = [[], "shared".toList] := by decide
  have hpieces : pieces ⟨sharedKey :: keys⟩ =
      sharedKey.toList.splitOn '.' ++ keys.flatMap fun key => key.toList.splitOn '.' := rfl
  rw [hpieces, hkey, flatMap_splitOn_of_plain h]
  rfl

end ItemPath

/-! ## Documents with plain keys -/

def memberKeys (members : List Member) : List String :=
  members.filterMap fun member => member.child?.map Prod.fst

namespace Node

mutual

/-- No key below the node has a dot in it, and no two members of a collection share a key. -/
def hasPlainKeys : Node → Bool
  | .item _ => true
  | .collection _ members => decide (memberKeys members).Nodup && havePlainKeys members

def havePlainKeys : List Member → Bool
  | [] => true
  | .platforms :: members => havePlainKeys members
  | .child key node :: members =>
      decide ('.' ∉ key.toList) && hasPlainKeys node && havePlainKeys members

end

def childKeys : Node → List String
  | .item _ => []
  | .collection _ members => memberKeys members

end Node

namespace Analysis

/-- The keys of both sections are plain, and no child of the themed section has the empty key. -/
def hasPlainKeys (themes : Themes) (document : Document) : Bool :=
  document.shared.all Node.hasPlainKeys &&
    (themedSection themes document).all fun node =>
      node.hasPlainKeys && decide ("" ∉ node.childKeys)

/-- The keys go on from `base` with keys that have no dot in them. -/
def Below (base keys : List String) : Prop :=
  ∃ more, keys = base ++ more ∧ ∀ key ∈ more, '.' ∉ key.toList

theorem Below.of_child {base keys : List String} {key : String} (hkey : '.' ∉ key.toList)
    (h : Below (base ++ [key]) keys) :
    ∃ more, keys = base ++ key :: more ∧ ∀ k ∈ key :: more, '.' ∉ k.toList := by
  obtain ⟨more, rfl, hmore⟩ := h
  exact ⟨more, by simp, List.forall_mem_cons.mpr ⟨hkey, hmore⟩⟩

def keysOf (items : List (ItemPath × Item)) : List (List String) :=
  items.map fun item => item.1.segments

mutual

/-- Below a node with plain keys, no two items are led to by the same keys. -/
theorem keysOf_nodeItems (path : ItemPath) (node : Node) (h : node.hasPlainKeys = true) :
    (keysOf (nodeItems path node)).Nodup ∧
      ∀ keys ∈ keysOf (nodeItems path node), Below path.segments keys := by
  cases node with
  | item content =>
      simp only [nodeItems, keysOf, List.map_cons, List.map_nil, List.mem_singleton]
      exact ⟨List.nodup_singleton _, fun keys hkeys => ⟨[], by simp [hkeys], by simp⟩⟩
  | collection own members =>
      rw [Node.hasPlainKeys, Bool.and_eq_true, decide_eq_true_eq] at h
      obtain ⟨hnodup, hbelow⟩ := keysOf_memberItems path members h.1 h.2
      rw [nodeItems]
      refine ⟨hnodup, fun keys hkeys => ?_⟩
      obtain ⟨key, -, more, rfl, hmore⟩ := hbelow keys hkeys
      exact ⟨key :: more, rfl, hmore⟩

theorem keysOf_memberItems (path : ItemPath) (members : List Member)
    (hdistinct : (memberKeys members).Nodup) (h : Node.havePlainKeys members = true) :
    (keysOf (memberItems path members)).Nodup ∧
      ∀ keys ∈ keysOf (memberItems path members), ∃ key ∈ memberKeys members, ∃ more,
        keys = path.segments ++ key :: more ∧ ∀ k ∈ key :: more, '.' ∉ k.toList := by
  match members with
  | [] => exact ⟨List.nodup_nil, by simp [memberItems, keysOf]⟩
  | .platforms :: members =>
      rw [Node.havePlainKeys] at h
      rw [memberItems]
      exact keysOf_memberItems path members hdistinct h
  | .child key node :: members =>
      simp only [Node.havePlainKeys, Bool.and_eq_true, decide_eq_true_eq, and_assoc] at h
      obtain ⟨hkey, hnode, hrest⟩ := h
      have hmembers : memberKeys (.child key node :: members) = key :: memberKeys members := rfl
      rw [hmembers, List.nodup_cons] at hdistinct
      obtain ⟨hnodup, hbelow⟩ := keysOf_nodeItems (path.child key) node hnode
      obtain ⟨hnodupRest, hbelowRest⟩ := keysOf_memberItems path members hdistinct.2 hrest
      have hkeys : keysOf (memberItems path (.child key node :: members)) =
          keysOf (nodeItems (path.child key) node) ++ keysOf (memberItems path members) := by
        rw [memberItems, keysOf, List.map_append]
        rfl
      rw [hkeys, hmembers]
      refine ⟨List.nodup_append.mpr ⟨hnodup, hnodupRest, ?_⟩, ?_⟩
      · -- The items of this child and those of the others part at the key of the child.
        rintro keys hhere _ hthere rfl
        obtain ⟨more, rfl, -⟩ := (hbelow keys hhere).of_child hkey
        obtain ⟨other, hother, more', heq, -⟩ := hbelowRest _ hthere
        obtain ⟨rfl, -⟩ := List.cons.inj (List.append_cancel_left heq)
        exact hdistinct.1 hother
      · intro keys hmem
        rcases List.mem_append.mp hmem with hmem | hmem
        · exact ⟨key, List.mem_cons_self, (hbelow keys hmem).of_child hkey⟩
        · obtain ⟨other, hother, hmore⟩ := hbelowRest keys hmem
          exact ⟨other, List.mem_cons_of_mem _ hother, hmore⟩

end

/-! ## Plain keys are not confused -/

def piecesOf (items : List (ItemPath × Item)) : List (List (List Char)) :=
  items.map fun item => item.1.pieces

theorem piecesOf_eq (items : List (ItemPath × Item)) :
    piecesOf items = (keysOf items).map fun keys => ItemPath.pieces ⟨keys⟩ := by
  rw [piecesOf, keysOf, List.map_map]
  rfl

theorem map_toList_injective : Function.Injective (List.map String.toList) :=
  List.map_injective_iff.mpr fun _ _ h => String.toList_injective h

/-- The pieces of a shared path begin with an empty one and the word that names the section. -/
theorem pieces_sectionItems_shared {node : Option Node}
    (h : node.all Node.hasPlainKeys = true) :
    (piecesOf (sectionItems .shared node)).Nodup ∧
      ∀ pieces ∈ piecesOf (sectionItems .shared node), ∃ more,
        pieces = [] :: "shared".toList :: more := by
  cases node with
  | none => exact ⟨List.nodup_nil, by simp [sectionItems, piecesOf]⟩
  | some node =>
      obtain ⟨hnodup, hbelow⟩ := keysOf_nodeItems .shared node h
      have hpieces : ∀ keys ∈ keysOf (nodeItems .shared node), ∃ more,
          keys = ItemPath.sharedKey :: more ∧
            ItemPath.pieces ⟨keys⟩ = [] :: "shared".toList :: more.map String.toList := by
        intro keys hkeys
        obtain ⟨more, rfl, hmore⟩ := hbelow keys hkeys
        exact ⟨more, rfl, ItemPath.pieces_shared hmore⟩
      have hsection : sectionItems .shared (some node) = nodeItems .shared node := rfl
      rw [hsection, piecesOf_eq]
      constructor
      · refine hnodup.map_on fun keys hkeys keys' hkeys' heq => ?_
        obtain ⟨more, rfl, hmore⟩ := hpieces keys hkeys
        obtain ⟨more', rfl, hmore'⟩ := hpieces keys' hkeys'
        rw [hmore, hmore', List.cons.injEq, List.cons.injEq] at heq
        rw [map_toList_injective heq.2.2]
      · intro pieces hmem
        obtain ⟨keys, hkeys, rfl⟩ := List.mem_map.mp hmem
        obtain ⟨more, -, hmore⟩ := hpieces keys hkeys
        exact ⟨_, hmore⟩

/-- The pieces of a themed path are its keys, of which the first is not empty. -/
theorem pieces_sectionItems_themed {node : Node} (h : node.hasPlainKeys = true)
    (hempty : "" ∉ node.childKeys) :
    (piecesOf (sectionItems .themed (some node))).Nodup ∧
      ∀ pieces ∈ piecesOf (sectionItems .themed (some node)), ∀ more,
        pieces ≠ [] :: "shared".toList :: more := by
  cases node with
  | item content =>
      have hpieces : piecesOf (sectionItems .themed (some (.item content))) = [[[]]] := rfl
      rw [hpieces]
      exact ⟨List.nodup_singleton _, by simp⟩
  | collection own members =>
      rw [Node.hasPlainKeys, Bool.and_eq_true, decide_eq_true_eq] at h
      obtain ⟨hnodup, hbelow⟩ := keysOf_memberItems .themed members h.1 h.2
      have hpieces : ∀ keys ∈ keysOf (memberItems .themed members), ∃ key more,
          keys = key :: more ∧ key ≠ "" ∧
            ItemPath.pieces ⟨keys⟩ = key.toList :: more.map String.toList := by
        intro keys hkeys
        obtain ⟨key, hkey, more, rfl, hmore⟩ := hbelow keys hkeys
        refine ⟨key, more, rfl, ?_, ItemPath.pieces_themed hmore⟩
        rintro rfl
        exact hempty hkey
      have hsection : sectionItems .themed (some (.collection own members)) =
          memberItems .themed members := by
        rw [sectionItems, Option.map_some, Option.getD_some, nodeItems]
      rw [hsection, piecesOf_eq]
      constructor
      · refine hnodup.map_on fun keys hkeys keys' hkeys' heq => ?_
        obtain ⟨key, more, rfl, -, hmore⟩ := hpieces keys hkeys
        obtain ⟨key', more', rfl, -, hmore'⟩ := hpieces keys' hkeys'
        rw [hmore, hmore', List.cons.injEq] at heq
        rw [String.toList_injective heq.1, map_toList_injective heq.2]
      · intro pieces hmem more heq
        obtain ⟨keys, hkeys, rfl⟩ := List.mem_map.mp hmem
        obtain ⟨key, rest, -, hkey, hrest⟩ := hpieces keys hkeys
        rw [hrest, List.cons.injEq, String.toList_eq_nil_iff] at heq
        exact hkey heq.1

/-- Under plain keys, no two items of a document have the same pieces. -/
theorem piecesOf_walkOrder {themes : Themes} {document : Document}
    (h : hasPlainKeys themes document = true) :
    (piecesOf (walkOrder themes document)).Nodup := by
  rw [hasPlainKeys, Bool.and_eq_true] at h
  obtain ⟨hshared, hbegin⟩ := pieces_sectionItems_shared h.1
  have happend : piecesOf (walkOrder themes document) =
      piecesOf (sectionItems .shared document.shared) ++
        piecesOf (sectionItems .themed (themedSection themes document)) := List.map_append
  rw [happend]
  cases hnode : themedSection themes document with
  | none => simpa [sectionItems, piecesOf] using hshared
  | some node =>
      have hplain := h.2
      rw [hnode, Option.all_some, Bool.and_eq_true, decide_eq_true_eq] at hplain
      obtain ⟨hthemed, hother⟩ := pieces_sectionItems_themed hplain.1 hplain.2
      refine List.nodup_append.mpr ⟨hshared, hthemed, ?_⟩
      rintro pieces hhere _ hthere rfl
      obtain ⟨more, hmore⟩ := hbegin pieces hhere
      exact hother pieces hthere more hmore

/-! ## The theorem -/

def typedItems (themes : Themes) (document : Document) : List (ItemPath × Item) :=
  (walkOrder themes document).filter fun item => item.2.type.isOk

theorem map_entry?_fst {visits : List ItemVisit}
    (h : ∀ v ∈ visits, v.context.report v.inherited = .ok v.report) :
    (visits.filterMap ItemVisit.entry?).map Prod.fst =
      (((visits.map ItemVisit.subject).filter fun item => item.2.type.isOk).map Prod.fst).map
        ItemPath.text := by
  induction visits with
  | nil => rfl
  | cons v visits ih =>
      rw [List.forall_mem_cons] at h
      have hsome : v.report.bundle.isSome = v.subject.2.type.isOk := ItemVisit.isSome_bundle h.1
      rw [List.map_cons, List.filter_cons, ← hsome]
      cases hbundle : v.report.bundle with
      | none => simpa [ItemVisit.entry?, hbundle] using ih h.2
      | some bundle => simpa [ItemVisit.entry?, hbundle, ItemVisit.subject] using ih h.2

/-- The registry holds every item of a known type under a path of its own exactly if no two of these
items have the same pieces; and so it is in every document with plain keys. -/
theorem registry_complete_iff {options : Options} {text : List Char} {document : Document}
    {a : Analysis} (hread : Document.ofText text = .ok document)
    (ha : ofText options text = .ok a) :
    ∃ log, documentLog (settingOf options text document a.themes) document = .ok log ∧
      log.visits.map ItemVisit.subject = walkOrder a.themes document ∧
      (a.registry.size = (typedItems a.themes document).length ↔
        (piecesOf (typedItems a.themes document)).Nodup) ∧
      (a.registry.entries = log.visits.filterMap ItemVisit.entry? ↔
        (piecesOf (typedItems a.themes document)).Nodup) ∧
      (hasPlainKeys a.themes document = true →
        (piecesOf (typedItems a.themes document)).Nodup) := by
  obtain ⟨log, hlog⟩ := exists_isLog hread ha
  have hpaths := map_entry?_fst hlog.tells.report_eq
  rw [hlog.tells.subjects] at hpaths
  have hregistry : a.registry = .ofList (log.visits.filterMap ItemVisit.entry?) :=
    hlog.tells.registry
  have hlength : (log.visits.filterMap ItemVisit.entry?).length =
      (typedItems a.themes document).length := by
    simpa [typedItems] using congrArg List.length hpaths
  have hpieces : piecesOf (typedItems a.themes document) =
      ((typedItems a.themes document).map Prod.fst).map ItemPath.pieces := by
    rw [piecesOf, List.map_map]
    rfl
  have hnodup : ((log.visits.filterMap ItemVisit.entry?).map Prod.fst).Nodup ↔
      (piecesOf (typedItems a.themes document)).Nodup := by
    rw [hpaths, hpieces, ← ItemPath.nodup_map_text_iff]
    rfl
  refine ⟨log, hlog.made, hlog.tells.subjects, ?_, ?_, fun hplain => ?_⟩
  · rw [hregistry, ← hlength, OrderedMap.size_ofList_eq_iff]
    exact hnodup
  · rw [hregistry, OrderedMap.entries_ofList_eq_iff]
    exact hnodup
  · exact (piecesOf_walkOrder hplain).sublist (List.filter_sublist.map _)

/-- Two items, one under the key `a.b` and one under the key `b` of a collection `a`. -/
def dottedText : List Char :=
  (".themes: [light]\n.themed:\n  a.b:\n    .type: int\n    light: 1\n  a:\n    b:\n"
    ++ "      .type: int\n      light: 2\n").toList

/-- Both items are registered at `a.b`, where the second replaces the first. -/
theorem dottedText_collides : ∃ document a, Document.ofText dottedText = .ok document ∧
    ofText .default dottedText = .ok a ∧
    keysOf (typedItems a.themes document) = [["a.b"], ["a", "b"]] ∧ a.registry.size = 1 ∧
    ¬(piecesOf (typedItems a.themes document)).Nodup := by
  have hpasses : passes .default dottedText (fun document a =>
      decide (keysOf (typedItems a.themes document) = [["a.b"], ["a", "b"]] ∧
        a.registry.size = 1)) = true := by
    decide +kernel
  obtain ⟨document, a, hread, ha, htest⟩ := passes_iff.mp hpasses
  obtain ⟨hkeys, hsize⟩ := of_decide_eq_true htest
  obtain ⟨log, -, -, hiff, -⟩ := registry_complete_iff hread ha
  refine ⟨document, a, hread, ha, hkeys, hsize, fun hnodup => ?_⟩
  have hlength := congrArg List.length hkeys
  rw [keysOf, List.length_map, ← hiff.mpr hnodup, hsize] at hlength
  cases hlength

end Analysis
end DesignTokens
