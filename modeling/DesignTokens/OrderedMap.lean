/-!
Maps that remember the order in which their keys came.

Inserting a key again replaces its value and keeps its place, so the keys after an insertion are the
keys before it, with the new key at the end if it is new.
-/

namespace DesignTokens

/-- A finite map with its keys in order of arrival. -/
structure OrderedMap (α β : Type) where
  entries : List (α × β)
  deriving Repr

namespace OrderedMap

variable {α β : Type} [DecidableEq α]

def empty : OrderedMap α β :=
  ⟨[]⟩

def keys (m : OrderedMap α β) : List α :=
  m.entries.map Prod.fst

def size (m : OrderedMap α β) : Nat :=
  m.entries.length

def isEmpty (m : OrderedMap α β) : Bool :=
  m.entries.isEmpty

def find (key : α) : List (α × β) → Option β
  | [] => none
  | (k, v) :: entries => if k = key then some v else find key entries

def get? (m : OrderedMap α β) (key : α) : Option β :=
  find key m.entries

def contains (m : OrderedMap α β) (key : α) : Bool :=
  (m.get? key).isSome

/-- Puts `f` of the old value, if there is one, in the place of a key. -/
def put (key : α) (f : Option β → β) : List (α × β) → List (α × β)
  | [] => [(key, f none)]
  | (k, v) :: entries =>
      if k = key then (key, f (some v)) :: entries else (k, v) :: put key f entries

def insert (m : OrderedMap α β) (key : α) (value : β) : OrderedMap α β :=
  ⟨put key (fun _ => value) m.entries⟩

def erase (m : OrderedMap α β) (key : α) : OrderedMap α β :=
  ⟨m.entries.filter fun (k, _) => k ≠ key⟩

def extend (m : OrderedMap α (List β)) (key : α) (values : List β) : OrderedMap α (List β) :=
  ⟨put key (fun old => old.getD [] ++ values) m.entries⟩

/-- Appends to each list what another map has under the same key. -/
def extendAll (m more : OrderedMap α (List β)) : OrderedMap α (List β) :=
  more.entries.foldl (fun m (k, vs) => m.extend k vs) m

def ofList (entries : List (α × β)) : OrderedMap α β :=
  entries.foldl (fun m (k, v) => m.insert k v) empty

def mapValues {γ : Type} (m : OrderedMap α β) (f : β → γ) : OrderedMap α γ :=
  ⟨m.entries.map fun (k, v) => (k, f v)⟩

theorem find_put_self (key : α) (f : Option β → β) (entries : List (α × β)) :
    find key (put key f entries) = some (f (find key entries)) := by
  induction entries with
  | nil => simp [put, find]
  | cons e es ih =>
      obtain ⟨k, v⟩ := e
      by_cases h : k = key <;> simp [put, find, h, ih]

theorem find_put_of_ne {key other : α} (h : other ≠ key) (f : Option β → β)
    (entries : List (α × β)) :
    find other (put key f entries) = find other entries := by
  induction entries with
  | nil => simp [put, find, h.symm]
  | cons e es ih =>
      obtain ⟨k, v⟩ := e
      by_cases hk : k = key
      · subst hk
        simp [put, find, h.symm]
      · simp only [put, if_neg hk, find, ih]

@[simp] theorem get?_insert_self (m : OrderedMap α β) (key : α) (value : β) :
    (m.insert key value).get? key = some value :=
  find_put_self key _ m.entries

theorem get?_insert_of_ne (m : OrderedMap α β) {key other : α} (h : other ≠ key) (value : β) :
    (m.insert key value).get? other = m.get? other :=
  find_put_of_ne h _ m.entries

end OrderedMap
end DesignTokens
