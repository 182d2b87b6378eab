/-!
Dotted paths of items. The items of the shared section live below `.shared`, the themed ones below
the empty path.
-/

namespace DesignTokens

/-- The keys that lead to a node. -/
structure ItemPath where
  segments : List String
  deriving DecidableEq, Repr, Inhabited

namespace ItemPath

def sharedKey : String :=
  ".shared"

def shared : ItemPath :=
  ⟨[sharedKey]⟩

def themed : ItemPath :=
  ⟨[]⟩

def child (path : ItemPath) (key : String) : ItemPath :=
  ⟨path.segments ++ [key]⟩

def isShared (path : ItemPath) : Bool :=
  path.segments.head? == some sharedKey

/-- The path as imports write it. -/
def text (path : ItemPath) : String :=
  ".".intercalate path.segments

end ItemPath
end DesignTokens
