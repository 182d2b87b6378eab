/-!
The text of a tag.

A tag is written in characters and escaped octets. The octets need not encode a character, and a
NUL among them ends the tag. A tag that begins with an exclamation mark is local and has a name.
-/

namespace DesignTokens
namespace Yaml

/-- The characters of a tag; `none` stands for octets that encode no character. -/
abbrev TagText : Type :=
  List (Option Char)

namespace TagText

def ofChars (cs : List Char) : TagText :=
  cs.map some

def beforeNul (t : TagText) : TagText :=
  t.takeWhile (· != some '\x00')

def chars? (t : TagText) : Option (List Char) :=
  t.mapM id

def isLocal (t : TagText) : Bool :=
  t.head? == some (some '!')

def dropMark : List Char → List Char
  | '!' :: c :: cs => c :: cs
  | cs => cs

/-- The name of a local tag. The mark that makes the tag local is dropped, and a second one too, but
something is always left. -/
def localName? (t : TagText) : Option String :=
  if t.isLocal then t.chars?.map fun cs => String.ofList (dropMark (dropMark cs)) else none

end TagText
end Yaml
end DesignTokens
