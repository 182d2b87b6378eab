/-!
A text is a list of characters, and a place in it is a number of UTF-8 bytes.

Cutting a text at a byte offset succeeds only at a character boundary, so every function here that
takes an offset answers with an option. The two cuts fit together: what `takeBytes` gives, followed
by what `dropBytes` gives, is the text.
-/

namespace DesignTokens
namespace Text

def bytes : List Char → Nat
  | [] => 0
  | c :: cs => c.utf8Size + bytes cs

@[simp] theorem bytes_append (xs ys : List Char) : bytes (xs ++ ys) = bytes xs + bytes ys := by
  induction xs with
  | nil => simp [bytes]
  | cons c cs ih => simp [bytes, ih, Nat.add_assoc]

/-- The text from byte `n` on; nothing if `n` lies past the end or inside a character. -/
def dropBytes : Nat → List Char → Option (List Char)
  | 0, cs => some cs
  | _ + 1, [] => none
  | n + 1, c :: cs =>
      if c.utf8Size ≤ n + 1 then dropBytes (n + 1 - c.utf8Size) cs else none

def takeBytes : Nat → List Char → Option (List Char)
  | 0, _ => some []
  | _ + 1, [] => none
  | n + 1, c :: cs =>
      if c.utf8Size ≤ n + 1 then (takeBytes (n + 1 - c.utf8Size) cs).map (c :: ·) else none

theorem dropBytes_bytes_append (xs ys : List Char) : dropBytes (bytes xs) (xs ++ ys) = some ys := by
  induction xs with
  | nil => cases ys <;> rfl
  | cons c cs ih =>
      have hpos : 0 < c.utf8Size := c.utf8Size_pos
      obtain ⟨k, hk⟩ : ∃ k, c.utf8Size + bytes cs = k + 1 := ⟨c.utf8Size + bytes cs - 1, by omega⟩
      have hrest : k + 1 - c.utf8Size = bytes cs := by omega
      have hle : c.utf8Size ≤ k + 1 := by omega
      simp [bytes, hk, dropBytes, hle, hrest, ih]

def slice (start stop : Nat) (cs : List Char) : Option (List Char) :=
  if start ≤ stop then (dropBytes start cs).bind (takeBytes (stop - start)) else none

def find (word : List Char) : List Char → Option Nat
  | [] => if word.isEmpty then some 0 else none
  | c :: cs =>
      if word.isPrefixOf (c :: cs) then some 0 else (find word cs).map (· + c.utf8Size)

/-- Cuts a text after each newline, so that the pieces put together are the text again. -/
def lines : List Char → List (List Char)
  | [] => []
  | c :: cs =>
      if c = '\n' then [c] :: lines cs
      else
        match lines cs with
        | [] => [[c]]
        | l :: ls => (c :: l) :: ls

theorem flatten_lines (cs : List Char) : (lines cs).flatten = cs := by
  induction cs with
  | nil => rfl
  | cons c cs ih =>
      rw [lines]
      split
      · simp [ih]
      · split
        · rename_i h
          rw [h] at ih
          simp at ih
          simp [← ih]
        · rename_i h
          rw [h] at ih
          simp at ih
          simp [ih]

end Text
end DesignTokens
