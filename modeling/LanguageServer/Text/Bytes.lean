set_option autoImplicit false

/-! # Byte offsets into a text

Offsets count bytes of the UTF-8 form. A text is a list of characters here, so an offset that falls
inside a character is rounded down to where the character starts. -/

namespace LanguageServer.Text

/-- How many bytes the UTF-8 form has. -/
def byteLength : List Char → Nat
  | [] => 0
  | c :: rest => c.utf8Size + byteLength rest

/-- The characters that lie wholly in the first `n` bytes. -/
def takeBytes : (n : Nat) → List Char → List Char
  | _, [] => []
  | n, c :: rest => if c.utf8Size ≤ n then c :: takeBytes (n - c.utf8Size) rest else []

/-- The characters after those that lie wholly in the first `n` bytes. -/
def dropBytes : (n : Nat) → List Char → List Char
  | _, [] => []
  | n, c :: rest => if c.utf8Size ≤ n then dropBytes (n - c.utf8Size) rest else c :: rest

/-- The characters from one offset to another. -/
def slice (start stop : Nat) (cs : List Char) : List Char :=
  takeBytes (stop - start) (dropBytes start cs)

/-- Replace what lies between two offsets. -/
def splice (start stop : Nat) (insert : List Char) (cs : List Char) : List Char :=
  takeBytes start cs ++ insert ++ dropBytes stop cs

/-- The greatest offset at most `n` at which a character starts or the text ends. -/
def floorBoundary (n : Nat) (cs : List Char) : Nat := byteLength (takeBytes n cs)

@[simp] theorem byteLength_append (a b : List Char) :
    byteLength (a ++ b) = byteLength a + byteLength b := by
  induction a with
  | nil => simp [byteLength]
  | cons c rest ih => simp [byteLength, ih, Nat.add_assoc]

@[simp] theorem takeBytes_append_dropBytes (n : Nat) (cs : List Char) :
    takeBytes n cs ++ dropBytes n cs = cs := by
  induction cs generalizing n with
  | nil => rfl
  | cons c rest ih =>
    by_cases h : c.utf8Size ≤ n
    · simp [takeBytes, dropBytes, h, ih]
    · simp [takeBytes, dropBytes, h]

end LanguageServer.Text
