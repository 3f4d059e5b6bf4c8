/-! Text as a list of characters, the blank characters, and the trimming of blanks. -/

set_option autoImplicit false

namespace SqlLayout

abbrev Text := List Char

namespace Text

def isAscii (c : Char) : Bool := c.toNat < 0x80

/-- The characters that have the Unicode property White_Space. -/
def isBlank (c : Char) : Bool :=
  let n := c.toNat
  (0x9 ≤ n && n ≤ 0xD) || n == 0x20 || n == 0x85 || n == 0xA0 || n == 0x1680 ||
    (0x2000 ≤ n && n ≤ 0x200A) || n == 0x2028 || n == 0x2029 || n == 0x202F ||
    n == 0x205F || n == 0x3000

/-- The blanks between tokens: space, tab, line feed, carriage return and form feed. -/
def isGap (c : Char) : Bool :=
  c == ' ' || c == '\t' || c == '\n' || c == '\r' || c == '\x0c'

theorem isBlank_of_isGap {c : Char} (h : isGap c = true) : isBlank c = true := by
  simp only [isGap, Bool.or_eq_true, beq_iff_eq] at h
  rcases h with (((rfl | rfl) | rfl) | rfl) | rfl <;> rfl

def dropEndWhile (p : Char → Bool) (t : Text) : Text :=
  (t.reverse.dropWhile p).reverse

def trimEnd (t : Text) : Text := dropEndWhile isBlank t

def trim (t : Text) : Text := trimEnd (t.dropWhile isBlank)

/-- Nothing but blanks, the empty text included. -/
def isBlankText (t : Text) : Bool := t.all isBlank

def ink (t : Text) : Nat := t.countP fun c => !isBlank c

@[simp] theorem ink_nil : ink [] = 0 := rfl

@[simp] theorem ink_append (s t : Text) : ink (s ++ t) = ink s + ink t :=
  List.countP_append

def spaces (n : Nat) : Text := List.replicate n ' '

@[simp] theorem ink_spaces (n : Nat) : ink (spaces n) = 0 := by
  simp [ink, spaces, List.countP_replicate, show isBlank ' ' = true from rfl]

def join (sep : Text) (parts : List Text) : Text := List.intercalate sep parts

def sameLetters (s t : Text) : Bool :=
  s.map Char.toLower == t.map Char.toLower

end Text

end SqlLayout
