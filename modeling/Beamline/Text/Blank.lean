/-!
# Blank characters and trimming

* `isBlank` : the characters with the Unicode property `White_Space`;
* `trim` : the text without the blanks at both ends, on character lists (`trimStart`, `trimEnd`,
  `trim`) and on strings (`trimmed`);
* `isGap` : the four blanks that separate tokens in the textual formats read here.
-/

namespace Beamline.Text

/-- The characters with the Unicode property `White_Space`. -/
def isBlank (c : Char) : Bool :=
  let n := c.toNat
  (0x9 ≤ n && n ≤ 0xd) || n == 0x20 || n == 0x85 || n == 0xa0 || n == 0x1680 ||
    (0x2000 ≤ n && n ≤ 0x200a) || n == 0x2028 || n == 0x2029 || n == 0x202f || n == 0x205f ||
    n == 0x3000

/-- Space, tab, line feed and carriage return. -/
def isGap (c : Char) : Bool :=
  c == ' ' || c == '\t' || c == '\n' || c == '\r'

def trimStart (cs : List Char) : List Char :=
  cs.dropWhile isBlank

def trimEnd (cs : List Char) : List Char :=
  (cs.reverse.dropWhile isBlank).reverse

def trim (cs : List Char) : List Char :=
  trimEnd (trimStart cs)

/-- `trim` on strings. -/
def trimmed (s : String) : String :=
  String.ofList (trim s.toList)

/-- The text after the gap it starts with. -/
def skipGap (cs : List Char) : List Char :=
  cs.dropWhile isGap

/-- ASCII letters in upper case, everything else as it is. -/
def upper (cs : List Char) : List Char :=
  cs.map Char.toUpper

/-- ASCII letters in lower case, everything else as it is. -/
def lower (cs : List Char) : List Char :=
  cs.map Char.toLower

/-- The bytes that `cs` takes in UTF-8. -/
def byteCount (cs : List Char) : Nat :=
  cs.foldl (fun n c => n + c.utf8Size) 0

theorem isBlank_of_isGap {c : Char} (h : isGap c = true) : isBlank c = true := by
  simp only [isGap, Bool.or_eq_true, beq_iff_eq] at h
  rcases h with ((rfl | rfl) | rfl) | rfl <;> decide

end Beamline.Text
