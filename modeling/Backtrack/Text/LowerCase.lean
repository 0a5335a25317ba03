import Backtrack.Text.Category
import Backtrack.Text.Fold
import Backtrack.Text.Utf8

/-!
# Lower case

Every character has a lower case, which is itself unless it is a letter or sign of another case. It
is what case folding gives, apart from the script whose folding goes to the upper case and from the
letter that folding leaves alone.
-/

namespace Backtrack.Text

def lowerCodePoint (n : Nat) : Nat :=
  if category n = .ll || category n = .mn then n
  else if n = 0x130 then 0x69
  else if 0x13A0 ≤ n && n ≤ 0x13EF then n + 0x97D0
  else if 0x13F0 ≤ n && n ≤ 0x13F5 then n + 8
  else fold n

def lowerCase (text : Bytes) : Bytes :=
  Utf8.ofChars ((Utf8.chars text).map fun c => Char.ofNat (lowerCodePoint c.toNat))

end Backtrack.Text
