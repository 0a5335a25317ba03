import Backtrack.Text.Category
import Backtrack.Text.Utf8

/-!
# Trimming
-/

namespace Backtrack.Text

def isBlankItem (item : Utf8.Item) : Bool := item.wellFormed && isBlank item.char.toNat

/-- A text without the white space at both ends. -/
def trim (text : Bytes) : Bytes :=
  let front := (Utf8.items text).dropWhile isBlankItem
  ((front.reverse.dropWhile isBlankItem).reverse).flatMap Utf8.Item.bytes

end Backtrack.Text
