import PageTrie.Hash
import PageTrie.Page.Edit

/-! Dividing the pairs of a page between two pages by bits of the key hash. The order of
the pairs is kept on both sides. -/
namespace PageTrie

structure Halves where
  stay : Page
  moved : Page
  deriving DecidableEq

namespace Halves

def place (bit : UInt32) (halves : Halves) (pair : Pair) : Except StoreError Halves :=
  if keyHash pair.key &&& bit ≠ 0 then
    (halves.moved.insert pair).map fun page => { halves with moved := page }
  else
    (halves.stay.insert pair).map fun page => { halves with stay := page }

end Halves

/-- Pairs whose hash meets `bit` go to `moved`, the others to `stay`. -/
def Page.divide (page : Page) (bit : UInt32) : Except StoreError Halves :=
  page.toList.foldlM (Halves.place bit) ⟨Page.empty, Page.empty⟩

end PageTrie
