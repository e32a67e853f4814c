import PageTrie.Error
import PageTrie.Page.Basic

/-! Adding a pair to a page and erasing one. Both work in place on the page's bytes, and
both leave a page that they refuse to change exactly as it was. -/
namespace PageTrie.Page

def insert (page : Page) (pair : Pair) : Except StoreError Page :=
  if page.hasRoom pair.size then
    let n := page.slotsUsed
    let keyStart := page.dataFloor - pair.key.length
    let valueStart := keyStart - pair.value.length
    let filled : Page := ⟨(page.bytes.patch keyStart pair.key).patch valueStart pair.value⟩
    .ok (((filled.setSlot (n + 1) keyStart).setSlot (n + 2) valueStart).setSlot 0 (n + 2))
  else .error (.pageFull pair.size page.room)

/-- Moves `count` slots two places down from slot `i` on, raising each offset by `gap`. -/
def shiftSlots (page : Page) (gap i : Nat) : (count : Nat) → Page
  | 0 => page
  | count + 1 => shiftSlots (page.setSlot i (page.slot (i + 2) + gap)) gap (i + 1) count

/-- Closes the gap that pair `p` leaves by moving the pair bytes below it up. The last pair
only needs the count dropped. -/
def closeGap (page : Page) (p : Nat) : Page :=
  let n := page.slotsUsed
  let i := 2 * p + 1
  if i < n - 1 then
    let top := if p = 0 then pageSize else page.slot (i - 1)
    let bottom := page.slot (i + 1)
    let gap := top - bottom
    let low := page.slot n
    let moved : Page := ⟨page.bytes.patch (low + gap) (page.bytes.slice low bottom)⟩
    (moved.shiftSlots gap i (n - 1 - i)).setSlot 0 (n - 2)
  else page.setSlot 0 (n - 2)

def erase? (page : Page) (key : Bytes) : Option Page :=
  if page.isWellFormed then (page.indexOf? key).map page.closeGap else none

def ofList (pairs : List Pair) : Except StoreError Page := pairs.foldlM insert empty

theorem insert_of_not_hasRoom {page : Page} {pair : Pair} (h : page.hasRoom pair.size = false) :
    page.insert pair = .error (.pageFull pair.size page.room) := by
  simp [insert, h]

theorem erase?_of_not_isWellFormed {page : Page} (h : page.isWellFormed = false) (key : Bytes) :
    page.erase? key = none := by
  simp [erase?, h]

end PageTrie.Page
