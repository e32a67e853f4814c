import PageTrie.Proofs.Page.Erasure

/-! A page is an ordered list of pairs. `LaysOut` says on the bytes where each pair of a list
lies; a well-formed page lays out one list only, answers every lookup from it, and follows it
through insertions and erasures. -/
namespace PageTrie

def content (pairs : List Pair) : Nat := (pairs.map Pair.size).sum

theorem weight_eq_content_add (pairs : List Pair) :
    weight pairs = content pairs + 4 * pairs.length := by
  induction pairs with
  | nil => rfl
  | cons pair rest ih =>
    have hfirst : pair.footprint = pair.size + 4 := rfl
    have hrest : content (pair :: rest) = pair.size + content rest := rfl
    rw [weight_cons, ih, hfirst, hrest, List.length_cons]
    omega

theorem content_take_succ {pairs : List Pair} {p : Nat} (hp : p < pairs.length) :
    content (pairs.take (p + 1)) = content (pairs.take p) + pairs[p].size := by
  rw [List.take_succ_eq_append_getElem hp, content, List.map_append, List.sum_append, ← content]
  simp

theorem content_take_le (pairs : List Pair) (p : Nat) : content (pairs.take p) ≤ content pairs := by
  unfold content
  exact ((List.take_sublist p pairs).map Pair.size).sum_le_sum (fun _ _ => Nat.zero_le _)

inductive Edit where
  | insert (pair : Pair)
  | erase (key : Bytes)
  deriving DecidableEq, Repr

/-- No byte string takes half of the address space, and neither do the two of a pair. -/
def Edit.InRange : Edit → Prop
  | .insert pair => pair.size < 2 ^ 63
  | .erase _ => True

namespace Page

/-- The count, the slots and the pair bytes of a page are those of a list of pairs: the first
pair ends at the end of the page, and each further one ends where the one before begins. -/
structure LaysOut (page : Page) (pairs : List Pair) : Prop where
  count : page.slotsUsed = 2 * pairs.length
  weight_le : weight pairs ≤ 1022
  placed : ∀ p, (hp : p < pairs.length) →
    let keyEnd := 1024 - content (pairs.take p)
    let keyStart := keyEnd - pairs[p].key.length
    let valueStart := keyStart - pairs[p].value.length
    page.slot (2 * p + 1) = keyStart ∧ page.slot (2 * p + 2) = valueStart ∧
      page.bytes.slice keyStart keyEnd = pairs[p].key ∧
      page.bytes.slice valueStart keyStart = pairs[p].value

/-- What a page answers to every lookup, read off a list of pairs. -/
structure Shows (page : Page) (pairs : List Pair) : Prop where
  toList_eq : page.toList = pairs
  size_eq : page.size = pairs.length
  pair?_eq : ∀ p, page.pair? p = pairs[p]?
  key?_eq : ∀ p, page.key? p = pairs[p]?.map (·.key)
  room_eq : page.room = 1022 - weight pairs
  get?_eq : ∀ key, page.get? key = (pairs.find? fun pair => pair.key == key).map (·.value)
  contains_eq : ∀ key, page.contains key = pairs.any fun pair => pair.key == key

def edit (page : Page) : Edit → Except StoreError Bool × Page
  | .insert pair =>
    match page.insert pair with
    | .ok page' => (.ok true, page')
    | .error cause => (.error cause, page)
  | .erase key =>
    match page.erase? key with
    | some page' => (.ok true, page')
    | none => (.ok false, page)

/-- What a change does to a list of pairs for which there are 1022 bytes. -/
def editList (pairs : List Pair) : Edit → Except StoreError Bool × List Pair
  | .insert pair =>
    if weight pairs + (pair.key.length + pair.value.length + 4) ≤ 1022 then
      (.ok true, pairs ++ [pair])
    else (.error (.pageFull (pair.key.length + pair.value.length) (1022 - weight pairs)), pairs)
  | .erase key =>
    if ∃ pair ∈ pairs, pair.key = key then (.ok true, pairs.eraseP fun pair => pair.key == key)
    else (.ok false, pairs)

def edits (page : Page) (changes : List Edit) : Page :=
  changes.foldl (fun page change => (page.edit change).2) page

def editsList (pairs : List Pair) (changes : List Edit) : List Pair :=
  changes.foldl (fun pairs change => (editList pairs change).2) pairs

/-- A page takes a change as the list does, and keeps every byte if it refuses. -/
structure Follows (page : Page) (pairs : List Pair) (change : Edit) : Prop where
  answer_eq : (page.edit change).1 = (editList pairs change).1
  isWellFormed : (page.edit change).2.isWellFormed = true
  laysOut : (page.edit change).2.LaysOut (editList pairs change).2
  kept : (page.edit change).1 ≠ .ok true → (page.edit change).2 = page

section LaysOut

variable {page : Page} {pairs : List Pair} (h : page.LaysOut pairs)
include h

theorem LaysOut.size_eq : page.size = pairs.length := by
  rw [size, h.count]
  omega

theorem LaysOut.content_le (p : Nat) :
    content (pairs.take p) + 4 * pairs.length + 2 ≤ 1024 := by
  have hweight := h.weight_le
  have hcontent := content_take_le pairs p
  rw [weight_eq_content_add] at hweight
  omega

theorem LaysOut.edge_eq {p : Nat} (hp : p ≤ pairs.length) :
    page.edge p = 1024 - content (pairs.take p) := by
  cases p with
  | zero => rfl
  | succ p =>
    obtain ⟨-, hvalue, -⟩ := h.placed p hp
    rw [edge_succ, hvalue, content_take_succ hp, Pair.size]
    omega

theorem LaysOut.inOrder : page.InOrder := by
  have hsize := h.size_eq
  refine ⟨by rw [h.count, hsize], ?_, ?_, ?_⟩
  · have hcontent := h.content_le pairs.length
    rw [hsize, h.edge_eq (Nat.le_refl _), indexEnd, h.count]
    omega
  · intro p hp
    rw [hsize] at hp
    obtain ⟨hkey, -⟩ := h.placed p hp
    rw [hkey, h.edge_eq (Nat.le_of_lt hp)]
    exact Nat.sub_le _ _
  · intro p hp
    rw [hsize] at hp
    obtain ⟨hkey, hvalue, -⟩ := h.placed p hp
    rw [hkey, edge_succ, hvalue]
    exact Nat.sub_le _ _

theorem LaysOut.toList_eq : page.toList = pairs := by
  apply h.inOrder.toList_eq_of_pairAt h.size_eq
  intro p hp
  obtain ⟨hkey, hvalue, hkeyBytes, hvalueBytes⟩ := h.placed p hp
  simp only [pairAt, cut, extentAt, edge_succ, h.edge_eq (Nat.le_of_lt hp), hkey, hvalue,
    hkeyBytes, hvalueBytes]

end LaysOut

theorem InOrder.laysOut {page : Page} (h : page.InOrder) : page.LaysOut page.toList := by
  have hlength := h.length_toList
  refine ⟨by rw [h.even, hlength], Nat.le.intro h.weight_add_room, ?_⟩
  intro p hp
  rw [hlength] at hp
  have hbefore := h.weight_pairAt (Nat.le_of_lt hp)
  have htake : page.toList.take p = (List.range p).map page.pairAt := by
    rw [h.toList_eq, ← List.map_take, List.take_range, Nat.min_eq_left (Nat.le_of_lt hp)]
  have hedge : 1024 - content (page.toList.take p) = page.edge p := by
    rw [weight_eq_content_add, List.length_map, List.length_range] at hbefore
    rw [htake]
    change _ = 1024 + 4 * p at hbefore
    omega
  have hpair : page.toList[p] = page.pairAt p := by
    simp only [h.toList_eq, List.getElem_map, List.getElem_range]
  have hkey := h.key_le p hp
  have hvalue := h.value_le p hp
  have hkeyStart : page.edge p - (page.pairAt p).key.length = page.slot (2 * p + 1) := by
    simp only [pairAt, cut, extentAt, Buffer.length_slice]
    omega
  have hvalueStart : page.slot (2 * p + 1) - (page.pairAt p).value.length =
      page.slot (2 * p + 2) := by
    simp only [pairAt, cut, extentAt, Buffer.length_slice]
    rw [edge_succ] at hvalue ⊢
    omega
  simp only [hpair, hedge, hkeyStart, hvalueStart]
  exact ⟨trivial, trivial, rfl, rfl⟩

theorem laysOut_iff (page : Page) (pairs : List Pair) :
    page.LaysOut pairs ↔ page.isWellFormed = true ∧ page.toList = pairs := by
  rw [isWellFormed_iff]
  constructor
  · exact fun h => ⟨h.inOrder, h.toList_eq⟩
  · rintro ⟨horder, rfl⟩
    exact horder.laysOut

theorem laysOut_empty : empty.LaysOut [] :=
  (laysOut_iff _ _).mpr ⟨isWellFormed_empty, toList_empty⟩

theorem InOrder.shows {page : Page} (h : page.InOrder) : page.Shows page.toList where
  toList_eq := rfl
  size_eq := h.length_toList.symm
  pair?_eq p := (h.getElem?_toList p).symm
  key?_eq p := by rw [key?, h.getElem?_toList]
  room_eq := by
    have := h.weight_add_room
    omega
  get?_eq := h.get?_eq
  contains_eq key := by rw [h.contains_eq, List.isSome_find?]

theorem InOrder.follows_insert {page : Page} (h : page.InOrder) {pair : Pair}
    (hrange : pair.size < 2 ^ 63) : page.Follows page.toList (.insert pair) := by
  have hneed : pair.size + 4 < counterRange := by
    change pair.size + 4 < 0x10000000000000000
    omega
  have hroom := h.hasRoom_iff hneed
  have hsize : pair.size = pair.key.length + pair.value.length := rfl
  rw [hsize] at hroom
  by_cases hfits : weight page.toList + (pair.key.length + pair.value.length + 4) ≤ 1022
  · obtain ⟨page', hinsert, horder, hlist⟩ := h.insert hfits
    have hedit : page.edit (.insert pair) = (.ok true, page') := by rw [edit, hinsert]
    have hlistEdit : editList page.toList (.insert pair) = (.ok true, page.toList ++ [pair]) :=
      if_pos hfits
    constructor
    · rw [hedit, hlistEdit]
    · rw [hedit]
      exact (isWellFormed_iff page').mpr horder
    · rw [hedit, hlistEdit, ← hlist]
      exact horder.laysOut
    · rw [hedit]
      intro hne
      exact absurd rfl hne
  · have hfull : page.hasRoom pair.size = false := by
      rw [← Bool.not_eq_true, hsize, hroom]
      exact hfits
    have hedit : page.edit (.insert pair) = (.error (.pageFull pair.size page.room), page) := by
      rw [edit, insert_of_not_hasRoom hfull]
    have hlistEdit : editList page.toList (.insert pair) =
        (.error (.pageFull pair.size (1022 - weight page.toList)), page.toList) := if_neg hfits
    constructor
    · rw [hedit, hlistEdit, h.shows.room_eq]
    · rw [hedit]
      exact (isWellFormed_iff page).mpr h
    · rw [hedit, hlistEdit]
      exact h.laysOut
    · rw [hedit]
      exact fun _ => rfl

theorem InOrder.follows_erase {page : Page} (h : page.InOrder) (key : Bytes) :
    page.Follows page.toList (.erase key) := by
  by_cases hmem : ∃ pair ∈ page.toList, pair.key = key
  · obtain ⟨page', herase, horder, hlist⟩ := h.erase?_of_mem hmem
    have hedit : page.edit (.erase key) = (.ok true, page') := by rw [edit, herase]
    have hlistEdit : editList page.toList (.erase key) =
        (.ok true, page.toList.eraseP fun pair => pair.key == key) := if_pos hmem
    constructor
    · rw [hedit, hlistEdit]
    · rw [hedit]
      exact (isWellFormed_iff page').mpr horder
    · rw [hedit, hlistEdit, ← hlist]
      exact horder.laysOut
    · rw [hedit]
      intro hne
      exact absurd rfl hne
  · have herase := h.erase?_of_not_mem fun pair hpair hkey => hmem ⟨pair, hpair, hkey⟩
    have hedit : page.edit (.erase key) = (.ok false, page) := by rw [edit, herase]
    have hlistEdit : editList page.toList (.erase key) = (.ok false, page.toList) := if_neg hmem
    constructor
    · rw [hedit, hlistEdit]
    · rw [hedit]
      exact (isWellFormed_iff page).mpr h
    · rw [hedit, hlistEdit]
      exact h.laysOut
    · rw [hedit]
      exact fun _ => rfl

theorem LaysOut.follows {page : Page} {pairs : List Pair} (h : page.LaysOut pairs) {change : Edit}
    (hrange : change.InRange) : page.Follows pairs change := by
  obtain rfl := h.toList_eq
  cases change with
  | insert pair => exact h.inOrder.follows_insert hrange
  | erase key => exact h.inOrder.follows_erase key

theorem LaysOut.edits {page : Page} {pairs : List Pair} (h : page.LaysOut pairs)
    {changes : List Edit} (hrange : ∀ change ∈ changes, change.InRange) :
    (page.edits changes).LaysOut (editsList pairs changes) := by
  induction changes generalizing page pairs with
  | nil => exact h
  | cons change rest ih =>
    obtain ⟨hfirst, hrest⟩ := List.forall_mem_cons.mp hrange
    exact ih (h.follows hfirst).laysOut hrest

/-- The empty page lays out no pairs. A well-formed page lays out one list, shows it to every
lookup, and follows it through every change and every run of changes. -/
theorem refines_list :
    empty.LaysOut [] ∧ ∀ page : Page, page.isWellFormed = true →
      ∃ pairs, page.LaysOut pairs ∧ (∀ other, page.LaysOut other → other = pairs) ∧
        page.Shows pairs ∧ (∀ change : Edit, change.InRange → page.Follows pairs change) ∧
        ∀ changes : List Edit, (∀ change ∈ changes, change.InRange) →
          (page.edits changes).isWellFormed = true ∧
            (page.edits changes).LaysOut (editsList pairs changes) ∧
            (page.edits changes).Shows (editsList pairs changes) := by
  refine ⟨laysOut_empty, fun page h => ?_⟩
  have horder := (isWellFormed_iff page).mp h
  have hlaysOut := horder.laysOut
  refine ⟨page.toList, hlaysOut, fun other hother => hother.toList_eq.symm, horder.shows,
    fun change hrange => hlaysOut.follows hrange, fun changes hrange => ?_⟩
  have hrun := hlaysOut.edits hrange
  have hshows := hrun.inOrder.shows
  rw [hrun.toList_eq] at hshows
  exact ⟨(isWellFormed_iff _).mpr hrun.inOrder, hrun, hshows⟩

theorem refines_list_duplicate :
    (empty.edits [.insert ⟨[], []⟩, .insert ⟨[107], [1]⟩, .insert ⟨[107], [2]⟩,
      .erase [107]]).toList = [⟨[], []⟩, ⟨[107], [2]⟩] := by
  obtain ⟨hempty, hpages⟩ := refines_list
  obtain ⟨pairs, -, hunique, -, -, hruns⟩ := hpages empty isWellFormed_empty
  obtain rfl := hunique [] hempty
  obtain ⟨-, -, hshows⟩ := hruns [.insert ⟨[], []⟩, .insert ⟨[107], [1]⟩, .insert ⟨[107], [2]⟩,
    .erase [107]] (by simp [Edit.InRange, Pair.size])
  rw [hshows.toList_eq]
  decide

end Page

end PageTrie
