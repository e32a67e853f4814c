import PageTrie.Proofs.Checked.InPlace
import PageTrie.Proofs.Page.Room

/-! Operations on a page whose bytes nobody has looked at: counts and offsets may be anything.
Every operation stays within the page, and what it changes is known to the byte. -/
namespace PageTrie

namespace Page

theorem pair?_add (page : Page) (p count : Nat) (h : page.size ≤ p + count) {i : Nat}
    (hi : i ≤ (page.listFrom p count).length) :
    page.pair? (p + i) = (page.listFrom p count)[i]? := by
  induction count generalizing p i with
  | zero =>
    obtain rfl : i = 0 := Nat.le_zero.mp hi
    exact pair?_of_size_le h
  | succ count ih =>
    rw [listFrom] at hi ⊢
    cases hpair : page.pair? p with
    | none =>
      rw [hpair] at hi
      obtain rfl : i = 0 := Nat.le_zero.mp hi
      exact hpair
    | some pair =>
      rw [hpair] at hi
      cases i with
      | zero => exact hpair
      | succ i =>
        rw [List.getElem?_cons_succ, ← ih (p + 1) (by omega) (Nat.le_of_succ_le_succ hi)]
        congr 1
        omega

theorem pair?_eq_getElem? (page : Page) {i : Nat} (hi : i ≤ page.toList.length) :
    page.pair? i = page.toList[i]? := by
  have hadd := page.pair?_add 0 page.size (Nat.le_of_eq (Nat.zero_add _).symm) hi
  rwa [Nat.zero_add] at hadd

end Page

namespace Checked

/-- What an insert in place comes to. -/
inductive Inserts (page : Page) (pair : Pair) : EStateM.Result Halt Draft Unit → Prop
  | full (hinsert : page.insert pair = .error (.pageFull pair.size page.room)) :
      Inserts page pair (.error (.failed (.pageFull pair.size page.room)) (.ofPage page))
  /-- The key, the value, their slots and the count are written, none over another or over the slots
  in use, and no other byte changes. -/
  | done {page' : Page} (hinsert : page.insert pair = .ok page')
      (apart : (⟨2, page.indexEnd⟩ :: insertStretches page pair).Pairwise Stretch.Apart)
      (inside : ∀ stretch ∈ insertStretches page pair,
        stretch.first ≤ stretch.stop ∧ stretch.stop ≤ pageSize)
      (kept : ∀ i, (∀ stretch ∈ insertStretches page pair, ¬ stretch.Holds i) →
        page'.bytes.byte i = page.bytes.byte i) :
      Inserts page pair (.ok () ⟨page', insertStretches page pair⟩)

theorem inserts (page : Page) {pair : Pair} (h : pair.size + 4 < counterRange) :
    Inserts page pair ((insertPair pair).run (.ofPage page)) := by
  rw [run_insertPair _ h]
  cases hroom : page.hasRoom pair.size with
  | false =>
    have hinsert := Page.insert_of_not_hasRoom hroom
    rw [Draft.ofPage, hinsert]
    exact .full hinsert
  | true =>
    have hinsert := Page.insert_of_hasRoom hroom
    obtain ⟨hapart, hinside⟩ := insertStretches_apart h hroom
    rw [Draft.ofPage, hinsert]
    exact .done hinsert hapart hinside fun i hi => byte_insert_of_not_holds hinsert hi h

inductive Removes (page : Page) (key : Bytes) : EStateM.Result Halt Draft Bool → Prop
  | untouched (herase : page.erase? key = none) : Removes page key (.ok false (.ofPage page))
  | done {page' : Page} (herase : page.erase? key = some page') (written : List Stretch)
      (wellFormed : page.isWellFormed = true) : Removes page key (.ok true ⟨page', written⟩)

theorem removes (page : Page) (key : Bytes) :
    Removes page key ((removeKey key).run (.ofPage page)) := by
  obtain ⟨written, hrun⟩ := run_removeKey (.ofPage page) key
  rw [hrun, Draft.ofPage]
  dsimp only
  cases herase : page.erase? key with
  | none => exact .untouched herase
  | some page' =>
    refine .done herase written ?_
    by_contra hinvalid
    rw [Page.erase?_of_not_isWellFormed (Bool.not_eq_true _ ▸ hinvalid)] at herase
    cases herase

/-- No operation on a page looks or writes beyond it, takes an offset below zero or stores one
above its end. With all of that checked, each comes to what it comes to without. -/
structure StaysWithin (page : Page) : Prop where
  get_eq : ∀ key, value? page key = .ok (page.get? key)
  contains_eq : ∀ key, contains page key = .ok (page.contains key)
  keyAt_eq : ∀ p, keyAt page p = .ok (page.key? p)
  pairAt_eq : ∀ p, pairAt page p = .ok (page.pair? p)
  freeSpace_eq : freeSpace page = .ok page.room
  pairs_eq : pairs page 0 = .ok page.toList
  nextPair_eq : ∀ i ≤ page.toList.length,
    nextPair page i = .ok (page.toList[i]?.map fun pair => (pair, i + 1))
  inserts : ∀ pair : Pair, pair.size < 2 ^ 63 →
    Inserts page pair ((insertPair pair).run (.ofPage page))
  removes : ∀ key, Removes page key ((removeKey key).run (.ofPage page))
  splits : ∀ bit, SplitsLike ((splitPage page bit).run .blank) (page.divide bit)

theorem staysWithin (page : Page) : StaysWithin page where
  get_eq := value?_eq page
  contains_eq := Checked.contains_eq page
  keyAt_eq := Checked.keyAt_eq page
  pairAt_eq := Checked.pairAt_eq page
  freeSpace_eq := Checked.freeSpace_eq page
  pairs_eq := Checked.pairs_eq page 0
  nextPair_eq i hi := by rw [Checked.nextPair_eq, page.pair?_eq_getElem? hi]
  inserts pair hsize := by
    apply Checked.inserts
    change _ < 0x10000000000000000
    omega
  removes := Checked.removes page
  splits := splitsLike_splitPage page

theorem staysWithin_bogus :
    (insertPair ⟨[1], [2]⟩).run (.ofPage Page.bogusPage) =
      .error (.failed (.pageFull 2 0)) (.ofPage Page.bogusPage) := by
  have hinserts := (staysWithin Page.bogusPage).inserts ⟨[1], [2]⟩ (by norm_num [Pair.size])
  have hroom : Page.bogusPage.room = 0 := by decide +kernel
  have hrefused : Page.bogusPage.hasRoom (Pair.size ⟨[1], [2]⟩) = false := by
    rw [Page.hasRoom, hroom]
    decide
  generalize (insertPair ⟨[1], [2]⟩).run (.ofPage Page.bogusPage) = result at hinserts ⊢
  cases hinserts with
  | full _ => rw [hroom]; rfl
  | done hinsert _ _ _ =>
    rw [Page.insert_of_not_hasRoom hrefused] at hinsert
    cases hinsert

end Checked

end PageTrie
