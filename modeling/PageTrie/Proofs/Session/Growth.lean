import PageTrie.Session.Growth
import PageTrie.Proofs.Page.Division
import PageTrie.Proofs.Session.Writing

/-! Growing the trie. While a leaf is being split its page in memory is ahead of the file, so
the table that counts is the file's with that page put in. Every split of the trie is a split
of that table, and the files catch up with it wherever growing stops. -/
namespace PageTrie

def Table.HasRoom (table : Table) (hash : UInt32) (depth need : Nat) : Prop :=
  weight (table.pairs (hash.toNat % 2 ^ depth)) + (need + 4) ≤ 1022

/-- Fewer than `count` splits at the leaf of a hash do not make room. -/
def Table.Crowded (table : Table) (hash : UInt32) (depth need count : Nat) : Prop :=
  ∀ i, 0 < i → i < count → ¬ (table.splits hash depth i).HasRoom hash (depth + i) need

theorem Table.crowded_of_le_one (table : Table) (hash : UInt32) (depth need : Nat) {count : Nat}
    (hcount : count ≤ 1) : table.Crowded hash depth need count := by
  intro i hpos hlt
  omega

theorem Table.Crowded.succ {table : Table} {hash : UInt32} {depth need count : Nat}
    (hfirst : ¬ (table.split hash depth).HasRoom hash (depth + 1) need)
    (h : (table.split hash depth).Crowded hash (depth + 1) need count) :
    table.Crowded hash depth need (count + 1) := by
  intro i hpos hlt
  obtain ⟨j, rfl⟩ : ∃ j, i = j + 1 := ⟨i - 1, by omega⟩
  cases j with
  | zero => exact hfirst
  | succ j =>
    have hdepth : depth + 1 + (j + 1) = depth + (j + 1 + 1) := by omega
    rw [← hdepth]
    exact h (j + 1) (by omega) (by omega)

namespace Session

def pending (session : Session) (hash : UInt32) (depth : Nat) (page : Page) : Table :=
  session.table.putPage (hash.toNat % 2 ^ depth) page.toList

structure Growing (session : Session) (hash : UInt32) (depth : Nat) (page : Page) : Prop where
  grounded : session.Grounded
  writable : session.config.isReadOnly = false
  inOrder : page.InOrder
  leaf : TrieNode.IsLeaf session.table.isSplit hash depth
  sound : (session.pending hash depth page).Sound

theorem run_ofResult_ok (a : α) (session : Session) :
    (ofResult (.ok a)).run session = .ok a session := rfl

theorem run_keep (number : Nat) (page : Page) (session : Session) :
    (keep number page).run session = .ok () (session.keeping (some (number, page))) := rfl

theorem pairs_pending (session : Session) (hash : UInt32) (depth : Nat) (page : Page) :
    (session.pending hash depth page).pairs (hash.toNat % 2 ^ depth) = page.toList :=
  Function.update_self _ _ _

/-- How growing the leaf of a hash can end, from a session whose table counts as `table`. -/
inductive Growth (session : Session) (table : Table) (hash : UInt32) (depth need budget : Nat) :
    EStateM.Result StoreError Session (TrieNode × Page) → Prop
  | roomy (count : Nat) {session' : Session} {page : Page} (pos : 0 < count)
      (count_le : count ≤ budget) (growing : session'.Growing hash (depth + count) page)
      (alike : session.Alike session')
      (pending : session'.pending hash (depth + count) page = table.splits hash depth count)
      (room : (session'.pending hash (depth + count) page).HasRoom hash (depth + count) need)
      (crowded : table.Crowded hash depth need count) :
      Growth session table hash depth need budget
        (.ok (TrieNode.onPath hash (depth + count), page) session')
  | crowded (count : Nat) {session' : Session} (count_eq : count = min budget (hashWidth - depth))
      (grounded : session'.Grounded) (alike : session.Alike session')
      (unsplit : count = 0 → session' = session)
      (split : 0 < count → session'.table = table.splits hash depth count)
      (crowded : table.Crowded hash depth need (count + 1)) :
      Growth session table hash depth need budget
        (.error (.cannotMakeRoom splitBudget) session')

theorem Growth.succ {session session' : Session} {table : Table} {hash : UInt32}
    {depth need budget : Nat} (hdepth : depth < hashWidth) (halike : session.Alike session')
    (htable : session'.table = table.split hash depth)
    (hfirst : ¬ (table.split hash depth).HasRoom hash (depth + 1) need)
    {result : EStateM.Result StoreError Session (TrieNode × Page)}
    (h : session'.Growth (table.split hash depth) hash (depth + 1) need budget result) :
    session.Growth table hash depth need (budget + 1) result := by
  cases h with
  | roomy count pos count_le growing alike pending room crowded =>
    have heq : depth + 1 + count = depth + (count + 1) := by omega
    rw [heq] at growing pending room ⊢
    exact .roomy (count + 1) (by omega) (by omega) growing (halike.trans alike) pending room
      (crowded.succ hfirst)
  | crowded count count_eq grounded alike unsplit split crowded =>
    refine .crowded (count + 1) (by omega) grounded (halike.trans alike) (by omega) (fun _ => ?_)
      (crowded.succ hfirst)
    obtain hzero | hpos := Nat.eq_zero_or_pos count
    · rw [unsplit hzero, htable, hzero]
      rfl
    · exact split hpos

theorem divide_onPath {page : Page} (h : page.InOrder) (hash : UInt32) {depth : Nat}
    (hdepth : depth < hashWidth) :
    ∃ halves kept away, page.divide (TrieNode.onPath hash depth).splitBit = .ok halves ∧
      (if hash.toNat.testBit depth then (halves.moved, halves.stay)
        else (halves.stay, halves.moved)) = (kept, away) ∧
      kept.InOrder ∧ away.InOrder ∧
      kept.toList =
        page.toList.filter (fun pair => Table.Moves depth pair == hash.toNat.testBit depth) ∧
      away.toList =
        page.toList.filter (fun pair => Table.Moves depth pair != hash.toNat.testBit depth) := by
  have hhits : Pair.hits (TrieNode.onPath hash depth).splitBit = Table.Moves depth := by
    funext pair
    have hiff := TrieNode.hits_splitBit_iff (keyHash pair.key) hash hdepth
    rw [Pair.hits, Table.Moves, Bool.eq_iff_iff, decide_eq_true_iff, hiff]
  obtain ⟨halves, hdivide, horder, hstay, hmoved⟩ :=
    h.divide (TrieNode.onPath hash depth).splitBit
  rw [hhits] at hstay hmoved
  cases hash.toNat.testBit depth with
  | true =>
    refine ⟨halves, halves.moved, halves.stay, hdivide, rfl, horder.moved, horder.stay, ?_, ?_⟩
    · simpa only [beq_true] using hmoved
    · simpa only [Bool.bne_true] using hstay
  | false =>
    refine ⟨halves, halves.stay, halves.moved, hdivide, rfl, horder.stay, horder.moved, ?_, ?_⟩
    · simpa only [beq_false] using hstay
    · simpa only [Bool.bne_false] using hmoved

/-- The session once a leaf of a hash is split: one half is written and its node marked, the
other half is in memory only. -/
def parted (session : Session) (hash : UInt32) (depth : Nat) (kept away : Page) : Session :=
  ((session.wrote ((TrieNode.onPath hash depth).siblingPage hash) away).keeping
    (some (((TrieNode.onPath hash depth).child hash).page hash, kept))).marked
      (TrieNode.onPath hash depth).number

theorem Ready.run_splitLeaf {session : Session} (h : session.Ready)
    (hwritable : session.config.isReadOnly = false) {page : Page} (horder : page.InOrder)
    (hash : UInt32) {depth : Nat} (hdepth : depth < hashWidth) :
    ∃ kept away, (splitLeaf hash (TrieNode.onPath hash depth) page).run session =
        .ok kept (session.parted hash depth kept away) ∧ kept.InOrder ∧ away.InOrder ∧
      kept.toList =
        page.toList.filter (fun pair => Table.Moves depth pair == hash.toNat.testBit depth) ∧
      away.toList =
        page.toList.filter (fun pair => Table.Moves depth pair != hash.toNat.testBit depth) := by
  obtain ⟨halves, kept, away, hdivide, hparts, horders⟩ := divide_onPath horder hash hdepth
  have hnumber := TrieNode.number_onPath_lt hash hdepth
  have hsibling := TrieNode.siblingPage_onPath_lt hash hdepth
  have hkeep := (h.wrote ((TrieNode.onPath hash depth).siblingPage hash) away).keeping
    (some (((TrieNode.onPath hash depth).child hash).page hash, kept))
  refine ⟨kept, away, ?_, horders⟩
  unfold Session.splitLeaf
  rw [hdivide, run_bind_ok (run_ofResult_ok halves session), TrieNode.depth_onPath, hparts]
  rw [run_bind_ok (h.run_putPage hwritable hsibling away), run_bind_ok (run_keep _ _ _),
    run_bind_ok (hkeep.run_set hwritable hnumber), EStateM.run_pure, parted]

section Growing

variable {session : Session} {hash : UInt32} {depth : Nat} {page : Page}
  (h : session.Growing hash depth page)
include h

theorem Growing.page_lt : hash.toNat % 2 ^ depth < pageCountLimit := by
  rw [← TrieNode.page_onPath hash hash h.leaf.depth_le]
  exact TrieNode.page_onPath_lt hash hash h.leaf.depth_le

theorem Growing.hasRoom_iff {need : Nat} (hneed : need + 4 < counterRange) :
    page.hasRoom need = true ↔ (session.pending hash depth page).HasRoom hash depth need := by
  rw [h.inOrder.hasRoom_iff hneed, Table.HasRoom, pairs_pending]

theorem Growing.splitLeaf (hdepth : depth < hashWidth) :
    ∃ session' kept, (splitLeaf hash (TrieNode.onPath hash depth) page).run session =
        .ok kept session' ∧
      session'.Growing hash (depth + 1) kept ∧ session.Alike session' ∧
      session'.pending hash (depth + 1) kept =
        (session.pending hash depth page).split hash depth := by
  obtain ⟨kept, away, hrun, hkept, haway, hkeptList, hawayList⟩ :=
    h.grounded.ready.run_splitLeaf h.writable h.inOrder hash hdepth
  have hnumber := TrieNode.number_onPath_lt hash hdepth
  have hsibling := TrieNode.siblingPage_onPath_lt hash hdepth
  have hwrote := h.grounded.wrote hsibling haway
  have hkeep := hwrote.keeping
    (some (((TrieNode.onPath hash depth).child hash).page hash, kept))
  have hpending : (session.parted hash depth kept away).pending hash (depth + 1) kept =
      (session.pending hash depth page).split hash depth := by
    rw [pending, parted, hkeep.table_marked, hkeptList]
    change Table.putPage { (session.wrote _ away).table with isSplit := _ } _ _ = _
    rw [h.grounded.table_wrote, hawayList, TrieNode.siblingPage_onPath hash hdepth]
    exact Table.split_putPage session.table hash depth page.toList
  refine ⟨_, kept, hrun, ⟨hkeep.marked hnumber, h.writable, hkept, ?_, ?_⟩, ?_, hpending⟩
  · have hleaf := Table.isLeaf_split h.sound h.leaf hdepth
    rw [← hpending] at hleaf
    exact hleaf
  · rw [hpending]
    exact h.sound.split h.leaf hdepth
  · exact (alike_wrote _ _ _).trans ((alike_keeping _ _).trans (alike_marked _ _))

theorem Growing.writePage :
    (putPage ((TrieNode.onPath hash depth).page hash) page).run session =
        .ok () (session.wrote (hash.toNat % 2 ^ depth) page) ∧
      (session.wrote (hash.toNat % 2 ^ depth) page).table = session.pending hash depth page ∧
      (session.wrote (hash.toNat % 2 ^ depth) page).pending hash depth page =
        session.pending hash depth page ∧
      (session.wrote (hash.toNat % 2 ^ depth) page).Growing hash depth page := by
  have htable := h.grounded.table_wrote (hash.toNat % 2 ^ depth) page
  have hpending : (session.wrote (hash.toNat % 2 ^ depth) page).pending hash depth page =
      session.pending hash depth page := by
    rw [pending, htable, pending, Table.putPage_putPage]
  refine ⟨?_, htable, hpending, h.grounded.wrote h.page_lt h.inOrder, h.writable, h.inOrder, ?_, ?_⟩
  · rw [TrieNode.page_onPath hash hash h.leaf.depth_le]
    exact h.grounded.ready.run_putPage h.writable h.page_lt page
  · exact h.leaf
  · rw [hpending]
    exact h.sound

/-- Growing stops at the least number of splits that makes room. If there is none within the
budget and the hash, all of them are made. -/
theorem Growing.growWithin {need : Nat} (hneed : need + 4 < counterRange) (budget : Nat) :
    session.Growth (session.pending hash depth page) hash depth need budget
      ((growWithin hash need (TrieNode.onPath hash depth) page budget).run session) := by
  -- The file is behind by one page all along, so `Growing` and not `Sound` carries the induction.
  induction budget generalizing session depth page with
  | zero =>
    exact .crowded 0 (by omega) h.grounded (Alike.refl session) (fun _ => rfl) (by omega)
      (Table.crowded_of_le_one _ _ _ _ (Nat.le_refl 1))
  | succ budget ih =>
    unfold Session.growWithin
    rw [TrieNode.depth_onPath]
    by_cases hend : depth = hashWidth
    · rw [if_pos hend]
      exact .crowded 0 (by omega) h.grounded (Alike.refl session) (fun _ => rfl) (by omega)
        (Table.crowded_of_le_one _ _ _ _ (Nat.le_refl 1))
    · have hdepth : depth < hashWidth := Nat.lt_of_le_of_ne h.leaf.depth_le hend
      obtain ⟨session', kept, hrun, hgrowing, halike, hpending⟩ := h.splitLeaf hdepth
      have hroom := hgrowing.hasRoom_iff hneed
      rw [if_neg hend]
      dsimp only
      rw [run_bind_ok hrun]
      cases hcase : kept.hasRoom need with
      | true =>
        rw [if_pos rfl]
        exact .roomy 1 (by omega) (by omega) hgrowing halike hpending (hroom.mp hcase)
          (Table.crowded_of_le_one _ _ _ _ (Nat.le_refl 1))
      | false =>
        rw [if_neg Bool.false_ne_true]
        obtain ⟨hput, htable, hsame, hwritten⟩ := hgrowing.writePage
        have hfirst : ¬ ((session.pending hash depth page).split hash depth).HasRoom hash
            (depth + 1) need := by
          rw [← hpending, ← hroom, hcase]
          exact Bool.false_ne_true
        have hnext := ih hwritten
        rw [hsame, hpending] at hnext
        rw [hpending] at htable
        have hgrown := hnext.succ hdepth (halike.trans (alike_wrote _ _ _)) htable hfirst
        rw [TrieNode.onPath_succ] at hgrown hput
        rw [run_bind_ok hput]
        exact hgrown

end Growing

end Session

end PageTrie
