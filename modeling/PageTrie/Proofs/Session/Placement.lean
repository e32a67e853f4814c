import PageTrie.Session.Pairs
import PageTrie.Proofs.Session.Growth

/-! Adding a pair at its leaf, and taking one off. A pair that finds room ends on the page of
its leaf, however many splits that took; one that finds none leaves the splits behind. -/
namespace PageTrie

namespace Session

/-- How adding a pair at its leaf can end, from a session whose table counts as `table`. -/
inductive Placement (session : Session) (table : Table) (pair : Pair) (depth : Nat) :
    EStateM.Result StoreError Session Unit → Prop
  | placed (count : Nat) {session' : Session} (count_le : count ≤ splitBudget)
      (leaf : TrieNode.IsLeaf (table.splits (keyHash pair.key) depth count).isSplit
        (keyHash pair.key) (depth + count))
      (sound : session'.Sound) (alike : session.Alike session')
      (table_eq : session'.table = (table.splits (keyHash pair.key) depth count).added pair)
      (room : (table.splits (keyHash pair.key) depth count).HasRoom (keyHash pair.key)
        (depth + count) pair.size)
      (full : ∀ i < count, ¬ (table.splits (keyHash pair.key) depth i).HasRoom
        (keyHash pair.key) (depth + i) pair.size) :
      Placement session table pair depth (.ok () session')
  | refused (count : Nat) {session' : Session}
      (count_eq : count = min splitBudget (hashWidth - depth)) (grounded : session'.Grounded)
      (forgotten : session'.cached = none) (alike : session.Alike session')
      (unsplit : count = 0 → session'.table = session.table)
      (split : 0 < count → session'.table = table.splits (keyHash pair.key) depth count)
      (full : ∀ i ≤ count, ¬ (table.splits (keyHash pair.key) depth i).HasRoom
        (keyHash pair.key) (depth + i) pair.size) :
      Placement session table pair depth (.error (.cannotMakeRoom splitBudget) session')

theorem full_of_crowded {table : Table} {hash : UInt32} {depth need count : Nat}
    (hfirst : ¬ table.HasRoom hash depth need) (h : table.Crowded hash depth need count) :
    ∀ i < count, ¬ (table.splits hash depth i).HasRoom hash (depth + i) need := by
  intro i hi
  obtain rfl | hpos := Nat.eq_zero_or_pos i
  · exact hfirst
  · exact h i hpos hi

section Growing

variable {session : Session} {pair : Pair} {depth : Nat} {page : Page}
  (h : session.Growing (keyHash pair.key) depth page)
include h

theorem Growing.pageOf_pending :
    (session.pending (keyHash pair.key) depth page).pageOf pair.key =
      (keyHash pair.key).toNat % 2 ^ depth :=
  Table.pageOf_eq_of_isLeaf h.leaf

theorem Growing.append (hkey : pair.key ≠ [])
    (habsent : (session.pending (keyHash pair.key) depth page).lookup pair.key = none)
    (hroom : (session.pending (keyHash pair.key) depth page).HasRoom (keyHash pair.key) depth
      pair.size) :
    ∃ session', (do
        let page ← ofResult (page.insert pair)
        keep ((TrieNode.onPath (keyHash pair.key) depth).page (keyHash pair.key)) page
        putPage ((TrieNode.onPath (keyHash pair.key) depth).page (keyHash pair.key)) page :
          SessionM Unit).run session = .ok () session' ∧
      session'.Sound ∧ session.Alike session' ∧
      session'.table = (session.pending (keyHash pair.key) depth page).added pair := by
  rw [Table.HasRoom, pairs_pending] at hroom
  obtain ⟨page', hinsert, horder, hlist⟩ := h.inOrder.insert hroom
  have hkeep := h.grounded.keeping (some ((keyHash pair.key).toNat % 2 ^ depth, page'))
  have htable : ((session.keeping (some ((keyHash pair.key).toNat % 2 ^ depth, page'))).wrote
      ((keyHash pair.key).toNat % 2 ^ depth) page').table =
      (session.pending (keyHash pair.key) depth page).added pair := by
    rw [hkeep.table_wrote, hlist, Table.added, h.pageOf_pending, Table.bucket, h.pageOf_pending,
      pairs_pending, pending, Table.putPage_putPage]
    rfl
  refine ⟨_, ?_, ⟨hkeep.wrote h.page_lt horder, ?_, ?_⟩,
    (alike_keeping _ _).trans (alike_wrote _ _ _), htable⟩
  · rw [hinsert, TrieNode.page_onPath _ _ h.leaf.depth_le,
      run_bind_ok (run_ofResult_ok page' session), run_bind_ok (run_keep _ _ _)]
    exact hkeep.ready.run_putPage h.writable h.page_lt page'
  · intro number kept hkept
    cases hkept
    rw [hkeep.ready.diskPage_wrote, if_pos rfl]
  · rw [htable]
    exact h.sound.added hkey habsent

theorem Growing.place (hkey : pair.key ≠ []) (hsize : pair.size ≤ pairLimit)
    (habsent : (session.pending (keyHash pair.key) depth page).lookup pair.key = none) :
    session.Placement (session.pending (keyHash pair.key) depth page) pair depth
      ((place (keyHash pair.key) pair (TrieNode.onPath (keyHash pair.key) depth) page).run
        session) := by
  have hneed : pair.size + 4 < counterRange := by
    change pair.size + 4 < 0x10000000000000000
    change pair.size ≤ 1008 at hsize
    omega
  have hroom := h.hasRoom_iff hneed
  unfold Session.place
  by_cases hcase : page.hasRoom pair.size = true
  · rw [if_pos hcase, run_bind_ok (EStateM.run_pure _ _)]
    obtain ⟨session', hrun, hsound, halike, htable⟩ :=
      h.append hkey habsent (hroom.mp hcase)
    dsimp only
    rw [hrun]
    exact .placed 0 (Nat.zero_le _) h.leaf hsound halike htable (hroom.mp hcase) (by omega)
  · rw [if_neg hcase]
    have hfirst := fun hfits => hcase (hroom.mpr hfits)
    have hgrowth := h.growWithin hneed splitBudget
    generalize hresult : (Session.growWithin (keyHash pair.key) pair.size
      (TrieNode.onPath (keyHash pair.key) depth) page splitBudget).run session = result at hgrowth
    cases hgrowth with
    | @roomy count grown page' pos count_le growing alike pending room crowded =>
      have hrun : (grow (keyHash pair.key) pair.size (TrieNode.onPath (keyHash pair.key) depth)
          page).run session =
          .ok (TrieNode.onPath (keyHash pair.key) (depth + count), page') grown := by
        rw [EStateM.run, grow, hresult]
      obtain ⟨-, hleaf, hlookup⟩ := h.sound.splits h.leaf growing.leaf.depth_le
      obtain ⟨session', happend, hsound, halike, htable⟩ :=
        growing.append hkey (by rw [pending, hlookup, habsent]) room
      rw [run_bind_ok hrun]
      dsimp only
      rw [happend]
      rw [pending] at htable room
      exact .placed count count_le hleaf hsound (alike.trans halike) htable room
        (full_of_crowded hfirst crowded)
    | @crowded count grown count_eq grounded alike unsplit split crowded =>
      have hrun : (grow (keyHash pair.key) pair.size (TrieNode.onPath (keyHash pair.key) depth)
          page).run session = .error (.cannotMakeRoom splitBudget) (grown.keeping none) := by
        rw [EStateM.run, grow, hresult]
        rfl
      rw [run_bind_error hrun]
      exact .refused count count_eq (grounded.keeping none) rfl
        (alike.trans (alike_keeping _ _)) (fun hzero => by rw [unsplit hzero]; rfl) split
        (fun i hi => full_of_crowded hfirst crowded i (Nat.lt_succ_of_le hi))

end Growing

end Session

end PageTrie
