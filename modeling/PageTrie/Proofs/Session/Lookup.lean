import PageTrie.Session.Call
import PageTrie.Proofs.Directory.Census
import PageTrie.Proofs.Session.Invariant

/-! Calls that only look: `fetch`, `contains` and `countBits` answer from the table and change
nothing but what is in memory. -/
namespace PageTrie

namespace Session

variable {session : Session}

theorem run_flagging_ok {call : SessionM α} {a : α} {session' : Session}
    (h : call.run session = .ok a session') : (flagging call).run session = .ok a session' := by
  rw [EStateM.run, flagging, h]

def flagged (session : Session) : Session := { session with failed := true }

theorem run_flagging_error {call : SessionM α} {cause : StoreError} {session' : Session}
    (h : call.run session = .error cause session') (hio : cause.isIo = true) :
    (flagging call).run session = .error cause session'.flagged := by
  rw [EStateM.run, flagging, h]
  simp only [hio, if_true, flagged]

theorem run_requireKey {key : Bytes} (hkey : key ≠ []) :
    (requireKey key).run session = .ok () session := by
  have hempty : ¬ key.isEmpty = true := by simpa using hkey
  rw [requireKey, if_neg hempty]
  rfl

theorem run_requireKey_nil :
    (requireKey []).run session = .error (.invalidArgument "empty key") session := rfl

theorem Sound.remembering {block : Option (Nat × Buffer bitBlockSize)} (h : session.Sound)
    (hblock : (session.directory.remembering block).Coherent) :
    (session.recalling block session.cached).Sound :=
  ⟨h.grounded.recalling hblock _, h.cached_eq, h.table⟩

theorem Sound.leafFor (h : session.Sound) (hash : UInt32) :
    ∃ session', (leafFor hash).run session =
        .ok (TrieNode.leaf session.table.isSplit hash,
          session.diskPage ((TrieNode.leaf session.table.isSplit hash).page hash)) session' ∧
      session.Recalls session' ∧ session'.Sound := by
  obtain ⟨block, hleaf, hblock⟩ := run_descend_root h.grounded.coherent
    h.grounded.ample.1.storeSpan_le_extent hash
  rw [h.grounded.bounded.sees_eq] at hleaf
  have hsound := h.remembering hblock
  have hpage : (TrieNode.leaf session.table.isSplit hash).page hash < pageCountLimit := by
    rw [TrieNode.leaf_eq_onPath]
    exact TrieNode.page_onPath_lt hash hash (TrieNode.isLeaf_depth _ _).depth_le
  have hread := hsound.pageAt hpage
  refine ⟨session.recalling block (some ((TrieNode.leaf session.table.isSplit hash).page hash,
      session.diskPage ((TrieNode.leaf session.table.isSplit hash).page hash))),
    ?_, ⟨block, _, rfl⟩, h.grounded.recalling hblock _, ?_, h.table⟩
  · unfold Session.leafFor
    rw [run_bind_ok hleaf]
    exact run_bind_ok hread
  · intro number page hcached
    cases hcached
    rfl

theorem lookup_table (h : session.Grounded) (key : Bytes) :
    (session.diskPage (session.table.pageOf key)).get? key = session.table.lookup key :=
  (h.inOrder _).get?_eq key

theorem Sound.fetch (h : session.Sound) {key : Bytes} (hkey : key ≠ []) :
    ∃ session', (fetch key).run session = .ok (session.table.lookup key) session' ∧
      session.Recalls session' ∧ session'.Sound := by
  obtain ⟨session', hrun, hrecalls, hsound⟩ := h.leafFor (keyHash key)
  refine ⟨session', ?_, hrecalls, hsound⟩
  unfold Session.fetch
  rw [run_bind_ok (run_requireKey hkey), run_bind_ok (run_flagging_ok hrun), EStateM.run_pure]
  rw [← lookup_table h.grounded, Table.pageOf]

theorem run_fetch_nil :
    (fetch []).run session = .error (.invalidArgument "empty key") session := rfl

theorem Sound.contains (h : session.Sound) {key : Bytes} (hkey : key ≠ []) :
    ∃ session', (contains key).run session = .ok (session.table.lookup key).isSome session' ∧
      session.Recalls session' ∧ session'.Sound := by
  obtain ⟨session', hrun, hrecalls, hsound⟩ := h.fetch hkey
  refine ⟨session', ?_, hrecalls, hsound⟩
  unfold Session.contains
  rw [run_bind_ok hrun, EStateM.run_pure]

theorem run_contains_nil :
    (contains []).run session = .error (.invalidArgument "empty key") session := rfl

theorem Grounded.countBits (h : session.Grounded) :
    ∃ count, countBits.run session = .ok count session := by
  have hlength : session.directory.file.length + bitBlockSize ≤ positionRange :=
    (Nat.add_le_add_right h.directory_le _).trans (by decide)
  exact ⟨_, run_flagging_ok (run_onDirectory (h.coherent.count hlength))⟩

end Session

end PageTrie
