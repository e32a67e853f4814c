import Mathlib
import PageTrie.Storage.Lock

/-! Locks that a newly opened file asks for. It gets one on an inode that nobody holds, and an
exclusive one only there. -/
namespace PageTrie

namespace LockTable

def Free (table : LockTable) (inode : Nat) : Prop := ∀ grant ∈ table, grant.inode ≠ inode

theorem release_eq_self {table : LockTable} {owner : Nat}
    (h : ∀ grant ∈ table, grant.owner ≠ owner) : table.release owner = table := by
  apply List.filter_eq_self.mpr
  intro grant hgrant
  simpa using h grant hgrant

theorem request_eq {table : LockTable} {grant : Grant}
    (h : ∀ held ∈ table, held.owner ≠ grant.owner) : table.request grant =
      if table.isBlocked grant then (false, table) else (true, grant :: table) := by
  have hcontains : table.contains grant = false := by
    rw [← Bool.not_eq_true, List.contains_iff_mem]
    exact fun hmem => h grant hmem rfl
  rw [request, hcontains, if_neg Bool.false_ne_true, release_eq_self h]

theorem isBlocked_eq_true_iff {table : LockTable} {grant : Grant} :
    table.isBlocked grant = true ↔ ∃ held ∈ table, held.inode = grant.inode ∧
      held.owner ≠ grant.owner ∧ grant.kind.conflicts held.kind = true := by
  simp [isBlocked, and_assoc]

end LockTable

namespace Lockable

variable {file : Lockable} {path : String} {table : LockTable}

theorem acquire_eq (hopen : file.pathOnly = false)
    (hfresh : ∀ grant ∈ table, grant.owner ≠ file.owner) (kind : LockKind) :
    file.acquire kind path table =
      if table.isBlocked ⟨file.owner, file.inode, kind⟩ = true then (.error (.locked path), table)
      else (.ok (), ⟨file.owner, file.inode, kind⟩ :: table) := by
  rw [acquire, hopen, if_neg Bool.false_ne_true, LockTable.request_eq hfresh]
  cases table.isBlocked ⟨file.owner, file.inode, kind⟩ <;> rfl

theorem acquire_of_free (hopen : file.pathOnly = false)
    (hfresh : ∀ grant ∈ table, grant.owner ≠ file.owner) (hfree : table.Free file.inode)
    (kind : LockKind) :
    file.acquire kind path table = (.ok (), ⟨file.owner, file.inode, kind⟩ :: table) := by
  rw [acquire_eq hopen hfresh, if_neg]
  rw [LockTable.isBlocked_eq_true_iff]
  rintro ⟨held, hheld, hinode, -⟩
  exact hfree held hheld hinode

theorem free_of_acquire_exclusive (hopen : file.pathOnly = false)
    (hfresh : ∀ grant ∈ table, grant.owner ≠ file.owner) {table' : LockTable}
    (h : file.acquire .exclusive path table = (.ok (), table')) :
    table.Free file.inode ∧ table' = ⟨file.owner, file.inode, .exclusive⟩ :: table := by
  rw [acquire_eq hopen hfresh] at h
  split at h
  · cases h
  · next hblocked =>
    cases h
    refine ⟨fun grant hgrant hinode => hblocked ?_, rfl⟩
    exact LockTable.isBlocked_eq_true_iff.mpr ⟨grant, hgrant, hinode, hfresh grant hgrant, rfl⟩

end Lockable

end PageTrie
