import PageTrie.Proofs.PageSweep

/-! A whole pass over the keys, on files of any contents, and what is looked up behind it. None
of it changes what the session sees. -/
namespace PageTrie

theorem Page.InOrder.length_toList_le {page : Page} (h : page.InOrder) :
    page.toList.length ≤ 255 := by
  have hindex := h.index_le (Nat.le_refl page.size)
  have hedge := h.edge_le_pageSize (Nat.le_refl page.size)
  rw [h.length_toList]
  change _ ≤ 1024 at hedge
  omega

section Sweeps

variable {page : Nat → Page} {total count : Nat} {ending : Option StoreError}

theorem Sweeps.length_keysBetween_le (h : Sweeps page total count ending) :
    (keysBetween page 0 count).length ≤ count * 255 := by
  have hpages : ∀ n ∈ (List.range' 0 (count - 0)).map
      (fun number => ((page number).toList.map (·.key)).length), n ≤ 255 := by
    intro n hn
    obtain ⟨number, hnumber, rfl⟩ := List.mem_map.mp hn
    have hlt : number < count := by
      rw [List.mem_range'_1] at hnumber
      omega
    rw [List.length_map]
    exact ((Page.isWellFormed_iff _).mp (h.readable hlt).2).length_toList_le
  have hsum := List.sum_le_card_nsmul _ _ hpages
  rwa [List.length_map, List.length_range', Nat.sub_zero, smul_eq_mul, ← List.length_flatMap]
    at hsum

theorem Sweeps.length_passItems_le (h : Sweeps page total count ending) :
    (passItems ending (keysBetween page 0 count)).length ≤ total * 256 + 1 := by
  have hkeys := h.length_keysBetween_le
  have hcount := h.le
  have hending : (ending.map (Except.error (α := Bytes))).toList.length ≤ 1 := by
    cases ending <;> simp
  rw [passItems, List.length_append, List.length_map]
  omega

end Sweeps

namespace Session

variable {session session' : Session} {count : Nat} {ending : Option StoreError}

def find? (session : Session) (key : Bytes) : Option Bytes :=
  (session.diskPage (session.pageFor key)).get? key

theorem Peeks.diskPage_eq (h : session.Peeks session') : session'.diskPage = session.diskPage :=
  congrArg (fun session => session.diskPage) h

theorem Peeks.pagesInFile_eq (h : session.Peeks session') :
    session'.pagesInFile = session.pagesInFile := congrArg (fun session => session.pagesInFile) h

theorem Peeks.all_readable (h : session.Peeks session')
    (hall : ∀ number < session.pagesInFile, Readable session.diskPage number) :
    ∀ number < session'.pagesInFile, Readable session'.diskPage number := by
  rw [h.pagesInFile_eq, h.diskPage_eq]
  exact hall

theorem Peeks.find?_eq (h : session.Peeks session') : session'.find? = session.find? := by
  have hleaf : session'.leafOf = session.leafOf := congrArg (fun session => session.leafOf) h
  funext key
  rw [find?, pageFor, h.diskPage_eq, hleaf, find?, pageFor]

/-- Where all blocks of the file can be read, so can every page that a hash leads to: past the
end of the file there is an empty page. -/
theorem pageOnDisk_of_all_readable (h : session.Ready)
    (hall : ∀ number < session.pagesInFile, Readable session.diskPage number) {number : Nat}
    (hnumber : number < pageCountLimit) :
    session.pageOnDisk number = .ok (session.diskPage number) := by
  obtain hlt | hle := Nat.lt_or_ge number session.pagesInFile
  · exact pageOnDisk_of_readable h.regular hlt (hall number hlt)
  · have hlength : session.pages.length ≤ number * pageSize := by
      change (session.pages.length + 1023) / 1024 ≤ number at hle
      change _ ≤ number * 1024
      omega
    have hempty : session.diskPage number = Page.empty := by
      rw [diskPage, OpenFile.window_of_length_le hlength, Page.empty]
    refine pageOnDisk_eq h.regular h.ample.2.storeSpan_le_extent hnumber ?_
    rw [hempty]
    exact Page.inOrder_empty

theorem Faithful.fetch (h : session.Faithful)
    (hall : ∀ number < session.pagesInFile, Readable session.diskPage number) {key : Bytes}
    (hkey : key ≠ []) :
    ∃ session', (fetch key).run session = .ok (session.find? key) session' ∧
      session.Peeks session' ∧ session'.Faithful := by
  obtain ⟨block, hblock, hrun⟩ := h.leafFor (keyHash key)
  rw [pageOnDisk_of_all_readable h.ready hall (session.page_leafOf_lt (keyHash key))]
    at hrun
  have hmatches := h.twins.abreast.fetch key
  unfold Session.fetch at hmatches ⊢
  rw [run_bind_ok (run_requireKey hkey), run_bind_ok (run_flagging_ok hrun)] at hmatches ⊢
  cases hmatches with
  | ok looked => exact ⟨_, rfl, looked.left, looked.abreast.left⟩

/-- What the census of the directory comes to. It fails if the file is so long that its last
block is out of reach. -/
def census (session : Session) : Except StoreError Nat :=
  if session.directory.file.length + bitBlockSize ≤ positionRange then
    .ok session.directory.file.marks.card
  else .error (.io .invalidOffset)

theorem Peeks.census_eq (h : session.Peeks session') : session'.census = session.census :=
  congrArg (fun session => session.census) h

theorem Faithful.countBits (h : session.Faithful) :
    ∃ session', countBits.run session = (ofResult session.census).run session' ∧
      session.Peeks session' := by
  have hcoherent := h.ready.coherent
  unfold census
  split
  · next hlength =>
    exact ⟨session, run_flagging_ok (run_onDirectory (hcoherent.count hlength)), rfl⟩
  · next hlength =>
    have hcount : (onDirectory Directory.count).run session =
        .error (.io .invalidOffset) session := by
      rw [EStateM.run, onDirectory, hcoherent.count_beyond (Nat.lt_of_not_le hlength)]
    exact ⟨session.flagged, run_flagging_error hcount rfl, rfl⟩

theorem Faithful.allKeys (h : session.Faithful)
    (hsweeps : Sweeps session.diskPage session.pagesInFile count ending) :
    ∃ session', session.allKeys =
        (passItems ending (keysBetween session.diskPage 0 count), session') ∧
      session.Peeks session' ∧ session'.Faithful := by
  obtain ⟨stream, session', htake, -⟩ :=
    KeyStream.items_taken Passing.next (.fresh h hsweeps) session.keyBound
  have hpassed := h.twins.abreast.take .fresh Bool.noConfusion session.keyBound
  have hlength : (passItems ending (keysBetween session.diskPage 0 count)).length ≤
      session.keyBound := hsweeps.length_passItems_le
  rw [List.take_of_length_le hlength] at htake
  rw [htake] at hpassed
  refine ⟨session', ?_, hpassed.looked.left, hpassed.looked.abreast.left⟩
  rw [Session.allKeys, htake]

theorem keysBetween_all (session : Session) :
    keysBetween session.diskPage 0 session.pagesInFile = session.keyList := rfl

theorem Sound.find?_eq_lookup (h : session.Sound) (key : Bytes) :
    session.find? key = session.table.lookup key := by
  rw [← lookup_table h.grounded, find?, pageFor, leafOf, h.grounded.bounded.sees_eq]
  rfl

theorem Sound.any_isEmpty_keyList (h : session.Sound) :
    (session.keyList.any (·.isEmpty)) = false := by
  rw [List.any_eq_false]
  intro key hkey hempty
  rw [List.isEmpty_iff.mp hempty, h.mem_keyList, h.table.lookup_nil] at hkey
  cases hkey

end Session

end PageTrie
