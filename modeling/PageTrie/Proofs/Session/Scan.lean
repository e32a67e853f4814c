import PageTrie.Proofs.Session.Sweep

/-! The scan as a list of keys still ahead. Each step hands out the first of them; lookups do
not touch the list, since it is read off the files and the scan point alone. -/
namespace PageTrie.Session

def keysOn (session : Session) (number : Nat) : List Bytes :=
  (session.table.pairs number).map (·.key)

def keysFrom (session : Session) (number : Nat) : List Bytes :=
  (List.range' number (session.pagesInFile - number)).flatMap session.keysOn

/-- The keys that the scan has still to hand out. -/
def ahead (session : Session) : List Bytes :=
  (session.keysOn session.scan.block).drop session.scan.next ++
    session.keysFrom (session.scan.block + 1)

def keyList (session : Session) : List Bytes := session.keysFrom 0

def entries (session : Session) : List Pair :=
  (List.range' 0 session.pagesInFile).flatMap session.table.pairs

theorem map_key_entries (session : Session) : session.entries.map (·.key) = session.keyList :=
  List.map_flatMap

theorem Sound.scanning {session : Session} (h : session.Sound) (scan : ScanPoint) :
    (session.scanning scan).Sound := h.setting session.failed scan

theorem Sound.flagged {session : Session} (h : session.Sound) : session.flagged.Sound :=
  h.setting true session.scan

section Sound

variable {session : Session} (h : session.Sound)
include h

theorem Sound.keysFrom_eq (number : Nat) :
    session.keysFrom number = session.keysOn number ++ session.keysFrom (number + 1) := by
  unfold keysFrom
  obtain hlt | hle := Nat.lt_or_ge number session.pagesInFile
  · have hcount : session.pagesInFile - number =
        session.pagesInFile - (number + 1) + 1 := by omega
    rw [hcount, List.range'_succ, List.flatMap_cons]
  · have hnone : session.keysOn number = [] := by
      rw [keysOn, pairs_of_pagesInFile_le h.grounded hle, List.map_nil]
    rw [Nat.sub_eq_zero_of_le hle, Nat.sub_eq_zero_of_le (by omega), hnone]
    rfl

theorem Sound.ahead_eq_nil (hend : session.pagesInFile ≤ session.scan.block) :
    session.ahead = [] := by
  rw [ahead, keysOn, pairs_of_pagesInFile_le h.grounded hend, keysFrom,
    Nat.sub_eq_zero_of_le (by omega), List.map_nil, List.drop_nil]
  rfl

theorem Sound.ahead_scanning (number : Nat) :
    (session.scanning ⟨number, 0⟩).ahead = session.keysFrom number := (h.keysFrom_eq number).symm

theorem Sound.nodup_keyList : session.keyList.Nodup := by
  rw [keyList, keysFrom, Nat.sub_zero, ← List.range_eq_range']
  exact h.table.nodup_keys session.pagesInFile

theorem Sound.mem_keysFrom {number : Nat} {key : Bytes} :
    key ∈ session.keysFrom number ↔ ∃ later, number ≤ later ∧ key ∈ session.keysOn later := by
  rw [keysFrom, List.mem_flatMap]
  constructor
  · rintro ⟨later, hlater, hkey⟩
    rw [List.mem_range'_1] at hlater
    exact ⟨later, hlater.1, hkey⟩
  · rintro ⟨later, hle, hkey⟩
    have hlt : later < session.pagesInFile := by
      by_contra hge
      rw [keysOn, pairs_of_pagesInFile_le h.grounded (Nat.le_of_not_lt hge)] at hkey
      cases hkey
    refine ⟨later, ?_, hkey⟩
    rw [List.mem_range'_1]
    omega

theorem Sound.mem_entries (pair : Pair) :
    pair ∈ session.entries ↔ session.table.lookup pair.key = some pair.value := by
  rw [h.table.lookup_eq_some_iff, entries, List.mem_flatMap]
  constructor
  · rintro ⟨number, -, hpair⟩
    exact ⟨number, hpair⟩
  · rintro ⟨number, hpair⟩
    have hlt : number < session.pagesInFile := by
      by_contra hge
      rw [pairs_of_pagesInFile_le h.grounded (Nat.le_of_not_lt hge)] at hpair
      cases hpair
    refine ⟨number, ?_, hpair⟩
    rw [List.mem_range'_1]
    omega

theorem Sound.mem_keyList (key : Bytes) :
    key ∈ session.keyList ↔ (session.table.lookup key).isSome = true := by
  rw [← map_key_entries, List.mem_map, Option.isSome_iff_exists]
  constructor
  · rintro ⟨pair, hpair, rfl⟩
    exact ⟨pair.value, (h.mem_entries pair).mp hpair⟩
  · rintro ⟨value, hlookup⟩
    exact ⟨⟨key, value⟩, (h.mem_entries _).mpr hlookup, rfl⟩

theorem Sound.pagesInFile_le : session.pagesInFile ≤ pageCountLimit := by
  have hlength := h.grounded.pages_le
  rw [pagesInFile_eq h.grounded]
  exact Nat.div_le_of_le_mul (by rwa [Nat.mul_comm])

end Sound

theorem Sound.sweeps {session : Session} (h : session.Sound) :
    Sweeps session.diskPage session.pagesInFile session.pagesInFile none :=
  .through fun number hnumber =>
    ⟨(page_end_le (hnumber.trans_le h.pagesInFile_le)).trans_lt (by decide),
      (Page.isWellFormed_iff _).mpr (h.grounded.inOrder number)⟩

theorem browsing_sound : Browsing Sound where
  regular h := h.grounded.regular
  read {session number} h hnumber := by
    have hreadable := h.sweeps.readable hnumber
    refine ⟨_, ?_, h.grounded.keeping (some (number, session.diskPage number)), ?_, h.table⟩
    · rw [pageOnDisk_of_readable h.grounded.regular hnumber hreadable]
      exact h.pageAt (hnumber.trans_le h.pagesInFile_le)
    · intro number' page hcached
      cases hcached
      rfl
  scanning h scan := h.scanning scan
  flagged h := h.flagged

theorem Sound.keysLeft_eq {session : Session} (h : session.Sound) :
    session.keysLeft session.pagesInFile = session.ahead := by
  obtain hlt | hle := Nat.lt_or_ge session.scan.block session.pagesInFile
  · exact if_pos hlt
  · rw [h.ahead_eq_nil hle]
    exact session.keysLeft_of_le hle

theorem Sound.nextWithin {session : Session} (h : session.Sound) {remaining : Nat}
    (hremaining : remaining = session.pagesInFile - session.scan.block) :
    ∃ session', (nextWithin remaining).run session = .ok session.ahead.head? session' ∧
      session'.Sound ∧ session.Scans session' ∧ session'.ahead = session.ahead.tail := by
  obtain hlt | hle := Nat.lt_or_ge session.pagesInFile session.scan.block
  · have hzero : remaining = 0 := by omega
    have hnil := h.ahead_eq_nil (Nat.le_of_lt hlt)
    rw [hzero, hnil]
    exact ⟨session, rfl, h, .refl session, hnil⟩
  · obtain ⟨session', hrun, hscans, hsweeping⟩ :=
      browsing_sound.nextWithin h hremaining h.sweeps hle h.keysLeft_eq
    have hpages : session'.pagesInFile = session.pagesInFile := by
      obtain ⟨cached, scan, rfl⟩ := hscans
      rfl
    have hahead := hsweeping.rest_eq
    rw [← hpages, hsweeping.holds.keysLeft_eq] at hahead
    refine ⟨session', ?_, hsweeping.holds, hscans, hahead⟩
    rw [hrun]
    cases session.ahead <;> rfl

theorem Sound.nextKey {session : Session} (h : session.Sound) :
    ∃ session', nextKey.run session = .ok session.ahead.head? session' ∧
      session'.Sound ∧ session.Scans session' ∧ session'.ahead = session.ahead.tail := by
  obtain ⟨session', hrun, hrest⟩ := h.nextWithin rfl
  exact ⟨session', run_flagging_ok hrun, hrest⟩

theorem Sound.firstKey {session : Session} (h : session.Sound) :
    ∃ session', firstKey.run session = .ok session.keyList.head? session' ∧
      session'.Sound ∧ session.Scans session' ∧ session'.ahead = session.keyList.tail := by
  obtain ⟨session', hrun, hsound, hscans, htail⟩ := (h.scanning ⟨0, 0⟩).nextKey
  rw [h.ahead_scanning] at hrun htail
  exact ⟨session', hrun, hsound, Scans.trans ⟨session.cached, _, rfl⟩ hscans, htail⟩

theorem Recalls.ahead_eq {session session' : Session} (h : session.Recalls session') :
    session'.ahead = session.ahead := by
  obtain ⟨block, page, rfl⟩ := h
  rfl

theorem Scans.keyList_eq {session session' : Session} (h : session.Scans session') :
    session'.keyList = session.keyList := by
  obtain ⟨cached, scan, rfl⟩ := h
  rfl

theorem Scans.table_eq {session session' : Session} (h : session.Scans session') :
    session'.table = session.table := by
  obtain ⟨cached, scan, rfl⟩ := h
  rfl

namespace KeyStream

def ahead (stream : KeyStream) (session : Session) : List Bytes :=
  if stream.done then [] else if stream.started then session.ahead else session.keyList

/-- A step of a pass gives the first key ahead, and nothing once there is none. -/
theorem next_eq {session : Session} (h : session.Sound) (stream : KeyStream) :
    ∃ stream' session', stream.next session =
        ((stream.ahead session).head?.map .ok, stream', session') ∧
      session'.Sound ∧ session.Scans session' ∧
      stream'.ahead session' = (stream.ahead session).tail := by
  obtain ⟨started, done⟩ := stream
  cases done with
  | true => exact ⟨⟨started, true⟩, session, rfl, h, Scans.refl session, rfl⟩
  | false =>
    have hstep : ∃ session', (if started then nextKey else firstKey).run session =
          .ok ((KeyStream.mk started false).ahead session).head? session' ∧
        session'.Sound ∧ session.Scans session' ∧
        session'.ahead = ((KeyStream.mk started false).ahead session).tail := by
      cases started with
      | true => exact h.nextKey
      | false => exact h.firstKey
    obtain ⟨session', hrun, hsound, hscans, htail⟩ := hstep
    unfold KeyStream.next
    dsimp only
    rw [if_neg Bool.false_ne_true, hrun]
    cases hkeys : (KeyStream.mk started false).ahead session with
    | nil => exact ⟨⟨true, true⟩, session', rfl, hsound, hscans, rfl⟩
    | cons key rest =>
      rw [hkeys] at htail
      exact ⟨⟨true, false⟩, session', rfl, hsound, hscans, htail⟩

def Gives (start : Session) (stream : KeyStream) (session : Session)
    (items : List (Except StoreError Bytes)) : Prop :=
  session.Sound ∧ start.Scans session ∧ (stream.ahead session).map .ok = items

theorem Gives.next {start session : Session} {stream : KeyStream}
    {items : List (Except StoreError Bytes)} (h : Gives start stream session items) :
    ∃ stream' session', stream.next session = (items.head?, stream', session') ∧
      Gives start stream' session' items.tail := by
  obtain ⟨hsound, hscans, rfl⟩ := h
  obtain ⟨stream', session', hrun, hsound', hscans', htail⟩ := next_eq hsound stream
  refine ⟨stream', session', ?_, hsound', hscans.trans hscans', ?_⟩
  · rw [hrun, List.head?_map]
  · rw [htail, List.map_tail]

theorem next_after {session : Session} (h : session.Sound) (stream : KeyStream) (count : Nat) :
    ((stream.after session count).1.next (stream.after session count).2).1 =
      (stream.ahead session)[count]?.map .ok := by
  have hgives : Gives session stream session ((stream.ahead session).map .ok) :=
    ⟨h, .refl session, rfl⟩
  rw [item_after Gives.next hgives, List.getElem?_map]

end KeyStream

end PageTrie.Session
