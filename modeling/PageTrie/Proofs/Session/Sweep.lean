import PageTrie.Session.Scan
import PageTrie.Proofs.Session.Lookup

/-! The scan over a page file of any contents. It goes through the blocks up to the first one
that cannot be read as a page and hands out their keys in order; there, or at the end of the
file, it stays. -/
namespace PageTrie

def Readable (page : Nat → Page) (number : Nat) : Prop :=
  number * pageSize + pageSize < positionRange ∧ (page number).isWellFormed = true

/-- How far a sweep through the blocks of a page file gets, and what it ends in. -/
inductive Sweeps (page : Nat → Page) (total : Nat) : Nat → Option StoreError → Prop
  | through (before : ∀ number < total, Readable page number) : Sweeps page total total none
  | corrupt {number : Nat} (inFile : number < total)
      (before : ∀ earlier < number, Readable page earlier)
      (reached : number * pageSize + pageSize < positionRange)
      (malformed : (page number).isWellFormed = false) :
      Sweeps page total number (some (.corruptPage number))
  /-- Only the last block of a file of more than `2 ^ 63 - 1024` bytes lies there. -/
  | beyond {number : Nat} (inFile : number < total)
      (before : ∀ earlier < number, Readable page earlier)
      (unreached : positionRange ≤ number * pageSize + pageSize) :
      Sweeps page total number (some (.io .invalidOffset))

def keysBetween (page : Nat → Page) (first last : Nat) : List Bytes :=
  (List.range' first (last - first)).flatMap fun number => (page number).toList.map (·.key)

/-- What a scan answers where it hands out a key, or none is left for it. -/
def scanAnswer (ending : Option StoreError) : Option Bytes → Except StoreError (Option Bytes)
  | some key => .ok (some key)
  | none =>
    match ending with
    | none => .ok none
    | some cause => .error cause

namespace Page.InOrder

variable {page : Page} (h : page.InOrder)
include h

theorem size_eq_length_keys : page.size = (page.toList.map (·.key)).length := by
  rw [List.length_map, h.length_toList]

theorem key?_eq_getElem?_keys (p : Nat) : page.key? p = (page.toList.map (·.key))[p]? := by
  rw [List.getElem?_map, Page.key?]
  exact congrArg (Option.map _) (h.getElem?_toList p).symm

end Page.InOrder

section Sweeps

variable {page : Nat → Page} {total count : Nat} {ending : Option StoreError}

theorem exists_sweeps_of_not_readable {number : Nat} (hin : number < total)
    (hbefore : ∀ earlier < number, Readable page earlier) (hbad : ¬ Readable page number) :
    ∃ cause, Sweeps page total number (some cause) := by
  by_cases hreach : number * pageSize + pageSize < positionRange
  · refine ⟨_, .corrupt hin hbefore hreach ?_⟩
    by_contra hformed
    exact hbad ⟨hreach, eq_true_of_ne_false hformed⟩
  · exact ⟨_, .beyond hin hbefore (Nat.le_of_not_lt hreach)⟩

theorem exists_sweeps (page : Nat → Page) (total : Nat) :
    ∃ count ending, Sweeps page total count ending := by
  classical
  by_cases hall : ∀ number < total, Readable page number
  · exact ⟨total, none, .through hall⟩
  push Not at hall
  have hbefore : ∀ earlier < Nat.find hall, Readable page earlier := by
    intro earlier hearlier
    by_contra hbad
    exact Nat.find_min hall hearlier
      ⟨hearlier.trans (Nat.find_spec hall).1, hbad⟩
  obtain ⟨hin, hbad⟩ := Nat.find_spec hall
  obtain ⟨cause, hsweeps⟩ := exists_sweeps_of_not_readable hin hbefore hbad
  exact ⟨_, _, hsweeps⟩

theorem Sweeps.le (h : Sweeps page total count ending) : count ≤ total := by
  cases h with
  | through => exact Nat.le_refl _
  | corrupt inFile => exact Nat.le_of_lt inFile
  | beyond inFile => exact Nat.le_of_lt inFile

theorem Sweeps.readable (h : Sweeps page total count ending) {number : Nat}
    (hnumber : number < count) : Readable page number := by
  cases h with
  | through before => exact before number hnumber
  | corrupt inFile before => exact before number hnumber
  | beyond inFile before => exact before number hnumber

theorem Sweeps.ending_eq_none (h : Sweeps page total count ending) (hcount : total ≤ count) :
    ending = none := by
  cases h with
  | through => rfl
  | corrupt inFile => exact absurd inFile (Nat.not_lt.mpr hcount)
  | beyond inFile => exact absurd inFile (Nat.not_lt.mpr hcount)

theorem Sweeps.isIo_of_scanAnswer (h : Sweeps page total count ending) {key : Option Bytes}
    {cause : StoreError} (hanswer : scanAnswer ending key = .error cause) :
    cause.isIo = true := by
  cases key with
  | some key => cases hanswer
  | none =>
    cases h with
    | through => cases hanswer
    | corrupt =>
      cases hanswer
      rfl
    | beyond =>
      cases hanswer
      rfl

theorem keysBetween_eq (page : Nat → Page) {first last : Nat} (h : first < last) :
    keysBetween page first last =
      (page first).toList.map (·.key) ++ keysBetween page (first + 1) last := by
  have hcount : last - first = last - (first + 1) + 1 := by omega
  rw [keysBetween, hcount, List.range'_succ, List.flatMap_cons]
  rfl

theorem keysBetween_of_le (page : Nat → Page) {first last : Nat} (h : last ≤ first) :
    keysBetween page first last = [] := by
  rw [keysBetween, Nat.sub_eq_zero_of_le h]
  rfl

end Sweeps

namespace Session

variable {session : Session} {number count : Nat} {ending : Option StoreError}

theorem reaches_of_lt_pagesInFile (hin : number < session.pagesInFile) :
    session.pages.Reaches (number * pageSize) pageSize ↔
      number * pageSize + pageSize < positionRange := by
  refine ⟨And.right, OpenFile.reaches_of_lt_length ?_⟩
  change number < (session.pages.length + 1023) / 1024 at hin
  change number * 1024 < session.pages.length
  omega

theorem pageOnDisk_of_readable (h : session.pages.IsRegular) (hin : number < session.pagesInFile)
    (hreadable : Readable session.diskPage number) :
    session.pageOnDisk number = .ok (session.diskPage number) := by
  rw [pageOnDisk_eq_ite h ((reaches_of_lt_pagesInFile hin).mpr hreadable.1), if_pos hreadable.2]

theorem pageOnDisk_of_sweeps (h : session.pages.IsRegular)
    (hsweeps : Sweeps session.diskPage session.pagesInFile count ending)
    (hcount : count < session.pagesInFile) :
    ∃ cause, ending = some cause ∧ session.pageOnDisk count = .error cause := by
  cases hsweeps with
  | through => exact absurd hcount (Nat.lt_irrefl _)
  | corrupt inFile before reached malformed =>
    refine ⟨_, rfl, ?_⟩
    rw [pageOnDisk_eq_ite h ((reaches_of_lt_pagesInFile inFile).mpr reached), malformed]
    rfl
  | beyond inFile before unreached =>
    refine ⟨_, rfl, pageOnDisk_of_not_reaches ?_⟩
    rw [reaches_of_lt_pagesInFile inFile]
    exact Nat.not_lt_of_le unreached

def scanning (session : Session) (scan : ScanPoint) : Session := { session with scan }

def Scans (session session' : Session) : Prop :=
  ∃ cached scan, session' = (session.keeping cached).scanning scan

theorem Scans.refl (session : Session) : session.Scans session :=
  ⟨session.cached, session.scan, rfl⟩

theorem Scans.trans {first second third : Session} (h : first.Scans second)
    (h' : second.Scans third) : first.Scans third := by
  obtain ⟨cached, scan, rfl⟩ := h
  obtain ⟨cached', scan', rfl⟩ := h'
  exact ⟨cached', scan', rfl⟩

def keysLeft (session : Session) (last : Nat) : List Bytes :=
  if session.scan.block < last then
    ((session.diskPage session.scan.block).toList.map (·.key)).drop session.scan.next ++
      keysBetween session.diskPage (session.scan.block + 1) last
  else []

theorem keysLeft_scanning (session : Session) (first last : Nat) :
    (session.scanning ⟨first, 0⟩).keysLeft last = keysBetween session.diskPage first last := by
  by_cases hlt : first < last
  · rw [keysBetween_eq session.diskPage hlt]
    exact if_pos hlt
  · rw [keysBetween_of_le session.diskPage (Nat.le_of_not_lt hlt)]
    exact if_neg hlt

theorem keysLeft_of_le (session : Session) (h : count ≤ session.scan.block) :
    session.keysLeft count = [] :=
  if_neg (Nat.not_lt.mpr h)

theorem keysLeft_eq_cons (hblock : session.scan.block < count)
    (hnext : session.scan.next <
      ((session.diskPage session.scan.block).toList.map (·.key)).length) :
    session.keysLeft count =
      ((session.diskPage session.scan.block).toList.map (·.key))[session.scan.next] ::
        (session.scanning ⟨session.scan.block, session.scan.next + 1⟩).keysLeft count := by
  rw [keysLeft, if_pos hblock, List.drop_eq_getElem_cons hnext, List.cons_append]
  exact congrArg _ (if_pos hblock).symm

/-- A block with no key left is passed over without changing what is left. -/
theorem keysLeft_passed (hblock : session.scan.block < count)
    (hnext : ((session.diskPage session.scan.block).toList.map (·.key)).length ≤
      session.scan.next) :
    (session.scanning ⟨session.scan.block + 1, 0⟩).keysLeft count = session.keysLeft count := by
  rw [keysLeft_scanning, keysLeft, if_pos hblock, List.drop_eq_nil_of_le hnext, List.nil_append]

/-- Properties of a session that reading its pages and moving the scan keep. -/
structure Browsing (P : Session → Prop) : Prop where
  regular : ∀ {session : Session}, P session → session.pages.IsRegular
  read : ∀ {session : Session} {number : Nat}, P session → number < session.pagesInFile →
    ∃ cached, (pageAt number).run session =
        (ofResult (session.pageOnDisk number)).run (session.keeping cached) ∧
      P (session.keeping cached)
  scanning : ∀ {session : Session}, P session → ∀ scan, P (session.scanning scan)
  flagged : ∀ {session : Session}, P session → P session.flagged

/-- A scan on its way, with what is left for it to hand out. -/
structure Sweeping (P : Session → Prop) (count : Nat) (ending : Option StoreError)
    (session : Session) (rest : List Bytes) : Prop where
  holds : P session
  sweeps : Sweeps session.diskPage session.pagesInFile count ending
  block_le : session.scan.block ≤ count
  rest_eq : session.keysLeft count = rest

section Browsing

variable {P : Session → Prop} (hP : Browsing P)
include hP

theorem Browsing.nextWithin {session : Session} (h : P session) {rest : List Bytes}
    {remaining : Nat} (hremaining : remaining = session.pagesInFile - session.scan.block)
    (hsweeps : Sweeps session.diskPage session.pagesInFile count ending)
    (hblock : session.scan.block ≤ count) (hrest : session.keysLeft count = rest) :
    ∃ session', (nextWithin remaining).run session =
        (ofResult (scanAnswer ending rest.head?)).run session' ∧
      session.Scans session' ∧ Sweeping P count ending session' rest.tail := by
  -- Only a block with no key left takes the scan on to the next one.
  induction remaining generalizing session with
  | zero =>
    have hend : session.pagesInFile ≤ count := by omega
    have hnil := session.keysLeft_of_le (show count ≤ _ by have := hsweeps.le; omega)
    rw [hnil] at hrest
    subst hrest
    refine ⟨session, ?_, .refl session, h, hsweeps, hblock, hnil⟩
    rw [hsweeps.ending_eq_none hend]
    rfl
  | succ remaining ih =>
    obtain ⟨cached, hread, hkept⟩ := hP.read h (show session.scan.block < _ by omega)
    unfold Session.nextWithin
    rw [run_get_bind]
    dsimp only
    by_cases hlt : session.scan.block < count
    · have hreadable := hsweeps.readable hlt
      have horder := (Page.isWellFormed_iff _).mp hreadable.2
      rw [pageOnDisk_of_readable (hP.regular h) (hlt.trans_le hsweeps.le) hreadable] at hread
      rw [run_bind_ok hread, horder.size_eq_length_keys]
      by_cases hnext : session.scan.next <
          ((session.diskPage session.scan.block).toList.map (·.key)).length
      · rw [keysLeft_eq_cons hlt hnext] at hrest
        subst hrest
        rw [if_pos hnext, run_bind_ok (EStateM.run_modify _ _), EStateM.run_pure,
          horder.key?_eq_getElem?_keys, List.getElem?_eq_getElem hnext]
        exact ⟨_, rfl, ⟨cached, _, rfl⟩, hP.scanning hkept
          ⟨session.scan.block, session.scan.next + 1⟩, hsweeps, hblock, rfl⟩
      · rw [if_neg hnext, run_bind_ok (EStateM.run_modify _ _)]
        have hmoved := (keysLeft_passed hlt (Nat.le_of_not_lt hnext)).trans hrest
        have hremaining' : remaining = session.pagesInFile - (session.scan.block + 1) := by omega
        obtain ⟨session', hrun, hscans, hsweeping⟩ :=
          ih (hP.scanning hkept ⟨session.scan.block + 1, 0⟩) hremaining' hsweeps hlt hmoved
        exact ⟨session', hrun, Scans.trans ⟨cached, _, rfl⟩ hscans, hsweeping⟩
    · have hcount : session.scan.block = count := by omega
      obtain ⟨cause, rfl, hfail⟩ := pageOnDisk_of_sweeps (hP.regular h) hsweeps (by omega)
      have hnil := session.keysLeft_of_le (Nat.le_of_not_lt hlt)
      rw [hnil] at hrest
      subst hrest
      rw [hcount, hfail] at hread
      rw [hcount, run_bind_error hread]
      exact ⟨_, rfl, ⟨cached, session.scan, rfl⟩, hkept, hsweeps, hblock, hnil⟩

theorem Sweeping.nextKey {session : Session} {rest : List Bytes}
    (h : Sweeping P count ending session rest) :
    ∃ session', nextKey.run session =
        (ofResult (scanAnswer ending rest.head?)).run session' ∧
      Sweeping P count ending session' rest.tail := by
  obtain ⟨session', hrun, -, hsweeping⟩ :=
    hP.nextWithin h.holds rfl h.sweeps h.block_le h.rest_eq
  cases hanswer : scanAnswer ending rest.head? with
  | ok key =>
    rw [hanswer] at hrun
    exact ⟨session', run_flagging_ok hrun, hsweeping⟩
  | error cause =>
    rw [hanswer] at hrun
    exact ⟨session'.flagged, run_flagging_error hrun (h.sweeps.isIo_of_scanAnswer hanswer),
      hP.flagged hsweeping.holds, hsweeping.sweeps, hsweeping.block_le, hsweeping.rest_eq⟩

theorem Browsing.firstKey {session : Session} (h : P session)
    (hsweeps : Sweeps session.diskPage session.pagesInFile count ending) :
    ∃ session', firstKey.run session = (ofResult (scanAnswer ending
          (keysBetween session.diskPage 0 count).head?)).run session' ∧
      Sweeping P count ending session' (keysBetween session.diskPage 0 count).tail := by
  have hstart : Sweeping P count ending (session.scanning ⟨0, 0⟩)
      (keysBetween session.diskPage 0 count) :=
    ⟨hP.scanning h _, hsweeps, Nat.zero_le _, keysLeft_scanning _ _ _⟩
  exact Sweeping.nextKey hP hstart

end Browsing

namespace KeyStream

def after (stream : KeyStream) (session : Session) : (count : Nat) → KeyStream × Session
  | 0 => (stream, session)
  | count + 1 =>
    let (_, stream', session') := stream.next session
    stream'.after session' count

section Gives

-- `G` is what is known of a pass and its session, with the items that the pass has still to give.
variable {G : KeyStream → Session → List (Except StoreError Bytes) → Prop}
  (hnext : ∀ {stream session items}, G stream session items →
    ∃ stream' session', stream.next session = (items.head?, stream', session') ∧
      G stream' session' items.tail)
include hnext

theorem item_after {stream : KeyStream} {session : Session}
    {items : List (Except StoreError Bytes)} (h : G stream session items) (count : Nat) :
    ((stream.after session count).1.next (stream.after session count).2).1 = items[count]? := by
  induction count generalizing stream session items with
  | zero =>
    obtain ⟨stream', session', hrun, -⟩ := hnext h
    rw [after, hrun, List.head?_eq_getElem?]
  | succ count ih =>
    obtain ⟨stream', session', hrun, hgives⟩ := hnext h
    have hafter : stream.after session (count + 1) = stream'.after session' count := by
      rw [after, hrun]
    rw [hafter, ih hgives, List.getElem?_tail]

theorem items_taken {stream : KeyStream} {session : Session}
    {items : List (Except StoreError Bytes)} (h : G stream session items) (limit : Nat) :
    ∃ stream' session', stream.take session limit = (items.take limit, stream', session') ∧
      ∃ rest, G stream' session' rest := by
  induction limit generalizing stream session items with
  | zero => exact ⟨stream, session, rfl, items, h⟩
  | succ limit ih =>
    obtain ⟨stream', session', hrun, hgives⟩ := hnext h
    obtain ⟨stream'', session'', htake, hrest⟩ := ih hgives
    unfold KeyStream.take
    rw [hrun]
    cases items with
    | nil => exact ⟨stream', session', rfl, _, hgives⟩
    | cons item items =>
      refine ⟨stream'', session'', ?_, hrest⟩
      rw [List.take_succ_cons]
      dsimp only [List.head?_cons]
      rw [htake, List.tail_cons]

end Gives

end KeyStream

end Session

end PageTrie
