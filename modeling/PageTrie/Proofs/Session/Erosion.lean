import PageTrie.Proofs.Session.Step

/-! Scanning while keys are deleted. The scan point is an index into a page whose pairs close up
behind every delete, so a delete before it makes the scan pass over one key of that page. No key
is handed out twice, and a page loses no more keys to the scan than it saw deletes. -/
namespace PageTrie

theorem mem_drop_erase [BEq α] [LawfulBEq α] {l : List α} {k x : α} {n : Nat}
    (hx : x ∈ l.drop (n + 1)) (hne : x ≠ k) : x ∈ (l.erase k).drop n := by
  induction l generalizing n with
  | nil => simp at hx
  | cons a l ih =>
    rw [List.drop_succ_cons] at hx
    by_cases ha : a = k
    · rw [ha, List.erase_cons_head]
      exact hx
    · rw [List.erase_cons_tail (by simpa using ha)]
      cases n with
      | zero => exact List.mem_cons_of_mem _ ((List.mem_erase_of_ne hne).mpr hx)
      | succ n => exact ih hx

theorem drop_erase_of_mem_take [BEq α] [LawfulBEq α] {l : List α} {k : α} {n : Nat}
    (hk : k ∈ l.take n) : (l.erase k).drop n = l.drop (n + 1) := by
  induction l generalizing n with
  | nil => simp at hk
  | cons a l ih =>
    cases n with
    | zero => cases hk
    | succ n =>
      by_cases ha : a = k
      · rw [ha, List.erase_cons_head]
        rfl
      · rw [List.erase_cons_tail (by simpa using ha)]
        rw [List.take_succ_cons, List.mem_cons] at hk
        exact ih (hk.resolve_left fun heq => ha heq.symm)

/-- Calls that may stand between the steps of a scan, and those steps. -/
def Call.isScanStep : Call → Bool
  | .nextKey | .fetch _ | .contains _ | .delete _ => true
  | .store _ _ | .firstKey | .keys _ | .countBits | .sync _ _ | .clearError => false

def handedKey : Except StoreError Reply → Option Bytes
  | .ok (.key key) => key
  | _ => none

def deletedKey : Call → Except StoreError Reply → Option Bytes
  | .delete key, .ok (.found true) => some key
  | _, _ => none

namespace Session

theorem keysOn_erased {session session' : Session} {key : Bytes}
    (htable : session'.table = session.table.erased key) (number : Nat) :
    session'.keysOn number = if number = session.table.pageOf key then
      (session.keysOn number).erase key else session.keysOn number := by
  rw [keysOn, htable, Table.erased, Table.putPage]
  by_cases hpage : number = session.table.pageOf key
  · rw [if_pos hpage, hpage]
    dsimp only
    rw [Function.update_self, keysOn, List.erase_eq_eraseP', List.eraseP_map]
    rfl
  · rw [if_neg hpage]
    dsimp only
    rw [Function.update_of_ne hpage, keysOn]

section Sound

variable {session session' : Session} (h : session.Sound)
include h

theorem Sound.pageOf_of_mem_keysOn {number : Nat} {key : Bytes} (hkey : key ∈ session.keysOn number) :
    session.table.pageOf key = number := by
  obtain ⟨pair, hpair, rfl⟩ := List.mem_map.mp hkey
  exact (h.table.placed number pair hpair).2

theorem Sound.mem_keyList_of_mem_keysOn {number : Nat} {key : Bytes}
    (hkey : key ∈ session.keysOn number) : key ∈ session.keyList :=
  h.mem_keysFrom.mpr ⟨number, Nat.zero_le _, hkey⟩

theorem Sound.mem_keysOn_pageOf {key : Bytes} (hkey : key ∈ session.keyList) :
    key ∈ session.keysOn (session.table.pageOf key) := by
  obtain ⟨number, -, hmem⟩ := h.mem_keysFrom.mp hkey
  rwa [h.pageOf_of_mem_keysOn hmem]

theorem Sound.mem_ahead {key : Bytes} : key ∈ session.ahead ↔
    key ∈ (session.keysOn session.scan.block).drop session.scan.next ∨
      ∃ later, session.scan.block < later ∧ key ∈ session.keysOn later := by
  rw [ahead, List.mem_append, h.mem_keysFrom]
  rfl

theorem Sound.keysFrom_sublist (number : Nat) :
    List.Sublist (session.keysFrom number) session.keyList := by
  induction number with
  | zero => exact .refl _
  | succ number ih =>
    have hfrom := h.keysFrom_eq number
    exact (hfrom ▸ List.sublist_append_right _ _).trans ih

theorem Sound.length_keysFrom_le {number number' : Nat} (hle : number ≤ number') :
    (session.keysFrom number').length ≤ (session.keysFrom number).length := by
  induction number', hle using Nat.le_induction with
  | base => exact Nat.le_refl _
  | succ number' _ ih =>
    rw [h.keysFrom_eq number', List.length_append] at ih
    exact (Nat.le_add_left _ _).trans ih

theorem Sound.keysFrom_congr (h' : session'.Sound) {number : Nat}
    (hsame : ∀ later, number ≤ later → session'.keysOn later = session.keysOn later) :
    session'.keysFrom number = session.keysFrom number := by
  -- Both files have come to their ends somewhere; the induction is on the way there.
  induction hleft : max session.pagesInFile session'.pagesInFile - number generalizing number with
  | zero =>
    have hend : session.pagesInFile - number = 0 := by omega
    have hend' : session'.pagesInFile - number = 0 := by omega
    rw [keysFrom, keysFrom, hend, hend', List.range'_zero, List.flatMap_nil, List.flatMap_nil]
  | succ left ih =>
    have hrest := ih (fun later hlater => hsame later (Nat.le_of_succ_le hlater)) (by omega)
    rw [h.keysFrom_eq number, h'.keysFrom_eq number, hsame number (Nat.le_refl number), hrest]

theorem Sound.scan_eq_of_ahead {number : Nat} {front rest : List Bytes}
    (hkeys : session.keysOn number = front ++ rest) (hfront : front ≠ []) (hrest : rest ≠ [])
    (hahead : session.ahead = rest ++ session.keysFrom (number + 1)) :
    session.scan.block = number ∧ session.scan.next = front.length := by
  have hlength := congrArg List.length hahead
  have hnumber := congrArg List.length (h.keysFrom_eq number)
  have hblock := congrArg List.length (h.keysFrom_eq session.scan.block)
  have hpos := List.length_pos_iff.mpr hfront
  have hpos' := List.length_pos_iff.mpr hrest
  simp only [ahead, hkeys, List.length_append, List.length_drop] at hlength hnumber hblock
  obtain hlt | heq | hlt := Nat.lt_trichotomy session.scan.block number
  · have hle : (session.keysFrom number).length ≤
        (session.keysFrom (session.scan.block + 1)).length := h.length_keysFrom_le hlt
    omega
  · rw [heq, hkeys, List.length_append] at hlength
    exact ⟨heq, by omega⟩
  · have hle : (session.keysFrom session.scan.block).length ≤
        (session.keysFrom (number + 1)).length := h.length_keysFrom_le hlt
    omega

theorem Sound.ahead_sublist : List.Sublist session.ahead session.keyList := by
  refine List.Sublist.trans ?_ (h.keysFrom_sublist session.scan.block)
  rw [h.keysFrom_eq session.scan.block, ahead]
  exact (List.drop_sublist _ _).append_right _

variable {key : Bytes}

theorem Sound.mem_ahead_of_erased (hsound : session'.Sound)
    (htable : session'.table = session.table.erased key) (hscan : session'.scan = session.scan)
    {other : Bytes} (hother : other ∈ session'.ahead) : other ∈ session.ahead := by
  have hsublist (number : Nat) :
      List.Sublist (session'.keysOn number) (session.keysOn number) := by
    rw [keysOn_erased htable]
    split
    · exact List.erase_sublist
    · exact .refl _
  rw [hsound.mem_ahead, hscan] at hother
  rw [h.mem_ahead]
  obtain hblock | ⟨later, hlater, hmem⟩ := hother
  · exact Or.inl (((hsublist _).drop _).subset hblock)
  · exact Or.inr ⟨later, hlater, (hsublist later).subset hmem⟩

/-- The one key that a delete can take from what is ahead, besides its own, is the next one of
the block that the scan is in. -/
theorem Sound.next_of_mem_ahead (hsound : session'.Sound)
    (htable : session'.table = session.table.erased key) (hscan : session'.scan = session.scan)
    {other : Bytes} (hne : other ≠ key) (hother : other ∈ session.ahead)
    (hlost : other ∉ session'.ahead) :
    session.scan.block = session.table.pageOf key ∧
      (session.keysOn session.scan.block)[session.scan.next]? = some other := by
  rw [hsound.mem_ahead, hscan, not_or, not_exists] at hlost
  obtain ⟨hblock, hlater⟩ := hlost
  obtain hmem | ⟨later, hlt, hmem⟩ := h.mem_ahead.mp hother
  · by_cases hpage : session.scan.block = session.table.pageOf key
    · rw [keysOn_erased htable, if_pos hpage] at hblock
      refine ⟨hpage, ?_⟩
      rw [List.mem_iff_getElem?] at hmem
      obtain ⟨i, hi⟩ := hmem
      cases i with
      | zero => rwa [List.getElem?_drop, Nat.add_zero] at hi
      | succ i =>
        refine absurd (mem_drop_erase ?_ hne) hblock
        rw [List.getElem?_drop] at hi
        rw [List.mem_iff_getElem?]
        refine ⟨i, ?_⟩
        rw [List.getElem?_drop, ← hi]
        congr 1
        omega
    · rw [keysOn_erased htable, if_neg hpage] at hblock
      exact absurd hmem hblock
  · have hkept : other ∈ session'.keysOn later := by
      rw [keysOn_erased htable]
      split
      · exact (List.mem_erase_of_ne hne).mpr hmem
      · exact hmem
    exact absurd ⟨hlt, hkept⟩ (hlater later)

end Sound

/-- A delete behind the scan in its block makes it pass over the key that it is at. -/
theorem Sound.delete_behind {session : Session} (h : session.Sound)
    (hwritable : session.config.isReadOnly = false) {key : Bytes}
    (hbehind : key ∈ (session.keysOn session.scan.block).take session.scan.next) :
    ∃ session', session.step (.delete key) = (.ok (.found true), session') ∧ session'.Sound ∧
      session'.ahead = (session.keysOn session.scan.block).drop (session.scan.next + 1) ++
        session.keysFrom (session.scan.block + 1) := by
  have hon := List.mem_of_mem_take hbehind
  have hpage := h.pageOf_of_mem_keysOn hon
  have hbound := (h.mem_keyList key).mp (h.mem_keyList_of_mem_keysOn hon)
  have hdelete := h.delete key
  generalize hresult : (Session.delete key).run session = result at hdelete
  cases hdelete with
  | rejected cause reason =>
    obtain rfl | hreadOnly := reason
    · rw [h.table.lookup_nil] at hbound
      cases hbound
    · rw [hwritable] at hreadOnly
      cases hreadOnly
  | absent unbound recalls sound =>
    rw [unbound] at hbound
    cases hbound
  | @erased session' bound sound alike table_eq scan_eq =>
    refine ⟨session', step_ok (run_map_ok _ hresult), sound, ?_⟩
    rw [ahead, scan_eq, keysOn_erased table_eq, if_pos hpage.symm, drop_erase_of_mem_take hbehind,
      h.keysFrom_congr sound]
    intro later hlater
    rw [keysOn_erased table_eq, if_neg (by omega)]

/-- The keys of a page that the scan has passed over. -/
def missed (session : Session) (handed : List Bytes) (page : Nat) : List Bytes :=
  (session.keysOn page).filter fun key => key ∉ handed ∧ key ∉ session.ahead

/-- A scan on its way since a session, with the keys that it handed out and those that were
deleted. -/
structure Scanning (start session : Session) (handed deleted : List Bytes) : Prop where
  sound : session.Sound
  split_eq : session.table.isSplit = start.table.isSplit
  nodup : handed.Nodup
  spent : ∀ key ∈ handed, key ∉ session.ahead
  known : ∀ key, key ∈ handed ∨ key ∈ session.keyList → key ∈ start.keyList
  missed_le : ∀ page, (session.missed handed page).length ≤
    deleted.countP fun key => start.table.pageOf key = page

theorem mem_missed {session : Session} {handed : List Bytes} {page : Nat} {key : Bytes} :
    key ∈ session.missed handed page ↔
      key ∈ session.keysOn page ∧ key ∉ handed ∧ key ∉ session.ahead := by
  rw [missed, List.mem_filter, decide_eq_true_iff]

theorem Sound.nodup_missed {session : Session} (h : session.Sound) (handed : List Bytes)
    (page : Nat) : (session.missed handed page).Nodup := (h.table.distinct page).filter _

theorem Sound.scanning_start {session : Session} (h : session.Sound) :
    Scanning session (session.scanning ⟨0, 0⟩) [] [] where
  sound := h.scanning _
  split_eq := rfl
  nodup := .nil
  spent := by simp
  known key hkey := hkey.resolve_left List.not_mem_nil
  missed_le page := by
    have hnil : (session.scanning ⟨0, 0⟩).missed [] page = [] := by
      rw [List.eq_nil_iff_forall_not_mem]
      intro key hkey
      obtain ⟨hon, -, hahead⟩ := mem_missed.mp hkey
      apply hahead
      rw [h.ahead_scanning]
      exact h.mem_keyList_of_mem_keysOn hon
    rw [hnil]
    exact Nat.zero_le _

theorem nothing_of_isLookup (session : Session) {call : Call} (hcall : call.isLookup = true) :
    handedKey (session.step call).1 = none ∧ deletedKey call (session.step call).1 = none := by
  have hmap {α : Type} (x : SessionM α) (f : α → Reply) (hperform : perform call = f <$> x)
      (hf : ∀ a, handedKey (.ok (f a)) = none ∧ deletedKey call (.ok (f a)) = none) :
      handedKey (session.step call).1 = none ∧ deletedKey call (session.step call).1 = none := by
    cases hrun : x.run session with
    | ok a session' =>
      rw [step_ok (by rw [hperform]; exact run_map_ok f hrun)]
      exact hf a
    | error cause session' =>
      rw [step_error (by rw [hperform]; exact run_map_error f hrun)]
      exact ⟨rfl, by cases call <;> rfl⟩
  cases call with
  | fetch key => exact hmap (fetch key) .value rfl fun _ => ⟨rfl, rfl⟩
  | contains key => exact hmap (contains key) .found rfl fun _ => ⟨rfl, rfl⟩
  | countBits => exact hmap countBits .count rfl fun _ => ⟨rfl, rfl⟩
  | store | delete | firstKey | nextKey | keys | sync | clearError => cases hcall

section Scanning

variable {start session session' : Session} {handed deleted : List Bytes}
  (h : Scanning start session handed deleted)
include h

theorem Scanning.pageOf_eq (key : Bytes) :
    session.table.pageOf key = start.table.pageOf key := by
  rw [Table.pageOf, h.split_eq]
  rfl

theorem Scanning.moved (hsound : session'.Sound) (htable : session'.table = session.table)
    {handed' : List Bytes} (hnodup : handed'.Nodup)
    (hspent : ∀ key ∈ handed', key ∉ session'.ahead)
    (hknown : ∀ key ∈ handed', key ∈ handed ∨ key ∈ session.keyList)
    (hkept : ∀ key, key ∈ handed ∨ key ∈ session.ahead → key ∈ handed' ∨ key ∈ session'.ahead) :
    Scanning start session' handed' deleted where
  sound := hsound
  split_eq := by rw [htable, h.split_eq]
  nodup := hnodup
  spent := hspent
  known key hkey := by
    apply h.known
    obtain hhanded | hkey := hkey
    · exact hknown key hhanded
    · rw [hsound.mem_keyList, htable, ← h.sound.mem_keyList] at hkey
      exact Or.inr hkey
  missed_le page := by
    refine le_trans ?_ (h.missed_le page)
    apply ((hsound.nodup_missed handed' page).subperm _).length_le
    intro key hkey
    obtain ⟨hon, hhanded, hahead⟩ := mem_missed.mp hkey
    rw [keysOn, htable] at hon
    refine mem_missed.mpr ⟨hon, fun hmem => ?_, fun hmem => ?_⟩
    · exact (hkept key (Or.inl hmem)).elim hhanded hahead
    · exact (hkept key (Or.inr hmem)).elim hhanded hahead

theorem Scanning.recalls (hsound : session'.Sound) (hrecalls : session.Recalls session') :
    Scanning start session' handed deleted := by
  apply h.moved hsound hrecalls.table_eq h.nodup
  · rw [hrecalls.ahead_eq]
    exact h.spent
  · exact fun key hkey => Or.inl hkey
  · rw [hrecalls.ahead_eq]
    exact fun key hkey => hkey

theorem Scanning.nextKey :
    ∃ session', session.step .nextKey = (.ok (.key session.ahead.head?), session') ∧
      Scanning start session' (handed ++ session.ahead.head?.toList) deleted := by
  obtain ⟨session', hrun, hsound, hscans, htail⟩ := h.sound.nextKey
  have hnodup := h.sound.nodup_keyList.sublist h.sound.ahead_sublist
  have hsubset := h.sound.ahead_sublist.subset
  have hspent := h.spent
  refine ⟨session', step_ok (run_map_ok _ hrun), ?_⟩
  cases hahead : session.ahead with
  | nil =>
    rw [hahead] at htail
    simp only [List.head?_nil, Option.toList_none, List.append_nil]
    apply h.moved hsound hscans.table_eq h.nodup
    · simp [htail]
    · exact fun key hkey => Or.inl hkey
    · rw [hahead]
      exact fun key hkey => Or.inl (hkey.resolve_right List.not_mem_nil)
  | cons first rest =>
    rw [hahead] at htail hnodup hsubset hspent
    rw [List.nodup_cons] at hnodup
    simp only [List.head?_cons, Option.toList_some]
    apply h.moved hsound hscans.table_eq
    · refine List.nodup_append.mpr ⟨h.nodup, by simp, ?_⟩
      rintro key hkey _ hfirst rfl
      rw [List.mem_singleton.mp hfirst] at hkey
      exact hspent first hkey List.mem_cons_self
    · rw [htail, List.tail_cons]
      intro key hkey hrest
      obtain hkey | hkey := List.mem_append.mp hkey
      · exact hspent key hkey (List.mem_cons_of_mem _ hrest)
      · rw [List.mem_singleton.mp hkey] at hrest
        exact hnodup.1 hrest
    · intro key hkey
      refine (List.mem_append.mp hkey).imp_right fun hfirst => ?_
      rw [List.mem_singleton.mp hfirst]
      exact hsubset List.mem_cons_self
    · rw [htail, hahead, List.tail_cons]
      intro key hkey
      rw [List.mem_append, List.mem_singleton, or_assoc]
      exact hkey.imp_right List.mem_cons.mp

theorem Scanning.ahead_of_nextKey (hanswer : (session.step .nextKey).1 = .ok (.key none)) :
    session.ahead = [] := by
  obtain ⟨session', hstep, -⟩ := h.nextKey
  rw [hstep] at hanswer
  cases hahead : session.ahead with
  | nil => rfl
  | cons first rest =>
    rw [hahead] at hanswer
    cases hanswer

/-- A delete makes the scan pass over at most one key, and one on the page of the deleted key. -/
theorem Scanning.missed_erased {key : Bytes} (hsound : session'.Sound)
    (htable : session'.table = session.table.erased key) (hscan : session'.scan = session.scan)
    (page : Nat) : session'.missed handed page ⊆
      (if session.table.pageOf key = page then
        ((session.keysOn session.scan.block)[session.scan.next]?).toList else []) ++
      session.missed handed page := by
  intro other hother
  obtain ⟨hon', hhanded, hahead'⟩ := mem_missed.mp hother
  have hon : other ∈ session.keysOn page := by
    rw [keysOn_erased htable] at hon'
    split at hon'
    · exact List.mem_of_mem_erase hon'
    · exact hon'
  have hne : other ≠ key := by
    rintro rfl
    have hbound := (hsound.mem_keyList other).mp (hsound.mem_keyList_of_mem_keysOn hon')
    rw [htable, h.sound.table.lookup_erased, Function.update_self] at hbound
    cases hbound
  rw [List.mem_append]
  by_cases hahead : other ∈ session.ahead
  · obtain ⟨hblock, hnext⟩ :=
      h.sound.next_of_mem_ahead hsound htable hscan hne hahead hahead'
    have hpage : session.table.pageOf key = page := by
      rw [← hblock, ← h.sound.pageOf_of_mem_keysOn (List.mem_of_getElem? hnext),
        h.sound.pageOf_of_mem_keysOn hon]
    left
    rw [if_pos hpage, hnext]
    exact List.mem_singleton_self other
  · exact Or.inr (mem_missed.mpr ⟨hon, hhanded, hahead⟩)

theorem Scanning.erased {key : Bytes} (hsound : session'.Sound)
    (htable : session'.table = session.table.erased key) (hscan : session'.scan = session.scan) :
    Scanning start session' handed (deleted ++ [key]) where
  sound := hsound
  split_eq := by
    rw [htable]
    exact h.split_eq
  nodup := h.nodup
  spent other hother hahead :=
    h.spent other hother (h.sound.mem_ahead_of_erased hsound htable hscan hahead)
  known other hother := by
    apply h.known
    refine hother.imp_right fun hmem => ?_
    obtain ⟨number, -, hon⟩ := hsound.mem_keysFrom.mp hmem
    rw [keysOn_erased htable] at hon
    apply h.sound.mem_keyList_of_mem_keysOn
    split at hon
    · exact List.mem_of_mem_erase hon
    · exact hon
  missed_le page := by
    have hsubset := h.missed_erased hsound htable hscan page
    have hlength := ((hsound.nodup_missed handed page).subperm hsubset).length_le
    have hpage := h.missed_le page
    rw [List.countP_append, List.countP_singleton, ← h.pageOf_eq key]
    rw [List.length_append] at hlength
    by_cases hkey : session.table.pageOf key = page
    · have hnext : ((session.keysOn session.scan.block)[session.scan.next]?).toList.length ≤ 1 := by
        cases (session.keysOn session.scan.block)[session.scan.next]? <;> simp
      rw [if_pos hkey] at hlength
      rw [if_pos (decide_eq_true hkey)]
      omega
    · rw [if_neg hkey, List.length_nil] at hlength
      omega

theorem Scanning.delete (key : Bytes) :
    Scanning start (session.step (.delete key)).2
      (handed ++ (handedKey (session.step (.delete key)).1).toList)
      (deleted ++ (deletedKey (.delete key) (session.step (.delete key)).1).toList) := by
  have hdelete := h.sound.delete key
  generalize hresult : (Session.delete key).run session = result at hdelete
  cases hdelete with
  | rejected cause reason =>
    rw [step_error (run_map_error _ hresult)]
    simpa [handedKey, deletedKey] using h
  | absent unbound recalls sound =>
    rw [step_ok (run_map_ok _ hresult)]
    simpa [handedKey, deletedKey] using h.recalls sound recalls
  | erased bound sound alike table_eq scan_eq =>
    rw [step_ok (run_map_ok _ hresult)]
    simpa [handedKey, deletedKey] using h.erased sound table_eq scan_eq

theorem Scanning.look {call : Call} (hcall : call.isLookup = true) :
    Scanning start (session.step call).2 (handed ++ (handedKey (session.step call).1).toList)
      (deleted ++ (deletedKey call (session.step call).1).toList) := by
  obtain ⟨hrecalls, hsound⟩ := h.sound.step_lookup hcall
  obtain ⟨hhanded, hdeleted⟩ := session.nothing_of_isLookup hcall
  rw [hhanded, hdeleted]
  simpa using h.recalls hsound hrecalls

theorem Scanning.step {call : Call} (hcall : call.isScanStep = true) :
    Scanning start (session.step call).2 (handed ++ (handedKey (session.step call).1).toList)
      (deleted ++ (deletedKey call (session.step call).1).toList) := by
  cases call with
  | nextKey =>
    obtain ⟨session', hstep, hscanning⟩ := h.nextKey
    rw [hstep]
    simpa [handedKey, deletedKey] using hscanning
  | fetch | contains => exact h.look rfl
  | delete key => exact h.delete key
  | store | firstKey | keys | countBits | sync | clearError => cases hcall

theorem Scanning.card_le (hahead : session.ahead = []) {page : Nat} {keys : Finset Bytes}
    (hkeys : ∀ key ∈ keys, key ∈ session.keyList ∧ start.table.pageOf key = page ∧
      key ∉ handed) :
    keys.card ≤ deleted.countP fun key => start.table.pageOf key = page := by
  have hsubset : keys ⊆ (session.missed handed page).toFinset := by
    intro key hkey
    obtain ⟨hbound, hpage, hhanded⟩ := hkeys key hkey
    have hon := h.sound.mem_keysOn_pageOf hbound
    rw [h.pageOf_eq, hpage] at hon
    rw [List.mem_toFinset, mem_missed, hahead]
    exact ⟨hon, hhanded, List.not_mem_nil⟩
  exact (Finset.card_le_card hsubset).trans
    ((List.toFinset_card_le _).trans (h.missed_le page))

theorem Scanning.count_eq_one (hahead : session.ahead = []) {key : Bytes}
    (hkey : key ∈ session.keyList)
    (hpage : ∀ other ∈ deleted, start.table.pageOf other ≠ start.table.pageOf key) :
    handed.count key = 1 := by
  apply List.count_eq_one_of_mem h.nodup
  by_contra hhanded
  have hsingle : ∀ other ∈ ({key} : Finset Bytes), other ∈ session.keyList ∧
      start.table.pageOf other = start.table.pageOf key ∧ other ∉ handed := by
    intro other hother
    rw [Finset.mem_singleton.mp hother]
    exact ⟨hkey, rfl, hhanded⟩
  have hcard := h.card_le hahead hsingle
  have hzero : deleted.countP (fun other => start.table.pageOf other = start.table.pageOf key) =
      0 := by
    rw [List.countP_eq_zero]
    simpa using hpage
  rw [hzero, Finset.card_singleton] at hcard
  exact absurd hcard (by decide)

end Scanning

end Session

end PageTrie
