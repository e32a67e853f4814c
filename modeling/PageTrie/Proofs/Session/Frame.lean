import PageTrie.Proofs.Footprint
import PageTrie.Proofs.Session.Ending

/-! What a call may write to the files. It stays within the footprint of one leaf, and the bits
that it sets are those of the splits that gave the leaf its footprint; this needs nothing of the
files but that they can be read. -/
namespace PageTrie.Session

open TrieNode

structure SameFiles (session session' : Session) : Prop where
  directory_eq : session'.directory.file = session.directory.file
  pages_eq : session'.pages = session.pages

section SameFiles

variable {session session' : Session}

theorem SameFiles.refl (session : Session) : session.SameFiles session := ⟨rfl, rfl⟩

theorem SameFiles.trans {session'' : Session} (h : session.SameFiles session')
    (h' : session'.SameFiles session'') : session.SameFiles session'' :=
  ⟨h'.directory_eq.trans h.directory_eq, h'.pages_eq.trans h.pages_eq⟩

theorem SameFiles.flagged (h : session.SameFiles session') :
    session.SameFiles session'.flagged := ⟨h.directory_eq, h.pages_eq⟩

theorem Recalls.sameFiles (h : session.Recalls session') : session.SameFiles session' := by
  obtain ⟨block, page, rfl⟩ := h
  exact ⟨rfl, rfl⟩

theorem Peeks.sameFiles (h : session.Peeks session') : session.SameFiles session' :=
  ⟨congrArg (fun session => session.directory.file) h, congrArg (fun session => session.pages) h⟩

end SameFiles

/-- Between two sessions only pages of a footprint changed, and only the bits of its splits were
set. -/
def Framed (session session' : Session) (hash : UInt32) (depth count : Nat) : Prop :=
  (∀ number, number ∉ footprint hash depth count →
      session'.diskPage number = session.diskPage number) ∧
    (∀ i, session'.directory.file.bit i = true ↔
      session.directory.file.bit i = true ∨ i ∈ stretch hash depth count) ∧
    session.pages.length ≤ session'.pages.length

theorem Framed.refl (session : Session) (hash : UInt32) (depth : Nat) :
    session.Framed session hash depth 0 := by
  refine ⟨fun _ _ => rfl, fun i => ?_, Nat.le_refl _⟩
  rw [stretch_zero]
  simp

section Framed

variable {session session' : Session} {hash : UInt32} {depth count : Nat}

theorem Framed.trans {session'' : Session} (h : session.Framed session' hash depth 1)
    (h' : session'.Framed session'' hash (depth + 1) count) :
    session.Framed session'' hash depth (count + 1) := by
  obtain ⟨hpage, hbit, hlength⟩ := h
  obtain ⟨hpage', hbit', hlength'⟩ := h'
  refine ⟨fun number hout => ?_, fun i => ?_, hlength.trans hlength'⟩
  · rw [hpage' number fun hmem => hout (mem_footprint_of_succ hmem), hpage number]
    intro hmem
    apply hout
    rw [footprint_succ] at hmem ⊢
    simp only [siblings, List.range_zero, List.map_nil, List.mem_cons, List.not_mem_nil,
      or_false] at hmem ⊢
    exact hmem.imp_right Or.inl
  · rw [hbit', hbit, mem_stretch_succ, mem_stretch_succ, stretch_zero]
    simp [or_assoc]

theorem Framed.wrote (h : session.Framed session' hash depth count) (hready : session'.Ready)
    (page : Page) :
    session.Framed (session'.wrote (hash.toNat % 2 ^ (depth + count)) page) hash depth count := by
  obtain ⟨hpage, hbit, hlength⟩ := h
  refine ⟨fun number hout => ?_, hbit, hlength.trans (hready.length_le_wrote _ _)⟩
  have hne : number ≠ hash.toNat % 2 ^ (depth + count) := by
    rintro rfl
    exact hout (mod_mem_footprint hash depth count)
  rw [hready.diskPage_wrote, if_neg hne, hpage number hout]

theorem Ready.framed_parted (h : session.Ready) (hdepth : depth < hashWidth) (kept away : Page) :
    session.Framed (session.parted hash depth kept away) hash depth 1 := by
  refine ⟨fun number hout => ?_, fun i => ?_, h.length_le_wrote _ _⟩
  · have hne : number ≠ (onPath hash depth).siblingPage hash := by
      rintro rfl
      exact hout (siblingPage_mem_footprint hash hdepth)
    exact (h.diskPage_wrote _ _ number).trans (if_neg hne)
  · have hbit := h.coherent.bit_marked (onPath hash depth).number i
    change (session.directory.marked _).file.bit i = true ↔ _
    rw [hbit, mem_stretch_succ, stretch_zero]
    simp [or_comm]

end Framed

/-- A session in the middle of a change, with all that was written so far in a frame. -/
structure Underway (origin : Session) (hash : UInt32) (depth count : Nat) (session : Session) :
    Prop where
  depth_le : depth + count ≤ hashWidth
  framed : origin.Framed session hash depth count
  ready : session.Ready
  writable : session.config.isReadOnly = false

def Stayed (origin : Session) (hash : UInt32) (depth : Nat) (session : Session) : Prop :=
  ∃ count, depth + count ≤ hashWidth ∧ origin.Framed session hash depth count

def Grown (origin : Session) (hash : UInt32) (depth need : Nat) (found : TrieNode × Page)
    (session : Session) : Prop :=
  Roomy hash need found.1 found.2 ∧
    ∃ count, found.1 = onPath hash (depth + count) ∧ origin.Underway hash depth count session

/-- Growing found no room. At the end of a hash nothing was written before that came out. -/
structure Crammed (origin : Session) (hash : UInt32) (depth : Nat) (cause : StoreError)
    (session : Session) : Prop where
  cause_eq : cause = .cannotMakeRoom splitBudget
  stayed : origin.Stayed hash depth session
  sameFiles : depth = hashWidth → origin.SameFiles session

section Underway

variable {origin session : Session} {hash : UInt32} {depth count : Nat}

theorem Underway.stayed (h : origin.Underway hash depth count session) :
    origin.Stayed hash depth session := ⟨count, h.depth_le, h.framed⟩

theorem Underway.keeping (h : origin.Underway hash depth count session)
    (page : Option (Nat × Page)) : origin.Underway hash depth count (session.keeping page) :=
  ⟨h.depth_le, h.framed, h.ready.keeping page, h.writable⟩

theorem Underway.restart (h : session.Underway hash depth 0 session)
    (page : Option (Nat × Page)) :
    (session.keeping page).Underway hash depth 0 (session.keeping page) :=
  ⟨h.depth_le, .refl _ _ _, h.ready.keeping page, h.writable⟩

theorem Underway.putPage (h : origin.Underway hash depth count session) (page : Page) :
    ∃ session', (putPage ((onPath hash (depth + count)).page hash) page).run session =
        .ok () session' ∧ origin.Underway hash depth count session' := by
  have hnumber := page_onPath_lt hash hash h.depth_le
  rw [page_onPath hash hash h.depth_le] at hnumber ⊢
  exact ⟨_, h.ready.run_putPage h.writable hnumber page, h.depth_le, h.framed.wrote h.ready page,
    h.ready.wrote _ _, h.writable⟩

theorem Underway.splitLeaf (h : origin.Underway hash depth 0 session) {page : Page}
    (horder : page.InOrder) (hdepth : depth < hashWidth) :
    ∃ session' kept, (splitLeaf hash (onPath hash depth) page).run session = .ok kept session' ∧
      kept.InOrder ∧ session.Underway hash depth 1 session' := by
  obtain ⟨kept, away, hrun, hkept, -⟩ := h.ready.run_splitLeaf h.writable horder hash hdepth
  exact ⟨_, kept, hrun, hkept, hdepth, h.ready.framed_parted hdepth kept away,
    ((h.ready.wrote _ away).keeping _).marked _, h.writable⟩

theorem Underway.start (h : origin.Underway hash depth 1 session) :
    session.Underway hash (depth + 1) 0 session :=
  ⟨h.depth_le, .refl _ _ _, h.ready, h.writable⟩

theorem Underway.trans {session' : Session} (h : origin.Underway hash depth 1 session)
    (h' : session.Underway hash (depth + 1) count session') :
    origin.Underway hash depth (count + 1) session' := by
  have hdepth := h'.depth_le
  exact ⟨by omega, h.framed.trans h'.framed, h'.ready, h'.writable⟩

theorem Underway.trans_stayed {session' : Session} (h : origin.Underway hash depth 1 session)
    (h' : session.Stayed hash (depth + 1) session') : origin.Stayed hash depth session' := by
  obtain ⟨count, hdepth, hframed⟩ := h'
  exact ⟨count + 1, by omega, h.framed.trans hframed⟩

theorem Underway.trans_grown {session' : Session} {need : Nat} {found : TrieNode × Page}
    (h : origin.Underway hash depth 1 session)
    (h' : session.Grown hash (depth + 1) need found session') :
    origin.Grown hash depth need found session' := by
  obtain ⟨hroomy, count, hfound, hunderway⟩ := h'
  have hdepth : depth + 1 + count = depth + (count + 1) := by omega
  exact ⟨hroomy, count + 1, hdepth ▸ hfound, h.trans hunderway⟩

theorem Underway.crammed (h : session.Underway hash depth 0 session) :
    session.Crammed hash depth (.cannotMakeRoom splitBudget) session :=
  ⟨rfl, h.stayed, fun _ => .refl session⟩

theorem Underway.trans_crammed {session' : Session} {cause : StoreError}
    (h : origin.Underway hash depth 1 session)
    (h' : session.Crammed hash (depth + 1) cause session') :
    origin.Crammed hash depth cause session' := by
  have hdepth := h.depth_le
  exact ⟨h'.cause_eq, h.trans_stayed h'.stayed, fun hend => by omega⟩

/-- Each split starts from what the splits before it left, so the frames add up. -/
theorem Underway.growWithin (h : session.Underway hash depth 0 session) {page : Page}
    (horder : page.InOrder) (need budget : Nat) :
    Ends (session.Grown hash depth need) (session.Crammed hash depth)
      ((growWithin hash need (onPath hash depth) page budget).run session) := by
  induction budget generalizing session depth page with
  | zero => exact .error h.crammed
  | succ budget ih =>
    unfold Session.growWithin
    rw [depth_onPath]
    by_cases hend : depth = hashWidth
    · rw [if_pos hend]
      exact .error h.crammed
    · have hlt : depth < hashWidth := Nat.lt_of_le_of_ne h.depth_le hend
      obtain ⟨split, kept, hrun, hkept, hsplit⟩ := h.splitLeaf horder hlt
      rw [if_neg hend]
      dsimp only
      rw [run_bind_ok hrun]
      cases hroom : kept.hasRoom need with
      | true => exact .ok ⟨⟨hkept, ⟨depth + 1, hlt, rfl⟩, hroom⟩, 1, rfl, hsplit⟩
      | false =>
        obtain ⟨written, hput, hwritten⟩ := hsplit.putPage kept
        rw [if_neg Bool.false_ne_true, ← onPath_succ, run_bind_ok hput]
        exact (ih hwritten.start hkept).mono (fun _ _ => hwritten.trans_grown)
          fun _ _ => hwritten.trans_crammed

theorem Underway.grow (h : session.Underway hash depth 0 session) {page : Page}
    (horder : page.InOrder) (need : Nat) :
    Ends (session.Grown hash depth need) (session.Crammed hash depth)
      ((grow hash need (onPath hash depth) page).run session) := by
  have hgrown := h.growWithin horder need splitBudget
  rw [EStateM.run, Session.grow]
  generalize (Session.growWithin hash need (onPath hash depth) page splitBudget).run session =
    result at hgrown
  cases hgrown with
  | ok done => exact .ok done
  | error failed =>
    obtain ⟨hcause, hstayed, hsame⟩ := failed
    exact .error ⟨hcause, hstayed, fun hend => ⟨(hsame hend).directory_eq, (hsame hend).pages_eq⟩⟩

theorem Underway.append (h : origin.Underway hash depth count session) {pair : Pair}
    (hsize : pair.size ≤ pairLimit) {page : Page}
    (hroomy : Roomy hash pair.size (onPath hash (depth + count)) page) :
    ∃ session', (do
        let page ← ofResult (page.insert pair)
        Session.keep ((onPath hash (depth + count)).page hash) page
        Session.putPage ((onPath hash (depth + count)).page hash) page : SessionM Unit).run
          session = .ok () session' ∧ origin.Stayed hash depth session' := by
  obtain ⟨page', hinsert, -⟩ := hroomy.insert hsize
  obtain ⟨written, hput, hwritten⟩ := (h.keeping (some
    ((onPath hash (depth + count)).page hash, page'))).putPage page'
  refine ⟨written, ?_, hwritten.stayed⟩
  rw [hinsert, run_bind_ok (run_ofResult_ok page' session), run_bind_ok (run_keep _ _ _)]
  exact hput

theorem Underway.place (h : session.Underway hash depth 0 session) {page : Page}
    (horder : page.InOrder) {pair : Pair} (hsize : pair.size ≤ pairLimit) :
    Ends (fun _ => session.Stayed hash depth) (session.Crammed hash depth)
      ((place hash pair (onPath hash depth) page).run session) := by
  unfold Session.place
  by_cases hroom : page.hasRoom pair.size = true
  · obtain ⟨session', hadd, hstayed⟩ :=
      h.append hsize ⟨horder, ⟨depth, h.depth_le, rfl⟩, hroom⟩
    rw [if_pos hroom, run_bind_ok (EStateM.run_pure _ _)]
    rw [Nat.add_zero] at hadd
    dsimp only
    rw [hadd]
    exact .ok hstayed
  · rw [if_neg hroom]
    apply (h.grow horder pair.size).bind
    rintro ⟨leaf, page⟩ session' ⟨hroomy, count, hleaf, hunderway⟩
    dsimp only at hleaf hroomy ⊢
    rw [hleaf] at hroomy ⊢
    obtain ⟨session'', hadd, hstayed⟩ := hunderway.append hsize hroomy
    rw [hadd]
    exact .ok hstayed

end Underway

structure Entered (session : Session) (hash : UInt32) (depth : Nat) (found : TrieNode × Page)
    (session' : Session) : Prop where
  leaf_eq : found.1 = onPath hash depth
  inOrder : found.2.InOrder
  start : session'.Underway hash depth 0 session'
  stayed : ∀ last, session'.Stayed hash depth last → session.Stayed hash depth last

section Entered

variable {session : Session} {depth : Nat}

theorem framed_put {pair : Pair}
    (h : Ends (session.Entered (keyHash pair.key) depth)
      (fun _ => session.Stayed (keyHash pair.key) depth) ((leafFor (keyHash pair.key)).run session))
    (hsize : pair.size ≤ pairLimit) (mode : PutMode) :
    Ends (fun _ => session.Stayed (keyHash pair.key) depth)
      (fun _ => session.Stayed (keyHash pair.key) depth) ((put pair mode).run session) := by
  unfold Session.put
  apply h.bind
  rintro ⟨leaf, page⟩ session' ⟨hleaf, horder, hstart, hstayed⟩
  dsimp only at hleaf horder ⊢
  rw [hleaf]
  cases mode with
  | insert =>
    dsimp only
    split
    · exact .ok (hstayed _ hstart.stayed)
    · apply ((hstart.place horder hsize).mono (fun _ => hstayed)
        fun _ _ hcrammed => hstayed _ hcrammed.stayed).bind
      exact fun _ _ hdone => .ok hdone
  | replace =>
    have herased := horder.erased pair.key
    have hplace := (hstart.restart (some ((onPath (keyHash pair.key) depth).page
      (keyHash pair.key), (page.erase? pair.key).getD page))).place herased hsize
    dsimp only
    rw [run_bind_ok (run_keep _ _ _)]
    apply (hplace.mono (fun _ => hstayed) fun _ _ hcrammed => hstayed _ hcrammed.stayed).bind
    exact fun _ _ hdone => .ok hdone

theorem framed_erase {key : Bytes}
    (h : Ends (session.Entered (keyHash key) depth)
      (fun _ => session.Stayed (keyHash key) depth) ((leafFor (keyHash key)).run session)) :
    Ends (fun _ => session.Stayed (keyHash key) depth)
      (fun _ => session.Stayed (keyHash key) depth) ((erase key).run session) := by
  unfold Session.erase
  apply h.bind
  rintro ⟨leaf, page⟩ session' ⟨hleaf, horder, hstart, hstayed⟩
  dsimp only at hleaf ⊢
  rw [hleaf]
  cases page.erase? key with
  | none => exact .ok (hstayed _ hstart.stayed)
  | some erased =>
    obtain ⟨written, hput, hwritten⟩ := (hstart.restart (some
      ((onPath (keyHash key) depth).page (keyHash key), erased))).putPage erased
    rw [Nat.add_zero] at hput
    dsimp only
    rw [run_bind_ok (run_keep _ _ _), run_bind_ok hput]
    exact .ok (hstayed _ hwritten.stayed)

end Entered

theorem stayed_refl (session : Session) (key : Bytes) :
    session.Stayed (keyHash key) (session.table.depthOf key) session :=
  ⟨0, (session.table.isLeaf key).depth_le, .refl _ _ _⟩

section Sound

variable {session : Session} (h : session.Sound)
include h

theorem Sound.enters (hwritable : session.config.isReadOnly = false) (key : Bytes) :
    Ends (session.Entered (keyHash key) (session.table.depthOf key))
      (fun _ => session.Stayed (keyHash key) (session.table.depthOf key))
      ((Session.leafFor (keyHash key)).run session) := by
  obtain ⟨session', hrun, ⟨block, cached, rfl⟩, hsound⟩ := h.leafFor_key key
  rw [hrun]
  exact .ok ⟨rfl, h.grounded.inOrder _,
    ⟨(session.table.isLeaf key).depth_le, .refl _ _ _, hsound.grounded.ready, hwritable⟩,
    fun _ => id⟩

theorem Sound.stayed_store (pair : Pair) (mode : PutMode) :
    session.Stayed (keyHash pair.key) (session.table.depthOf pair.key)
      (session.step (.store pair mode)).2 := by
  have hstayed := session.stayed_refl pair.key
  apply Ends.left
  apply Ends.map
  apply ends_required hstayed hstayed
  intro hkey hwritable
  split
  · exact .error hstayed
  · next hsize =>
    exact (framed_put (h.enters hwritable pair.key) (Nat.le_of_not_lt hsize) mode).flagging
      fun _ _ => id

theorem Sound.stayed_delete (key : Bytes) :
    session.Stayed (keyHash key) (session.table.depthOf key) (session.step (.delete key)).2 := by
  have hstayed := session.stayed_refl key
  apply Ends.left
  apply Ends.map
  apply ends_required hstayed hstayed
  exact fun hkey hwritable => (framed_erase (h.enters hwritable key)).flagging fun _ _ => id

/-- Every call writes within a footprint of one leaf. -/
theorem Sound.stayed_step (call : Call) :
    ∃ key, session.Stayed (keyHash key) (session.table.depthOf key) (session.step call).2 := by
  have hlooked {call : Call} (hcall : call.isLookup = true) :
      session.Stayed (keyHash []) (session.table.depthOf []) (session.step call).2 := by
    obtain ⟨⟨block, cached, hrecalls⟩, -⟩ := h.step_lookup hcall
    rw [hrecalls]
    exact session.stayed_refl []
  have hscans {session' : Session} (hscans : session.Scans session') :
      session.Stayed (keyHash []) (session.table.depthOf []) session' := by
    obtain ⟨cached, scan, rfl⟩ := hscans
    exact session.stayed_refl []
  cases call with
  | store pair mode => exact ⟨_, h.stayed_store pair mode⟩
  | delete key => exact ⟨_, h.stayed_delete key⟩
  | fetch | contains | countBits => exact ⟨[], hlooked rfl⟩
  | firstKey =>
    obtain ⟨session', hrun, -, hscanned, -⟩ := h.firstKey
    rw [step_ok (run_map_ok _ hrun)]
    exact ⟨[], hscans hscanned⟩
  | nextKey =>
    obtain ⟨session', hrun, -, hscanned, -⟩ := h.nextKey
    rw [step_ok (run_map_ok _ hrun)]
    exact ⟨[], hscans hscanned⟩
  | keys limit =>
    obtain ⟨session', hrun, -, hscanned⟩ := run_keys h limit
    rw [step_ok (run_map_ok _ hrun)]
    exact ⟨[], hscans hscanned⟩
  | sync directory pages =>
    rw [step_sync]
    cases directory.or pages with
    | none => exact ⟨[], session.stayed_refl []⟩
    | some cause => exact ⟨[], session.stayed_refl []⟩
  | clearError => exact ⟨[], session.stayed_refl []⟩

end Sound

def Vacant (session : Session) : Prop :=
  ∀ number, ¬ IsPage session.table.isSplit number → session.diskPage number = Page.empty

theorem Stayed.vacant {session session' : Session} {hash : UInt32} {depth : Nat}
    (h : session.Stayed hash depth session') (hleaf : IsLeaf session.table.isSplit hash depth)
    (hvacant : session.Vacant) : session'.Vacant := by
  obtain ⟨count, hdepth, hpage, hbit, -⟩ := h
  intro number hnone
  rw [hpage number fun hmem => hnone (hleaf.isPage_footprint hdepth hbit hmem)]
  exact hvacant number fun hsome => hnone (hsome.mono fun i hset => (hbit i).mpr (Or.inl hset))

theorem Sound.vacant_step {session : Session} (h : session.Sound) (hvacant : session.Vacant)
    (call : Call) : (session.step call).2.Vacant := by
  obtain ⟨key, hstayed⟩ := h.stayed_step call
  exact hstayed.vacant (session.table.isLeaf key) hvacant

end PageTrie.Session
