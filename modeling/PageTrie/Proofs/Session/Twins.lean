import PageTrie.Proofs.Session.Abreast

/-! Sessions that differ only in what is in memory. Between calls both are faithful; while a
pair is put on a page the page in memory is ahead of the file, but then it is the same page in
both, so they write the same. -/
namespace PageTrie.Session

/-- Two faithful sessions that differ at most in what is in memory. -/
structure Twins (session other : Session) : Prop where
  left : session.Faithful
  right : other.Faithful
  forgetting_eq : session.forgetting = other.forgetting

/-- What a session still has in common with the one that a call started from. -/
structure Evolves (origin session : Session) : Prop where
  alike : origin.Alike session
  bounded : origin.directory.Bounded → session.directory.Bounded
  length_le : origin.directory.file.length ≤ session.directory.file.length
  counted : origin.directory.file.length * 8 < counterRange →
    session.directory.file.length * 8 < counterRange

structure Settled (origin session other : Session) : Prop where
  twins : session.Twins other
  evolves : origin.Evolves session

/-- Two sessions in the middle of a change, with the same page in memory. -/
structure Ahead (origin session other : Session) : Prop where
  left : session.Ready
  right : other.Ready
  writable : session.config.isReadOnly = false
  cached_eq : session.cached = other.cached
  forgetting_eq : session.forgetting = other.forgetting
  evolves : origin.Evolves session

section Evolves

variable {origin session session' : Session}

theorem Evolves.refl (session : Session) : session.Evolves session := 
  ⟨.refl session, id, Nat.le_refl _, id⟩

theorem Evolves.trans (h : origin.Evolves session) (h' : session.Evolves session') :
    origin.Evolves session' :=
  ⟨h.alike.trans h'.alike, h'.bounded ∘ h.bounded, h.length_le.trans h'.length_le,
    h'.counted ∘ h.counted⟩

theorem Evolves.keeping (h : origin.Evolves session) (page : Option (Nat × Page)) :
    origin.Evolves (session.keeping page) := h.trans ⟨alike_keeping _ _, id, Nat.le_refl _, id⟩

theorem Evolves.wrote (h : origin.Evolves session) (number : Nat) (page : Page) :
    origin.Evolves (session.wrote number page) := 
  h.trans ⟨alike_wrote _ _ _, id, Nat.le_refl _, id⟩

theorem Evolves.flagged (h : origin.Evolves session) : origin.Evolves session.flagged :=
  h.trans ⟨⟨rfl, rfl, rfl, rfl, rfl⟩, id, Nat.le_refl _, id⟩

theorem Evolves.marked (h : origin.Evolves session) (hcoherent : session.directory.Coherent)
    {number : Nat} (hnumber : number < 0xffffffff) : origin.Evolves (session.marked number) := by
  apply h.trans
  have hlength : (session.marked number).directory.file.length = _ :=
    hcoherent.length_marked number
  refine ⟨alike_marked _ _, fun hbounded => hbounded.marked hcoherent ?_, ?_, fun hcounted => ?_⟩
  · change number + 32768 < 0x10000000000000000
    omega
  · rw [hlength]
    exact Nat.le_max_left _ _
  · change session.directory.file.length * 8 < 0x10000000000000000 at hcounted
    change _ = max _ ((number / 8 / 4096 + 1) * 4096) at hlength
    change (session.marked number).directory.file.length * 8 < 0x10000000000000000
    omega

theorem Peeks.evolves (h : session.Peeks session') : session.Evolves session' := by
  have hconfig : session'.config = session.config := congrArg (fun session => session.config) h
  have hfile : session'.directory.file = session.directory.file :=
    congrArg (fun session => session.directory.file) h
  have hbound : session'.directory.bound = session.directory.bound :=
    congrArg (fun session => session.directory.bound) h
  have hpages : session'.pages = session.pages := congrArg (fun session => session.pages) h
  refine ⟨⟨hconfig, by rw [hfile], by rw [hpages], by rw [hfile], by rw [hpages]⟩, ?_,
    by rw [hfile], by rw [hfile]; exact id⟩
  unfold Directory.Bounded
  rw [hfile, hbound]
  exact id

end Evolves

section Twins

variable {session other : Session} (h : session.Twins other)
include h

theorem Twins.config_eq : session.config = other.config :=
  congrArg (fun session => session.config) h.forgetting_eq

theorem Twins.failed_eq : session.failed = other.failed :=
  congrArg (fun session => session.failed) h.forgetting_eq

theorem Twins.scan_eq : session.scan = other.scan :=
  congrArg (fun session => session.scan) h.forgetting_eq

theorem Twins.abreast : session.Abreast other where
  left := h.left
  right := h.right
  sees_eq := congrArg (fun session => session.directory.sees) h.forgetting_eq
  directory_eq := congrArg (fun session => session.directory.file.content) h.forgetting_eq
  pages_eq := congrArg (fun session => session.pages.content) h.forgetting_eq
  limits_eq := ⟨congrArg (fun session => session.directory.file.limit) h.forgetting_eq,
    congrArg (fun session => session.pages.limit) h.forgetting_eq⟩

theorem Twins.looked {session' other' : Session}
    (hlooked : Looked session other session' other') : session'.Twins other' := by
  refine ⟨hlooked.abreast.left, hlooked.abreast.right, ?_⟩
  have hfailed := hlooked.failed_eq h.failed_eq
  have hleft : session'.forgetting = _ := hlooked.left
  have hright : other'.forgetting = _ := hlooked.right
  rw [hleft, hright, h.forgetting_eq, hfailed, hlooked.scan_eq h.scan_eq]

theorem Twins.flagged : session.flagged.Twins other.flagged where
  left := h.left.flagged
  right := h.right.flagged
  forgetting_eq := congrArg (fun session => session.flagged) h.forgetting_eq

theorem Twins.refl_settled : Settled session session other := ⟨h, .refl session⟩

end Twins

theorem Settled.flagged {origin session other : Session} (h : Settled origin session other) :
    Settled origin session.flagged other.flagged := ⟨h.twins.flagged, h.evolves.flagged⟩

structure Roomy (hash : UInt32) (need : Nat) (leaf : TrieNode) (page : Page) : Prop where
  inOrder : page.InOrder
  onPath : ∃ depth ≤ hashWidth, leaf = TrieNode.onPath hash depth
  hasRoom : page.hasRoom need = true

theorem Roomy.insert {pair : Pair} (hsize : pair.size ≤ pairLimit) {hash : UInt32}
    {leaf : TrieNode} {page : Page} (h : Roomy hash pair.size leaf page) :
    ∃ page', page.insert pair = .ok page' ∧ page'.InOrder := by
  have hneed : pair.size + 4 < counterRange := (Nat.add_le_add_right hsize 4).trans_lt (by decide)
  obtain ⟨page', hinsert, horder, -⟩ :=
    h.inOrder.insert ((h.inOrder.hasRoom_iff hneed).mp h.hasRoom)
  exact ⟨page', hinsert, horder⟩

section Ahead

variable {origin session other : Session} {Q : Session → Session → Prop}

theorem Ahead.writable_other (h : Ahead origin session other) : other.config.isReadOnly = false := by
  have hmode := congrArg (fun session => session.config.isReadOnly) h.forgetting_eq
  exact hmode.symm.trans h.writable

theorem Ahead.keep (h : Ahead origin session other) (number : Nat) (page : Page) :
    Matches (fun _ => Ahead origin) Q ((keep number page).run session)
      ((keep number page).run other) :=
  .ok ⟨h.left.keeping _, h.right.keeping _, h.writable, rfl, h.forgetting_eq,
    h.evolves.keeping _⟩

theorem Ahead.putPage (h : Ahead origin session other) {number : Nat}
    (hnumber : number < pageCountLimit)
    (page : Page) :
    Matches (fun _ => Ahead origin) Q ((putPage number page).run session)
      ((putPage number page).run other) := by
  rw [h.left.run_putPage h.writable hnumber, h.right.run_putPage h.writable_other hnumber]
  exact .ok ⟨h.left.wrote number page, h.right.wrote number page, h.writable, h.cached_eq,
    congrArg (·.wrote number page) h.forgetting_eq, h.evolves.wrote number page⟩

theorem Ahead.set (h : Ahead origin session other) {number : Nat} (hnumber : number < 0xffffffff) :
    Matches (fun _ => Ahead origin) Q ((onDirectory (Directory.set number)).run session)
      ((onDirectory (Directory.set number)).run other) := by
  rw [h.left.run_set h.writable hnumber, h.right.run_set h.writable_other hnumber]
  exact .ok ⟨h.left.marked number, h.right.marked number, h.writable, h.cached_eq,
    congrArg (fun session => (session.marked number).forgetting) h.forgetting_eq,
    h.evolves.marked h.left.coherent hnumber⟩

theorem Ahead.splitLeaf (h : Ahead origin session other) {page : Page} (horder : page.InOrder)
    (hash : UInt32) {depth : Nat} (hdepth : depth < hashWidth) :
    Matches (fun kept session' other' => Ahead origin session' other' ∧ kept.InOrder) Q
      ((splitLeaf hash (TrieNode.onPath hash depth) page).run session)
      ((splitLeaf hash (TrieNode.onPath hash depth) page).run other) := by
  obtain ⟨halves, kept, away, hdivide, hparts, hkept, -⟩ := divide_onPath horder hash hdepth
  have hnumber := TrieNode.number_onPath_lt hash hdepth
  have hsibling := TrieNode.siblingPage_onPath_lt hash hdepth
  unfold Session.splitLeaf
  rw [hdivide, run_bind_ok (run_ofResult_ok halves session),
    run_bind_ok (run_ofResult_ok halves other), TrieNode.depth_onPath, hparts]
  apply (h.putPage hsibling away).bind
  intro _ session other h
  apply (h.keep _ kept).bind
  intro _ session other h
  apply (h.set hnumber).bind
  intro _ session other h
  exact .ok ⟨h, hkept⟩

theorem Ahead.growWithin (h : Ahead origin session other) {page : Page} (horder : page.InOrder)
    (hash : UInt32) (need : Nat) {depth : Nat} (hdepth : depth ≤ hashWidth) (budget : Nat) :
    Matches (fun found session' other' =>
        Ahead origin session' other' ∧ Roomy hash need found.1 found.2)
      (Ahead origin)
      ((growWithin hash need (TrieNode.onPath hash depth) page budget).run session)
      ((growWithin hash need (TrieNode.onPath hash depth) page budget).run other) := by
  induction budget generalizing session other depth page with
  | zero => exact .error h
  | succ budget ih =>
    unfold Session.growWithin
    rw [TrieNode.depth_onPath]
    by_cases hend : depth = hashWidth
    · rw [if_pos hend]
      exact .error h
    · have hlt : depth < hashWidth := Nat.lt_of_le_of_ne hdepth hend
      rw [if_neg hend]
      dsimp only
      apply (h.splitLeaf horder hash hlt).bind
      rintro kept session other ⟨h, hkept⟩
      cases hroom : kept.hasRoom need with
      | true => exact .ok ⟨h, hkept, ⟨depth + 1, hlt, rfl⟩, hroom⟩
      | false =>
        rw [if_neg Bool.false_ne_true]
        apply (h.putPage (TrieNode.page_onPath_lt hash hash hlt) kept).bind
        intro _ session other h
        exact ih h hkept hlt

theorem Ahead.grow (h : Ahead origin session other) {page : Page} (horder : page.InOrder)
    (hash : UInt32) (need : Nat) {depth : Nat} (hdepth : depth ≤ hashWidth) :
    Matches (fun found session' other' =>
        Ahead origin session' other' ∧ Roomy hash need found.1 found.2)
      (Settled origin)
      ((grow hash need (TrieNode.onPath hash depth) page).run session)
      ((grow hash need (TrieNode.onPath hash depth) page).run other) := by
  have hgrown := h.growWithin horder hash need hdepth splitBudget
  rw [EStateM.run, EStateM.run, Session.grow, Session.grow]
  generalize (Session.growWithin hash need (TrieNode.onPath hash depth) page splitBudget).run
    session = result at hgrown
  generalize (Session.growWithin hash need (TrieNode.onPath hash depth) page splitBudget).run
    other = result' at hgrown
  cases hgrown with
  | ok done => exact .ok done
  | error h =>
    exact .error ⟨⟨(h.left.keeping none).faithful rfl, (h.right.keeping none).faithful rfl,
      h.forgetting_eq⟩, h.evolves.keeping none⟩

theorem Ready.faithful_wrote (h : session.Ready) {number : Nat} (hnumber : number < pageCountLimit)
    {page : Page} (horder : page.InOrder) :
    ((session.keeping (some (number, page))).wrote number page).Faithful := by
  have hready := (h.keeping (some (number, page))).wrote number page
  have hpage := (h.keeping (some (number, page))).diskPage_wrote number page number
  rw [if_pos rfl] at hpage
  apply hready.faithful_of_read rfl
  rw [pageOnDisk_eq hready.regular hready.ample.2.storeSpan_le_extent hnumber] <;> rw [hpage]
  exact horder

theorem Ahead.written (h : Ahead origin session other) {number : Nat}
    (hnumber : number < pageCountLimit)
    {page : Page} (horder : page.InOrder) :
    Settled origin ((session.keeping (some (number, page))).wrote number page)
      ((other.keeping (some (number, page))).wrote number page) where
  twins := ⟨h.left.faithful_wrote hnumber horder, h.right.faithful_wrote hnumber horder,
    congrArg (fun session => session.wrote number page) h.forgetting_eq⟩
  evolves := (h.evolves.keeping _).wrote number page

theorem Ahead.run_putPage_kept (h : Ahead origin session other) {number : Nat}
    (hnumber : number < pageCountLimit) (page : Page) :
    (Session.putPage number page).run (session.keeping (some (number, page))) =
        .ok () ((session.keeping (some (number, page))).wrote number page) ∧
      (Session.putPage number page).run (other.keeping (some (number, page))) =
        .ok () ((other.keeping (some (number, page))).wrote number page) :=
  ⟨(h.left.keeping (some (number, page))).run_putPage h.writable hnumber page,
    (h.right.keeping (some (number, page))).run_putPage h.writable_other hnumber page⟩

theorem Ahead.append (h : Ahead origin session other) {pair : Pair} (hsize : pair.size ≤ pairLimit)
    {leaf : TrieNode} {page : Page} (hroomy : Roomy (keyHash pair.key) pair.size leaf page) :
    Matches (fun _ => Settled origin) Q
      ((do
        let page ← ofResult (page.insert pair)
        Session.keep (leaf.page (keyHash pair.key)) page
        Session.putPage (leaf.page (keyHash pair.key)) page : SessionM Unit).run session)
      ((do
        let page ← ofResult (page.insert pair)
        Session.keep (leaf.page (keyHash pair.key)) page
        Session.putPage (leaf.page (keyHash pair.key)) page : SessionM Unit).run other) := by
  obtain ⟨page', hinsert, horder⟩ := hroomy.insert hsize
  obtain ⟨depth, hdepth, rfl⟩ := hroomy.onPath
  have hnumber := TrieNode.page_onPath_lt (keyHash pair.key) (keyHash pair.key) hdepth
  have hput := h.run_putPage_kept hnumber page'
  rw [hinsert, run_bind_ok (run_ofResult_ok page' session),
    run_bind_ok (run_ofResult_ok page' other), run_bind_ok (run_keep _ _ _),
    run_bind_ok (run_keep _ _ _), hput.1, hput.2]
  exact .ok (h.written hnumber horder)

theorem Ahead.place (h : Ahead origin session other) {page : Page} (horder : page.InOrder)
    {pair : Pair} (hsize : pair.size ≤ pairLimit) {depth : Nat} (hdepth : depth ≤ hashWidth) :
    Matches (fun _ => Settled origin) (Settled origin)
      ((place (keyHash pair.key) pair (TrieNode.onPath (keyHash pair.key) depth) page).run session)
      ((place (keyHash pair.key) pair (TrieNode.onPath (keyHash pair.key) depth) page).run
        other) := by
  unfold Session.place
  by_cases hroom : page.hasRoom pair.size = true
  · rw [if_pos hroom, run_bind_ok (EStateM.run_pure _ _), run_bind_ok (EStateM.run_pure _ _)]
    exact h.append hsize ⟨horder, ⟨depth, hdepth, rfl⟩, hroom⟩
  · rw [if_neg hroom]
    apply (h.grow horder (keyHash pair.key) pair.size hdepth).bind
    rintro ⟨leaf, page⟩ session other ⟨h, hroomy⟩
    exact h.append hsize hroomy

end Ahead

section Twins

variable {session other : Session}

theorem Twins.leafFor (h : session.Twins other) (hwritable : session.config.isReadOnly = false)
    (hash : UInt32) :
    Matches (fun found session' other' => Settled session session' other' ∧
        Ahead session session' other' ∧ Located hash found session' other') (Settled session)
      ((leafFor hash).run session) ((leafFor hash).run other) := by
  have hsettled {session' other' : Session} (hlooked : Looked session other session' other') :
      Settled session session' other' := ⟨h.looked hlooked, hlooked.left.evolves⟩
  apply (h.abreast.leafFor hash).mono
  · rintro found session' other' ⟨hlooked, hlocated⟩
    obtain ⟨htwins, hevolves⟩ := hsettled hlooked
    refine ⟨hsettled hlooked, ⟨htwins.left.ready, htwins.right.ready, ?_, hlocated.cached_eq,
      htwins.forgetting_eq, hevolves⟩, hlocated⟩
    rw [hevolves.alike.config, hwritable]
  · intro session' other' hlooked
    exact hsettled hlooked

theorem Twins.put (h : session.Twins other) (hwritable : session.config.isReadOnly = false)
    {pair : Pair} (hsize : pair.size ≤ pairLimit) (mode : PutMode) :
    Matches (fun _ => Settled session) (Settled session)
      ((put pair mode).run session) ((put pair mode).run other) := by
  unfold Session.put
  apply (h.leafFor hwritable (keyHash pair.key)).bind
  rintro ⟨leaf, page⟩ session' other' ⟨hsettled, hahead, hlocated⟩
  obtain ⟨depth, hdepth, rfl⟩ := hlocated.onPath
  cases mode with
  | insert =>
    dsimp only
    split
    · exact .ok hsettled
    · apply (hahead.place hlocated.inOrder hsize hdepth).bind
      intro _ session' other' hsettled
      exact .ok hsettled
  | replace =>
    have horder := hlocated.inOrder.erased pair.key
    dsimp only
    apply (hahead.keep _ _).bind
    intro _ session' other' hahead
    apply (hahead.place horder hsize hdepth).bind
    intro _ session' other' hsettled
    exact .ok hsettled

theorem Twins.erase (h : session.Twins other) (hwritable : session.config.isReadOnly = false)
    (key : Bytes) :
    Matches (fun _ => Settled session) (Settled session)
      ((erase key).run session) ((erase key).run other) := by
  unfold Session.erase
  apply (h.leafFor hwritable (keyHash key)).bind
  rintro ⟨leaf, page⟩ session' other' ⟨hsettled, hahead, hlocated⟩
  obtain ⟨depth, hdepth, rfl⟩ := hlocated.onPath
  dsimp only
  cases herase : page.erase? key with
  | none => exact .ok hsettled
  | some erased =>
    have hnumber := TrieNode.page_onPath_lt (keyHash key) (keyHash key) hdepth
    have hput := hahead.run_putPage_kept hnumber erased
    dsimp only
    rw [run_bind_ok (run_keep _ _ _), run_bind_ok (run_keep _ _ _), run_bind_ok hput.1,
      run_bind_ok hput.2]
    exact .ok (hahead.written hnumber (hlocated.inOrder.of_erase? herase))

theorem Twins.required (h : session.Twins other) (key : Bytes) {x : SessionM α}
    (hnext : session.config.isReadOnly = false →
      Matches (fun _ => Settled session) (Settled session) (x.run session) (x.run other)) :
    Matches (fun _ => Settled session) (Settled session)
      ((do requireKey key; requireWritable; x : SessionM α).run session)
      ((do requireKey key; requireWritable; x : SessionM α).run other) := by
  have hmode : session.config.isReadOnly = other.config.isReadOnly :=
    congrArg Config.isReadOnly h.config_eq
  rw [run_required, run_required, ← hmode]
  split_ifs with hkey hreadOnly
  · exact .error h.refl_settled
  · exact .error h.refl_settled
  · exact hnext (eq_false_of_ne_true hreadOnly)

theorem Twins.store (h : session.Twins other) (pair : Pair) (mode : PutMode) :
    Matches (fun _ => Settled session) (Settled session)
      ((store pair mode).run session) ((store pair mode).run other) := by
  apply h.required
  intro hwritable
  split
  · exact .error h.refl_settled
  · next hsize =>
    exact (h.put hwritable (Nat.le_of_not_lt hsize) mode).flagging fun _ _ => Settled.flagged

theorem Twins.delete (h : session.Twins other) (key : Bytes) :
    Matches (fun _ => Settled session) (Settled session)
      ((delete key).run session) ((delete key).run other) := by
  apply h.required
  intro hwritable
  exact (h.erase hwritable key).flagging fun _ _ => Settled.flagged

/-- What is in memory has no part in the answer to a call, nor in what the call leaves. -/
theorem Twins.step (h : session.Twins other) (call : Call) :
    (session.step call).1 = (other.step call).1 ∧
      Settled session (session.step call).2 (other.step call).2 := by
  cases hchange : call.isChange with
  | false =>
    have hstep := h.abreast.step hchange fun _ => h.scan_eq
    exact ⟨hstep.1, h.looked hstep.2, hstep.2.left.evolves⟩
  | true =>
    apply Matches.step
    cases call with
    | store pair mode => exact (h.store pair mode).map _
    | delete key => exact (h.delete key).map _
    | fetch | contains | firstKey | nextKey | keys | countBits | sync | clearError => cases hchange

end Twins

section Faithful

variable {session : Session}

theorem Faithful.twins (h : session.Faithful) : session.Twins session := ⟨h, h, rfl⟩

/-- A call keeps a session faithful, whether it succeeds or fails. -/
theorem Faithful.step (h : session.Faithful) (call : Call) :
    (session.step call).2.Faithful ∧ session.Evolves (session.step call).2 := by
  have hsettled := (h.twins.step call).2
  exact ⟨hsettled.twins.left, hsettled.evolves⟩

theorem run_required_readOnly (hreadOnly : session.config.isReadOnly = true) (key : Bytes)
    (x : SessionM α) :
    ∃ cause, (do requireKey key; requireWritable; x : SessionM α).run session =
      .error cause session := by
  rw [run_required, if_pos hreadOnly]
  split
  · exact ⟨_, rfl⟩
  · exact ⟨_, rfl⟩

theorem step_readOnly (hreadOnly : session.config.isReadOnly = true) {call : Call}
    (hchange : call.isChange = true) : (session.step call).2 = session := by
  cases call with
  | store pair mode =>
    obtain ⟨cause, hrun⟩ : ∃ cause, (store pair mode).run session = .error cause session :=
      run_required_readOnly hreadOnly pair.key _
    rw [step_error (run_map_error _ hrun)]
  | delete key =>
    obtain ⟨cause, hrun⟩ : ∃ cause, (delete key).run session = .error cause session :=
      run_required_readOnly hreadOnly key _
    rw [step_error (run_map_error _ hrun)]
  | fetch | contains | firstKey | nextKey | keys | countBits | sync | clearError => cases hchange

theorem Faithful.peeks_of_readOnly (h : session.Faithful)
    (hreadOnly : session.config.isReadOnly = true) (call : Call) :
    session.Peeks (session.step call).2 := by
  cases hchange : call.isChange with
  | false => exact (h.twins.abreast.step hchange fun _ => rfl).2.left
  | true =>
    rw [step_readOnly hreadOnly hchange]
    rfl

end Faithful

end PageTrie.Session
