import PageTrie.Proofs.Session.Frame
import PageTrie.Proofs.Storage.Extension
import PageTrie.Proofs.StoreOutcome

/-! Splits overwrite pages without reading them. A page that a split puts above a leaf's own is
the page of no leaf till then and was never written, so storing a pair loses no other pair. -/
namespace PageTrie

open TrieNode

namespace Host

section Serves

variable {host : Host} {slot : Nat} {session : Session}

theorem vacant_of_length (hlength : session.pages.length = 0) : session.Vacant := by
  intro number _
  rw [Session.diskPage, OpenFile.window_of_length_le (by omega), Page.empty]

theorem Serves.vacant_reopened (h : host.Serves slot session) (hvacant : session.Vacant)
    {config : Config} (hpath : config.path = session.config.path) :
    ∃ session', (host.openSlot slot config).2.Serves slot session' ∧ session'.config = config ∧
      session'.Vacant := by
  obtain ⟨-, session', hserves, hconfig, htable, hlength⟩ := h.reopen hpath
  refine ⟨session', hserves, hconfig, ?_⟩
  by_cases hmode : config.mode = .truncate
  · exact vacant_of_length (hlength hmode).2
  · have hvolume : (host.openSlot slot config).2.volume = host.volume := by
      rw [openSlot_eq (h.opens hpath)]
      exact startVolume_of_ne hmode
    have hinode : session'.pages.inode = session.pages.inode := by
      have hleads := hserves.pages_leads
      rw [hvolume, hconfig, Config.pagePath, hpath] at hleads
      exact hleads.unique h.pages_leads
    have hpages : session'.pages.content = session.pages.content := by
      rw [hserves.content_eq.2, h.content_eq.2, hvolume, hinode]
    rw [if_neg hmode] at htable
    intro number hnone
    rw [htable] at hnone
    rw [← hvacant number hnone]
    exact congrArg Page.mk (OpenFile.window_congr hpages _ _)

end Serves

theorem Reached.vacant {host : Host} {slot : Nat} {path : String} (h : Reached slot path host) :
    ∃ session, host.Serves slot session ∧ session.config.path = path ∧ session.Vacant := by
  induction h with
  | fresh hfresh hpath hopened =>
    obtain ⟨session, hserves, hconfig, -, -, hlength⟩ := hfresh.serves_blank hopened
    exact ⟨session, hserves, by rw [hconfig, hpath], vacant_of_length hlength⟩
  | move reached move keeps ih =>
    obtain ⟨session, hserves, rfl, hvacant⟩ := ih
    cases move with
    | call call =>
      have hconfig := (hserves.sound.effect call).alike.config
      exact ⟨_, (hserves.call call).2, by rw [hconfig], hserves.sound.vacant_step hvacant call⟩
    | reopen config =>
      obtain ⟨session', hserves', hconfig, hvacant'⟩ := hserves.vacant_reopened hvacant keeps
      exact ⟨session', hserves', by rw [hconfig]; exact keeps, hvacant'⟩

end Host

/-- Where only the pages of a footprint change, and those above the leaf's own had no pairs, the
footprint ends up with the pairs that the leaf had. -/
theorem Table.Sound.footprint_perm {table table' : Table} (h : table.Sound) (h' : table'.Sound)
    {key : Bytes} {count : Nat}
    (hkept : ∀ number, number ∉ footprint (keyHash key) (table.depthOf key) count →
      table'.pairs number = table.pairs number)
    (hempty : ∀ number ∈ siblings (keyHash key) (table.depthOf key) count,
      table.pairs number = [])
    (hlookup : ∀ other, other ≠ key → table'.lookup other = table.lookup other) :
    ((footprint (keyHash key) (table.depthOf key) count).flatMap fun number =>
        (table'.pairs number).filter fun pair => pair.key != key).Perm
      ((table.bucket key).filter fun pair => pair.key != key) := by
  have hholds {pair : Pair} (hkey : pair.key ≠ key) : table'.Holds pair ↔ table.Holds pair := by
    have hfound := h.lookup_eq_some_iff pair.key pair.value
    rw [← hlookup pair.key hkey, h'.lookup_eq_some_iff] at hfound
    exact hfound
  have hpage := table.pageOf_eq_mod key
  rw [List.perm_ext_iff_of_nodup]
  · intro pair
    simp only [List.mem_flatMap, List.mem_filter, bne_iff_ne]
    constructor
    · rintro ⟨number, hnumber, hpair, hkey⟩
      refine ⟨?_, hkey⟩
      obtain ⟨before, hbefore⟩ := (hholds hkey).mp ⟨number, hpair⟩
      by_cases hmem : before ∈ footprint (keyHash key) (table.depthOf key) count
      · obtain rfl | hsibling := List.mem_cons.mp hmem
        · rwa [Table.bucket, hpage]
        · rw [hempty before hsibling] at hbefore
          cases hbefore
      · have hafter := (h'.placed before pair (hkept before hmem ▸ hbefore)).2
        rw [(h'.placed number pair hpair).2] at hafter
        exact absurd (hafter ▸ hnumber) hmem
    · rintro ⟨hpair, hkey⟩
      obtain ⟨number, hafter⟩ := (hholds hkey).mpr ⟨_, hpair⟩
      refine ⟨number, ?_, hafter, hkey⟩
      by_contra hmem
      have hbefore := (h.placed number pair (hkept number hmem ▸ hafter)).2
      rw [(h.placed _ pair hpair).2, hpage] at hbefore
      exact hmem (hbefore ▸ List.mem_cons_self)
  · rw [List.nodup_flatMap]
    refine ⟨fun number _ => ((h'.distinct number).of_map).filter _, ?_⟩
    apply (nodup_footprint _ _ _).imp
    intro number number' hne pair hpair hpair'
    have hplaced := (h'.placed number pair (List.mem_filter.mp hpair).1).2
    rw [(h'.placed number' pair (List.mem_filter.mp hpair').1).2] at hplaced
    exact hne hplaced.symm
  · exact ((h.distinct _).of_map).filter _

/-- What storing a pair of a key does to the files, where it splits `count` leaves. -/
structure StoreFrame (key : Bytes) (count : Nat) (directory pages directory' pages' : SparseFile) :
    Prop where
  gains : (Table.ofFiles directory pages).Gains (Table.ofFiles directory' pages') (keyHash key)
    ((Table.ofFiles directory pages).depthOf key) count
  /-- No byte changes but on the page of the leaf and on those put above it. -/
  kept : ∀ i, i / pageSize ∉ footprint (keyHash key)
      ((Table.ofFiles directory pages).depthOf key) count → pages'.byte i = pages.byte i
  size_le : pages.size ≤ pages'.size
  zero : ∀ number ∈ siblings (keyHash key) ((Table.ofFiles directory pages).depthOf key) count,
    ∀ i, i / pageSize = number → pages.byte i = 0
  unowned : ∀ number ∈ siblings (keyHash key)
      ((Table.ofFiles directory pages).depthOf key) count,
    ∀ hash, (leaf directory.bit hash).page hash ≠ number
  /-- All these pages together have the pairs that the page of the leaf had, but for the key. -/
  pairs_perm : ((footprint (keyHash key) ((Table.ofFiles directory pages).depthOf key) count).flatMap
      fun number => (pages'.page number).toList.filter fun pair => pair.key != key).Perm
    ((pages.page ((leaf directory.bit (keyHash key)).page (keyHash key))).toList.filter
      fun pair => pair.key != key)

namespace SparseFile

theorem byte_page (file : SparseFile) (i : Nat) :
    Buffer.byte (file.page (i / pageSize)).bytes (i % pageSize) = file.byte i := by
  have hlt := Nat.mod_lt i (show 0 < pageSize by decide)
  rw [page, ofBytes_read, Buffer.byte, dif_pos hlt, Vector.getElem_ofFn, Nat.div_add_mod']

theorem byte_eq_of_page_eq {file file' : SparseFile} {i : Nat}
    (hpage : file.page (i / pageSize) = file'.page (i / pageSize)) : file.byte i = file'.byte i := by
  rw [← byte_page, hpage, byte_page]

theorem byte_eq_zero_of_page_eq {file : SparseFile} {i : Nat}
    (hpage : file.page (i / pageSize) = Page.empty) : file.byte i = 0 := by
  rw [← byte_page, hpage]
  exact Buffer.byte_zeros _ _

end SparseFile

theorem Call.Turns.lookup_of_ne {pair : Pair} {mode : PutMode} {result : Except StoreError Reply}
    {map map' : Bytes → Option Bytes} (h : (Call.store pair mode).Turns result map map')
    {key : Bytes} (hkey : key ≠ pair.key) : map' key = map key := by
  unfold Call.Turns at h
  dsimp only at h
  split at h
  · rw [h, Function.update_of_ne hkey]
  · obtain h | ⟨-, h⟩ := h
    · rw [h]
    · rw [h, Function.update_of_ne hkey]
  · rw [h]

namespace Session

theorem Stayed.storeFrame {session session' : Session} {key : Bytes}
    (h : session.Stayed (keyHash key) (session.table.depthOf key) session')
    (hsound : session.Sound) (hsound' : session'.Sound) (hvacant : session.Vacant)
    (hlookup : ∀ other, other ≠ key → session'.table.lookup other = session.table.lookup other)
    {directory pages directory' pages' : SparseFile}
    (hdirectory : session.directory.file.content = .regular directory)
    (hpages : session.pages.content = .regular pages)
    (hdirectory' : session'.directory.file.content = .regular directory')
    (hpages' : session'.pages.content = .regular pages') :
    ∃ count, StoreFrame key count directory pages directory' pages' := by
  obtain ⟨count, hdepth, hpage, hbit, hlength⟩ := h
  have hleaf := session.table.isLeaf key
  have hempty : ∀ number ∈ siblings (keyHash key) (session.table.depthOf key) count,
      session.diskPage number = Page.empty :=
    fun number hnumber => hvacant number (hleaf.not_isPage hnumber)
  have hperm := hsound.table.footprint_perm hsound'.table
    (fun number hout => congrArg Page.toList (hpage number hout))
    (fun number hnumber => (congrArg Page.toList (hempty number hnumber)).trans Page.toList_empty)
    hlookup
  have hold := page_eq_diskPage hpages
  have hnew := page_eq_diskPage hpages'
  have htable := ofFiles_eq hdirectory hpages
  have htable' := ofFiles_eq hdirectory' hpages'
  refine ⟨count, ?_, ?_, ?_, ?_, ?_, ?_⟩
  · rw [htable, htable']
    exact ⟨hbit, hleaf.isSplit_stretch hsound.table.closed hdepth, card_stretch _ _ _⟩
  · intro i hout
    rw [htable] at hout
    apply SparseFile.byte_eq_of_page_eq
    rw [hold, hnew, hpage _ hout]
  · rwa [OpenFile.length, hpages, OpenFile.length, hpages'] at hlength
  · rintro number hnumber i rfl
    rw [htable] at hnumber
    apply SparseFile.byte_eq_zero_of_page_eq
    rw [hold, hempty _ hnumber]
  · intro number hnumber hash heq
    rw [htable] at hnumber
    rw [bit_eq_isSplit hdirectory] at heq
    exact hleaf.not_isPage hnumber ⟨hash, heq⟩
  · rw [htable, bit_eq_isSplit hdirectory]
    simp only [hold, hnew]
    exact hperm

end Session

namespace Host

/-- Storing a pair writes nowhere but on the page of its leaf and on the pages that its splits
put above that; these were blank and nobody's, and no other pair is lost or moved away. -/
theorem store_frame {host : Host} {slot : Nat} {path : String} (h : Reached slot path host)
    {directory pages : SparseFile} (hfiles : host.Files path directory pages) (pair : Pair)
    (mode : PutMode) :
    ∃ count directory' pages',
      (host.call slot (.store pair mode)).2.Files path directory' pages' ∧
      StoreFrame pair.key count directory pages directory' pages' := by
  obtain ⟨session, hserves, rfl, hvacant⟩ := h.vacant
  obtain ⟨-, hleft⟩ := hserves.call (.store pair mode)
  have heffect := hserves.sound.effect (.store pair mode)
  obtain ⟨directory₀, pages₀, hfiles₀, hdirectory, hpages⟩ := hserves.files
  obtain ⟨directory', pages', hfiles', hdirectory', hpages'⟩ := hleft.files
  obtain ⟨rfl, rfl⟩ := hfiles.unique hfiles₀
  rw [heffect.alike.config] at hfiles'
  obtain ⟨count, hframe⟩ := (hserves.sound.stayed_store pair mode).storeFrame hserves.sound
    heffect.sound hvacant (fun other => heffect.turns.lookup_of_ne) hdirectory hpages hdirectory'
    hpages'
  exact ⟨count, directory', pages', hfiles', hframe⟩

theorem store_frame_single : ∃ count directory pages directory' pages',
    single.Files "t" directory pages ∧
    (single.call 0 (.store (longPair [98]) .insert)).2.Files "t" directory' pages' ∧
    StoreFrame [98] count directory pages directory' pages' := by
  obtain ⟨directory, pages, hfiles⟩ : ∃ directory pages, single.Files "t" directory pages := by
    obtain ⟨session, hserves, hpath⟩ := reached_single.serves
    obtain ⟨directory, pages, hfiles, -⟩ := hserves.files
    exact ⟨directory, pages, hpath ▸ hfiles⟩
  obtain ⟨count, directory', pages', hfiles', hframe⟩ :=
    store_frame reached_single hfiles (longPair [98]) .insert
  exact ⟨count, directory, pages, directory', pages', hfiles, hfiles', hframe⟩

end Host

end PageTrie
