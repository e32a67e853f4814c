import PageTrie.Proofs.CacheTransparency
import PageTrie.Proofs.Directory.FailedSet
import PageTrie.Proofs.FaultFreedom

/-! Finding the page of a hash is the plain walk of the trie in the directory file, whatever the
file holds. Though the number of a page does not tell the depth of its leaf, no two leaves share
a page. -/
namespace PageTrie

namespace TrieNode

/-- The depths at which the way of a hash comes to a node that is not split, or to the end of the
hash. -/
def stops (isSplit : Nat → Bool) (h : UInt32) : Set Nat :=
  {depth | depth ≤ hashWidth ∧ (depth = hashWidth ∨ isSplit (onPath h depth).number = false)}

theorem IsLeaf.isLeast {isSplit : Nat → Bool} {h : UInt32} {depth : Nat}
    (hleaf : IsLeaf isSplit h depth) : IsLeast (stops isSplit h) depth := by
  refine ⟨⟨hleaf.depth_le, ?_⟩, ?_⟩
  · obtain hlt | heq := Nat.lt_or_eq_of_le hleaf.depth_le
    · exact Or.inr (hleaf.stop hlt)
    · exact Or.inl heq
  · rintro d ⟨-, hstop⟩
    by_contra hlt
    have habove := hleaf.above d (by omega)
    obtain rfl | hclear := hstop
    · exact hlt hleaf.depth_le
    · rw [habove] at hclear
      cases hclear

theorem leaf_eq_iff (isSplit : Nat → Bool) (h h' : UInt32) :
    leaf isSplit h = leaf isSplit h' ↔ Agree (leaf isSplit h).depth h h' := by
  constructor
  · intro hleaf
    have hnumber := congrArg number hleaf
    rw [leaf_eq_onPath isSplit h, leaf_eq_onPath isSplit h'] at hnumber
    exact (number_onPath_inj.mp hnumber).2
  · intro agree
    have hdepth := ((isLeaf_depth isSplit h).congr agree).depth_eq
    rw [leaf_eq_onPath isSplit h', hdepth, ← onPath_congr agree, ← leaf_eq_onPath]

theorem page_leaf_inj (isSplit : Nat → Bool) (h h' : UInt32) :
    (leaf isSplit h).page h = (leaf isSplit h').page h' ↔ leaf isSplit h = leaf isSplit h' :=
  (page_leaf_eq_iff isSplit h h').trans (leaf_eq_iff isSplit h h').symm

end TrieNode

namespace Session

/-- The walk of a hash ends at a node, and the page under the node's number for the hash is the
one that is then in memory, or the one that is found corrupt. -/
structure Locates (session : Session) (h : UInt32) (node : TrieNode) : Prop where
  stops : ∃ session', (descend h .root hashWidth).run session = .ok node session'
  page : Ends
    (fun found session' => found.1 = node ∧ session'.cached = some (node.page h, found.2))
    (fun cause _ => cause = .corruptPage (node.page h)) ((leafFor h).run session)

variable {session : Session} {h : UInt32} {node : TrieNode}

theorem Locates.unique {node' : TrieNode} (hnode : session.Locates h node)
    (hnode' : session.Locates h node') : node = node' := by
  obtain ⟨_, hrun⟩ := hnode.stops
  obtain ⟨_, hrun'⟩ := hnode'.stops
  rw [hrun] at hrun'
  exact (EStateM.Result.ok.inj hrun').1

theorem ends_pageAt (hpages : session.pages.IsRegular) {number : Nat}
    (hreach : session.pages.Reaches (number * pageSize) pageSize) :
    Ends (fun page session' => session'.cached = some (number, page))
      (fun cause _ => cause = .corruptPage number) ((pageAt number).run session) := by
  rw [EStateM.run, pageAt]
  cases hcase : session.cached? number with
  | some page => exact .ok (cached?_eq_some_iff.mp hcase)
  | none =>
    cases hread : session.pageOnDisk number with
    | ok page => exact .ok rfl
    | error cause => exact .error (eq_corruptPage_of_pageOnDisk hpages hreach hread)

theorem locates_leafOf (hcoherent : session.directory.Coherent)
    (hspan : storeSpan ≤ session.directory.file.extent) (hpages : session.pages.IsRegular)
    (hspan' : storeSpan ≤ session.pages.extent) (h : UInt32) :
    session.Locates h (session.leafOf h) := by
  obtain ⟨block, hwalk, -⟩ := run_descend_root hcoherent hspan h
  refine ⟨⟨_, hwalk⟩, ?_⟩
  unfold Session.leafFor
  rw [run_bind_ok hwalk]
  have hpage := @ends_pageAt (session.recalling block session.cached) hpages _
    (reachesPage hspan' (session.page_leafOf_lt h))
  apply hpage.bind
  intro page session' hkept
  exact .ok ⟨rfl, hkept⟩

/-- Take a directory file of any contents whose bits can be counted in 64 bits, and any run of
calls on it in which no write fails. Then the page of every hash is found by the plain walk over
the bits of the file, two hashes come to one page exactly when they come to one leaf, and nodes
under other prefixes have other numbers. -/
theorem locates_plainly {file : OpenFile} (hregular : file.IsRegular)
    (hspan : storeSpan ≤ file.limit) (hlength : file.length * 8 < counterRange)
    {calls : List DirectoryCall} (hcalls : ∀ call ∈ calls, call.SetsNode)
    (hwrites : (Directory.ofFile file).Unfailing calls) {session : Session}
    (hdirectory : session.directory = (Directory.ofFile file).run calls)
    (hpages : session.pages.IsRegular) (hspan' : storeSpan ≤ session.pages.limit) :
    (∀ h, ∃ depth, IsLeast (TrieNode.stops session.directory.file.bit h) depth ∧
        session.Locates h (TrieNode.onPath h depth) ∧
        (TrieNode.onPath h depth).page h = (h &&& lowMask depth).toNat) ∧
      (∀ h h' node node', session.Locates h node → session.Locates h' node' →
        (node.page h = node'.page h' ↔ node = node')) ∧
      ∀ h h' depth depth', (TrieNode.onPath h depth).number = (TrieNode.onPath h' depth').number ↔
        depth = depth' ∧ Agree depth h h' := by
  have hopened := Directory.fresh_ofFile hregular
  have hadmits := (hopened.unfailing_iff calls).mp hwrites
  obtain ⟨hfresh, hsame⟩ := hopened.run hadmits
  have hextent : storeSpan ≤ ((Directory.ofFile file).run calls).file.extent := by
    rw [hsame.extent_eq]
    exact hspan.trans file.limit_le_extent
  have hcounted := (Directory.counted_ofFile hlength).run hopened hadmits hcalls
  rw [← hdirectory] at hfresh hcounted hextent
  have hlocates := locates_leafOf hfresh.toCoherent hextent hpages
    (hspan'.trans session.pages.limit_le_extent)
  have hleafOf (h : UInt32) :
      session.leafOf h = TrieNode.leaf session.directory.file.bit h := by
    rw [leafOf, hcounted.bounded.sees_eq]
  refine ⟨fun h => ?_, fun h h' node node' hnode hnode' => ?_,
    fun h h' depth depth' => TrieNode.number_onPath_inj⟩
  · have hleast := (TrieNode.isLeaf_depth session.directory.file.bit h).isLeast
    refine ⟨_, hleast, ?_, ?_⟩
    · rw [← TrieNode.leaf_eq_onPath, ← hleafOf]
      exact hlocates h
    · rw [TrieNode.page, TrieNode.depth_onPath]
  · rw [hnode.unique (hlocates h), hnode'.unique (hlocates h'), hleafOf, hleafOf]
    exact TrieNode.page_leaf_inj _ h h'

def strayCalls : List DirectoryCall := [.test 70000, .set 0, .set 40000, .count, .test 1]

def strayFile : OpenFile := FileSystem.ofNumberedBlocks.file 1 .readWrite (.regular strayDirectory)

def strayWalk : Session :=
  { onFiles .ofNumberedBlocks {} 1 2 strayDirectory brokenPages with
    directory := (Directory.ofFile strayFile).run strayCalls }

theorem locates_plainly_stray :
    (∀ call ∈ strayCalls, call.SetsNode) ∧ (Directory.ofFile strayFile).Unfailing strayCalls ∧
      ∃ depth, IsLeast (TrieNode.stops strayWalk.directory.file.bit 0) depth ∧
        strayWalk.Locates 0 (TrieNode.onPath 0 depth) := by
  have hregular : strayFile.IsRegular := ⟨strayDirectory, rfl⟩
  have hcalls : ∀ call ∈ strayCalls, call.SetsNode := by decide
  have hadmits : ∀ call ∈ strayCalls, strayFile.Admits call := by
    have hset (bit : Nat) (hbit : bit < 0x100000000) : strayFile.Admits (.set bit) := fun _ =>
      (OpenFile.isAmple_file _ _ _ _).refusal_eq_none hregular rfl (BitPlace.block_end_le hbit)
    simp only [strayCalls, List.forall_mem_cons]
    exact ⟨trivial, hset 0 (by decide), hset 40000 (by decide), trivial, trivial, by simp⟩
  have hwrites := ((Directory.fresh_ofFile hregular).unfailing_iff strayCalls).mpr hadmits
  have hdirectory : strayWalk.directory = (Directory.ofFile strayFile).run strayCalls := by
    rw [strayWalk]
  have hpages : strayWalk.pages.IsRegular := ⟨brokenPages, rfl⟩
  obtain ⟨hwalk, -, -⟩ := locates_plainly hregular (FileSystem.storeSpan_le _) (by decide) hcalls
    hwrites hdirectory hpages (FileSystem.storeSpan_le _)
  obtain ⟨depth, hleast, hlocates, -⟩ := hwalk 0
  exact ⟨hcalls, hwrites, depth, hleast, hlocates⟩

def stopOf (session : Session) (h : UInt32) : Option TrieNode :=
  match (descend h .root hashWidth).run session with
  | .ok node _ => some node
  | .error _ _ => none

def afterFailedSet : Session :=
  { start {} Directory.sealedFile Directory.sealedFile with
    directory := (Directory.ofFile Directory.sealedFile).run [.set 0] }

/-- A directory of `2 ^ 61` bytes with the root split, whose bits 64 bits cannot count. -/
def wrappedDirectory : SparseFile := (SparseFile.ofBytes [1]).resize (2 ^ 61)

def onWrapped : Session := onFiles .ofNumberedBlocks {} 1 2 wrappedDirectory .empty

/-- After a set that failed the walk goes past a root that the file has not split, and in a file
whose bits cannot be counted it stops at a root that is split. -/
theorem walk_astray :
    afterFailedSet.directory.file.bit 0 = false ∧
      afterFailedSet.stopOf 0 = some (TrieNode.onPath 0 1) ∧
      onWrapped.directory.file.bit 0 = true ∧
      onWrapped.stopOf 0 = some (TrieNode.onPath 0 0) := by decide +kernel

end Session

end PageTrie
