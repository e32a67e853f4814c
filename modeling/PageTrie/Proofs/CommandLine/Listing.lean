import PageTrie.CommandLine.Run
import PageTrie.Proofs.Session.Pass

/-! The commands that go through all keys, on files of any contents. Listing the keys prints as
it goes; the dump and the statistics take the whole pass first, so a block that stops the pass
stops them before anything is printed. -/
namespace PageTrie

namespace CommandLine

open Session

/-- The report of a command that printed a text and then ended, in a failure or well. -/
def Report.closing (out : String) : Option StoreError → Report
  | none => success out
  | some cause => failure out cause.message

def closingPass (ending : Option StoreError) (report : Report) : Report :=
  match ending with
  | none => report
  | some cause => .failure "" cause.message

def pairLine (key value : Bytes) : String := LossyUtf8.decode key ++ "\t" ++ line value

def pairLines (value? : Bytes → Option Bytes) (keys : List Bytes) : String :=
  String.join (keys.filterMap fun key => (value? key).map (pairLine key))

def refusal (keys : List Bytes) : Option StoreError :=
  if keys.any (·.isEmpty) then some (.invalidArgument "empty key") else none

/-- What a dump of these keys reports, given the values that they have. It ends at an empty key,
with the lines of the keys before it printed. -/
def dumped (value? : Bytes → Option Bytes) (keys : List Bytes) : Report :=
  if keys.any (·.isEmpty) then
    .failure (pairLines value? (keys.takeWhile fun key => !key.isEmpty))
      (StoreError.invalidArgument "empty key").message
  else .success (pairLines value? keys)

def tallied (session : Session) (pairs : Nat) : Except StoreError Nat → Report
  | .ok bits => .success (statistics session pairs bits)
  | .error cause =>
    .failure (s!"pairs:          {pairs}\n" ++ s!"pages:          {session.pagesInFile}\n")
      cause.message

theorem passItems_cons (ending : Option StoreError) (key : Bytes) (keys : List Bytes) :
    passItems ending (key :: keys) = .ok key :: passItems ending keys := rfl

theorem printKeys_passItems (out : String) (ending : Option StoreError) (keys : List Bytes) :
    printKeys out (passItems ending keys) =
      .closing (out ++ String.join (keys.map line)) ending := by
  induction keys generalizing out with
  | nil =>
    rw [List.map_nil, String.join_nil, String.append_empty]
    cases ending <;> rfl
  | cons key keys ih =>
    rw [passItems_cons, printKeys, ih, List.map_cons, String.join_cons, String.append_assoc]

theorem mapM_passItems (ending : Option StoreError) (keys : List Bytes) :
    (passItems ending keys).mapM id =
      match ending with
      | none => .ok keys
      | some cause => .error cause := by
  induction keys with
  | nil => cases ending <;> rfl
  | cons key keys ih =>
    rw [passItems_cons, List.mapM_cons, ih]
    cases ending <;> rfl

theorem pairLines_cons (value? : Bytes → Option Bytes) (key : Bytes) (keys : List Bytes) :
    pairLines value? (key :: keys) =
      ((value? key).map (pairLine key)).getD "" ++ pairLines value? keys := by
  unfold pairLines
  rw [List.filterMap_cons]
  cases value? key with
  | none => exact String.empty_append.symm
  | some value => exact String.join_cons

theorem dumped_eq (value? : Bytes → Option Bytes) (keys : List Bytes) :
    dumped value? keys =
      .closing (pairLines value? (keys.takeWhile fun key => !key.isEmpty)) (refusal keys) := by
  unfold dumped refusal
  split
  · rfl
  · next hnone =>
    have hkeys : keys.takeWhile (fun key => !key.isEmpty) = keys := by
      rw [List.takeWhile_eq_self_iff]
      intro key hkey
      rw [List.any_eq_true, not_exists] at hnone
      simpa using fun hempty => hnone key ⟨hkey, hempty⟩
    rw [hkeys]
    rfl

theorem tallied_of_peeks {session session' : Session} (h : session.Peeks session') (pairs : Nat)
    (census : Except StoreError Nat) :
    tallied session' pairs census = tallied session pairs census := by
  have hconfig : session'.config = session.config := congrArg (fun session => session.config) h
  unfold tallied statistics
  rw [hconfig, h.pagesInFile_eq]

section Faithful

variable {session : Session} {count : Nat} {ending : Option StoreError}

theorem printPairs_eq (h : session.Faithful)
    (hall : ∀ number < session.pagesInFile, Readable session.diskPage number) (out : String)
    (keys : List Bytes) :
    (printPairs out session keys).1 =
      .closing (out ++ pairLines session.find? (keys.takeWhile fun key => !key.isEmpty))
        (refusal keys) := by
  induction keys generalizing out session with
  | nil =>
    change Report.success out = .success (out ++ "")
    rw [String.append_empty]
  | cons key keys ih =>
    cases hkey : key.isEmpty with
    | true =>
      rw [List.isEmpty_iff] at hkey
      subst hkey
      change Report.failure out _ = .failure (out ++ "") _
      rw [String.append_empty]
    | false =>
      obtain ⟨session', hrun, hpeeks, hfaithful⟩ :=
        h.fetch hall (List.isEmpty_eq_false_iff.mp hkey)
      have hrest := @ih session' hfaithful (hpeeks.all_readable hall)
      have hrefusal : refusal (key :: keys) = refusal keys := by
        rw [refusal, List.any_cons, hkey, Bool.false_or, refusal]
      rw [hpeeks.find?_eq] at hrest
      rw [List.takeWhile_cons_of_pos (by rw [hkey]; rfl), pairLines_cons, hrefusal, printPairs,
        hrun]
      cases session.find? key with
      | none =>
        change (printPairs out session' keys).1 = .closing (out ++ ("" ++ _)) _
        rw [hrest, String.empty_append]
      | some value =>
        dsimp only
        rw [hrest, Option.map_some, Option.getD_some, pairLine]
        simp only [String.append_assoc]

theorem keys_eq (h : session.Faithful)
    (hsweeps : Sweeps session.diskPage session.pagesInFile count ending) :
    (keys session).1 =
      .closing (String.join ((keysBetween session.diskPage 0 count).map line)) ending := by
  obtain ⟨session', hpass, -⟩ := h.allKeys hsweeps
  rw [keys, hpass]
  dsimp only
  rw [printKeys_passItems, String.empty_append]

theorem dump_eq (h : session.Faithful)
    (hsweeps : Sweeps session.diskPage session.pagesInFile count ending) :
    (dump session).1 =
      closingPass ending (dumped session.find? (keysBetween session.diskPage 0 count)) := by
  obtain ⟨session', hpass, hpeeks, hfaithful⟩ := h.allKeys hsweeps
  rw [dump, hpass]
  dsimp only
  rw [mapM_passItems]
  cases hsweeps with
  | through before =>
    dsimp only
    rw [printPairs_eq hfaithful (hpeeks.all_readable before), hpeeks.find?_eq, String.empty_append,
      closingPass, dumped_eq]
  | corrupt => rfl
  | beyond => rfl

/-- The statistics need the census of the directory behind the pass. -/
theorem stat_eq (h : session.Faithful)
    (hsweeps : Sweeps session.diskPage session.pagesInFile count ending) :
    (stat session).1 = closingPass ending
      (tallied session (keysBetween session.diskPage 0 count).length session.census) := by
  obtain ⟨scanned, hpass, hpeeks, hfaithful⟩ := h.allKeys hsweeps
  obtain ⟨counted, hcount, hcounted⟩ := hfaithful.countBits
  rw [stat, hpass]
  dsimp only
  rw [mapM_passItems]
  cases hsweeps with
  | through before =>
    rw [hcount, hpeeks.census_eq, closingPass, ← tallied_of_peeks (hpeeks.trans hcounted)]
    cases session.census <;> rfl
  | corrupt => rfl
  | beyond => rfl

end Faithful

end CommandLine

end PageTrie
