import PageTrie.Proofs.Host.Reopening
import PageTrie.Proofs.Session.Refusal

/-! Runs of one store in one slot: calls and reopenings in any order, with nobody else at its
files. Whatever the order, the slot goes on serving a sound session. -/
namespace PageTrie

/-- What the one user of a store can do. Reopening closes the store first. -/
inductive Move where
  | call (call : Call)
  | reopen (config : Config)

namespace Move

def Keeps (path : String) : Move → Prop
  | .call _ => True
  | .reopen config => config.path = path

def truncates : Move → Bool
  | .call _ => false
  | .reopen config => config.mode = .truncate

def isStore : Move → Bool
  | .call request => request.isStore
  | .reopen _ => false

end Move

namespace Host

def after (host : Host) (slot : Nat) : Move → Host
  | .call call => (host.call slot call).2
  | .reopen config => (host.openSlot slot config).2

def afterMoves (host : Host) (slot : Nat) (moves : Nat → Move) : (count : Nat) → Host
  | 0 => host
  | count + 1 => (host.afterMoves slot moves count).after slot (moves count)

/-- Hosts that come about from a fresh store by moves on it. -/
inductive Reached (slot : Nat) (path : String) : Host → Prop
  | fresh {host : Host} {config : Config} (fresh : host.Fresh config) (path_eq : config.path = path)
      (opened : (host.openSlot slot config).1 = .ok ()) :
      Reached slot path (host.openSlot slot config).2
  | move {host : Host} (reached : Reached slot path host) (move : Move) (keeps : move.Keeps path) :
      Reached slot path (host.after slot move)

def newStore : Host := ((Host.empty .ofNumberedBlocks).openSlot 0 { path := "t" }).2

theorem reached_newStore : Reached 0 "t" newStore := .fresh (fresh_empty _ rfl) rfl rfl

def sample : Host := newStore.after 0 (.call (.store ⟨[107], [118]⟩ .insert))

theorem reached_sample : Reached 0 "t" sample := reached_newStore.move _ trivial

section Serves

variable {host : Host} {slot : Nat} {session : Session}

/-- What a move does to the session that is served. -/
structure Moved (host : Host) (slot : Nat) (session : Session) (move : Move) (session' : Session) :
    Prop where
  serves : (host.after slot move).Serves slot session'
  path_eq : session'.config.path = session.config.path
  truncated : move.truncates = true → session'.table = Table.empty ∧
    session'.directory.file.length = 0 ∧ session'.pages.length = 0
  grows : move.truncates = false →
    ∀ i, session.table.isSplit i = true → session'.table.isSplit i = true
  unsplit : move.truncates = false → move.isStore = false →
    session'.table.isSplit = session.table.isSplit

theorem Serves.after (h : host.Serves slot session) (move : Move)
    (hkeeps : move.Keeps session.config.path) :
    ∃ session', host.Moved slot session move session' := by
  cases move with
  | call call =>
    have heffect := h.sound.effect call
    exact ⟨_, (h.call call).2, by rw [heffect.alike.config], Bool.noConfusion,
      fun _ => heffect.grows, fun _ => heffect.unsplit⟩
  | reopen config =>
    obtain ⟨-, session', hserves, hconfig, htable, hlength⟩ := h.reopen hkeeps
    refine ⟨session', hserves, by rw [hconfig]; exact hkeeps, ?_, ?_, ?_⟩
    · intro hmode
      rw [htable, if_pos (of_decide_eq_true hmode)]
      exact ⟨rfl, hlength (of_decide_eq_true hmode)⟩
    · intro hmode i hset
      rw [htable, if_neg (of_decide_eq_false hmode)]
      exact hset
    · intro hmode _
      rw [htable, if_neg (of_decide_eq_false hmode)]

end Serves

theorem Reached.serves {host : Host} {slot : Nat} {path : String} (h : Reached slot path host) :
    ∃ session, host.Serves slot session ∧ session.config.path = path := by
  induction h with
  | fresh hfresh hpath hopened =>
    obtain ⟨session, hserves, hconfig, -⟩ := hfresh.serves hopened
    exact ⟨session, hserves, by rw [hconfig, hpath]⟩
  | move reached move keeps ih =>
    obtain ⟨session, hserves, rfl⟩ := ih
    obtain ⟨session', hmoved⟩ := hserves.after move keeps
    exact ⟨session', hmoved.serves, hmoved.path_eq⟩

def Bears (host : Host) (slot : Nat) (config : Config) (table : Table) : Prop :=
  ∃ session, host.Serves slot session ∧ session.config = config ∧ session.table = table

theorem bears_newStore : newStore.Bears 0 { path := "t" } Table.empty :=
  (fresh_empty _ rfl).serves rfl

def filled (host : Host) (slot : Nat) (takings : List (Pair × Nat)) : Host :=
  takings.foldl (fun host taking => host.after slot (.call (.store taking.1 .insert))) host

theorem Reached.filled {host : Host} {slot : Nat} {path : String} (h : Reached slot path host)
    (takings : List (Pair × Nat)) : Reached slot path (host.filled slot takings) := by
  induction takings generalizing host with
  | nil => exact h
  | cons taking takings ih => exact ih (h.move _ trivial)

theorem Bears.insert {host : Host} {slot : Nat} {config : Config} {table : Table}
    (h : host.Bears slot config table) (hwritable : config.isReadOnly = false) {pair : Pair}
    {count : Nat} (htakes : table.Takes pair count) :
    (host.after slot (.call (.store pair .insert))).Bears slot config
      (table.taking pair count) := by
  obtain ⟨session, hserves, rfl, rfl⟩ := h
  exact ⟨_, (hserves.call _).2, (hserves.sound.effect _).alike.config,
    hserves.sound.table_insert hwritable htakes⟩

theorem Bears.filled {host : Host} {slot : Nat} {config : Config} {table : Table}
    (h : host.Bears slot config table) (hwritable : config.isReadOnly = false)
    {takings : List (Pair × Nat)} (htakings : table.TakesAll takings) :
    (host.filled slot takings).Bears slot config (table.takingAll takings) := by
  induction takings generalizing host table with
  | nil => exact h
  | cons taking takings ih => exact ih (h.insert hwritable htakings.1) htakings.2

def longPair (key : Bytes) : Pair := ⟨key, List.replicate 600 120⟩

@[simp] theorem key_longPair (key : Bytes) : (longPair key).key = key := rfl

theorem size_longPair (key : Bytes) : (longPair key).size = key.length + 600 := by
  rw [Pair.size, longPair, List.length_replicate]

/-- Two long pairs have to part, so that the root is split; the short ones then join them. -/
def branches : List (Pair × Nat) :=
  [(longPair [97, 122], 0), (longPair [98], 1), (⟨[100], [49]⟩, 0), (⟨[102], [50]⟩, 0),
    (⟨[97], [51]⟩, 0)]

def branched : Host := newStore.filled 0 branches

theorem reached_branched : Reached 0 "t" branched := reached_newStore.filled branches

theorem takesAll_branches : Table.empty.TakesAll branches :=
  ⟨by decide +kernel, by decide +kernel, by decide +kernel, by decide +kernel, by decide +kernel,
    trivial⟩

theorem bears_branched :
    branched.Bears 0 { path := "t" } (Table.empty.takingAll branches) :=
  bears_newStore.filled rfl takesAll_branches

end Host

end PageTrie
