import PageTrie.Proofs.CommandLine.Running
import PageTrie.Proofs.StoreOutcome
import PageTrie.Proofs.Text.Utf8

/-! The command line is a map from texts to texts. Every run for one key is a turn of the map:
what it prints and how it ends say what the map had, and how the next one comes about. -/
namespace PageTrie.CommandLine

open LossyUtf8

def Command.key? : Command → Option String
  | .get key | .put key _ _ | .del key => some key
  | _ => none

def Command.isCreating : Command → Bool
  | .put .. | .del _ => true
  | _ => false

def afterRuns (host : Host) (runs : Nat → Invocation) : (count : Nat) → Host
  | 0 => host
  | count + 1 => ((runs count).run (afterRuns host runs count)).2

/-- One of the first runs has created the files of the store, whatever else came of it. -/
def HasFiles (runs : Nat → Invocation) (count : Nat) : Prop :=
  ∃ n < count, (runs n).command.isCreating = true

theorem hasFiles_succ (runs : Nat → Invocation) (count : Nat) :
    HasFiles runs (count + 1) ↔ HasFiles runs count ∨ (runs count).command.isCreating = true := by
  simp only [HasFiles, Nat.lt_succ_iff_lt_or_eq, or_and_right, exists_or, exists_eq_left]

/-- What the report of one run says about the map before it and the map after it. The store
has its files already if `made` holds. -/
inductive Turns (db : String) (made : Prop) (map : String → Option String) :
    Command → Report → (String → Option String) → Prop
  | put {key value : String} {replace : Bool} (unbound : map key = none) :
      Turns db made map (.put key value replace) (.success "")
        (Function.update map key (some value))
  | replaced {key value old : String} (bound : map key = some old) :
      Turns db made map (.put key value true) (.success "") (Function.update map key (some value))
  | «exists» {key value old : String} (bound : map key = some old) :
      Turns db made map (.put key value false)
        (.miss "key exists (use --replace to overwrite)\n") map
  | got {key value : String} (bound : map key = some value) :
      Turns db made map (.get key) (.success (value ++ "\n")) map
  | missed {key : String} (unbound : map key = none) :
      Turns db made map (.get key) (.miss "(not found)\n") map
  | deleted {key value : String} (bound : map key = some value) :
      Turns db made map (.del key) (.success "") (Function.update map key none)
  | undeleted {key : String} (unbound : map key = none) :
      Turns db made map (.del key) (.miss "(not found)\n") map
  | emptyKey {command : Command} (key_eq : command.key? = some "") :
      Turns db made map command (.failure "" (StoreError.invalidArgument "empty key").message) map
  | noFiles {key : String} (unmade : ¬ made) :
      Turns db made map (.get key)
        (.failure "" (s!"Failed to open store {db}: " ++ (StoreError.io .notFound).message)) map
  | tooLarge {key value : String} {replace : Bool}
      (size : 1008 < key.utf8ByteSize + value.utf8ByteSize) :
      Turns db made map (.put key value replace)
        (.failure "" (StoreError.pairTooLarge (key.utf8ByteSize + value.utf8ByteSize) 1008).message)
        map
  | noRoom {key value : String} {replace : Bool} {map' : String → Option String}
      (changed : map' = map ∨ replace = true ∧ map' = Function.update map key none) :
      Turns db made map (.put key value replace)
        (.failure "" (StoreError.cannotMakeRoom 10).message) map'

def Denotes (map : String → Option String) (lookup : Bytes → Option Bytes) : Prop :=
  ∀ key, lookup (encode key) = (map key).map encode

theorem Denotes.update {map : String → Option String} {lookup : Bytes → Option Bytes}
    (h : Denotes map lookup) (key : String) (value : Option String) :
    Denotes (Function.update map key value)
      (Function.update lookup (encode key) (value.map encode)) := by
  intro other
  obtain rfl | hother := eq_or_ne other key
  · rw [Function.update_self, Function.update_self]
  · rw [Function.update_of_ne hother, Function.update_of_ne (encode_injective.ne hother), h]

theorem denotes_empty : Denotes (fun _ => none) Table.empty.lookup := by
  intro key
  rw [Table.lookup_empty]
  rfl

theorem line_encode (text : String) : line (encode text) = text ++ "\n" := by
  rw [line, decode_encode]

/-- The call of a command answers as the map says, and leaves a session for the next map. -/
def Answers (db : String) (made : Prop) (map : String → Option String) (session : Session)
    (command : Command) (call : Call) : Prop :=
  ∃ map', Turns db made map command (Report.of (session.step call).1) map' ∧
    Denotes map' (session.step call).2.table.lookup

theorem turns_of_settles (db : String) (made : Prop) {map : String → Option String}
    {table table' : Table} (hmap : Denotes map table.lookup) {key value : String} {replace : Bool}
    {result : Except StoreError Reply}
    (hbound : (map key).isSome = true ↔
      ∃ old ∈ table.bucket (encode key), old.key = encode key)
    (hsettles : table.Settles ⟨encode key, encode value⟩ (if replace then .replace else .insert)
      result table')
    (hturns : (Call.store ⟨encode key, encode value⟩ (if replace then .replace else .insert)).Turns
      result table.lookup table'.lookup) :
    ∃ map', Turns db made map (.put key value replace) (Report.of result) map' ∧
      Denotes map' table'.lookup := by
  generalize hmode : (if replace then PutMode.replace else .insert) = mode at hturns hsettles
  cases hsettles with
  | «exists» inserting bound =>
    obtain ⟨old, hold⟩ := Option.isSome_iff_exists.mp (hbound.mpr bound)
    cases replace with
    | true => rw [← hmode] at inserting; cases inserting
    | false => exact ⟨map, .exists hold, hmap⟩
  | stored count unbound least gains placed =>
    have hput := hmap.update key (some value)
    rw [Option.map_some, ← show _ = Function.update table.lookup (encode key)
      (some (encode value)) from hturns] at hput
    refine ⟨_, ?_, hput⟩
    cases hold : map key with
    | none => exact .put hold
    | some old =>
      cases replace with
      | true => exact .replaced hold
      | false =>
        obtain ⟨pair, hpair, hsame⟩ := hbound.mp (by rw [hold]; rfl)
        exact absurd hsame (unbound hmode.symm pair hpair)
  | refused unbound full gains =>
    obtain hkept | ⟨hreplace, hlost⟩ := hturns
    · exact ⟨map, .noRoom (.inl rfl), by rw [hkept]; exact hmap⟩
    · cases replace with
      | false => rw [← hmode] at hreplace; cases hreplace
      | true =>
        exact ⟨_, .noRoom (.inr ⟨rfl, rfl⟩), by rw [hlost]; exact hmap.update key none⟩

section Session

variable {session : Session} {map : String → Option String} (db : String) (made : Prop)
  (h : session.Sound) (hmap : Denotes map session.table.lookup)
include h hmap

theorem answers_get (key : String) :
    Answers db made map session (.get key) (.fetch (encode key)) := by
  have hkept : (session.step (.fetch (encode key))).2.table.lookup = session.table.lookup :=
    (h.effect (.fetch (encode key))).turns
  refine ⟨map, ?_, by rw [hkept]; exact hmap⟩
  by_cases hkey : encode key = []
  · rw [hkey, Session.step_error (run_map_error _ Session.run_fetch_nil)]
    exact .emptyKey (congrArg some (encode_eq_nil_iff.mp hkey))
  · rw [h.answer_fetch hkey, hmap key]
    cases hvalue : map key with
    | none => exact .missed hvalue
    | some value =>
      change Turns _ _ _ _ (.success (line (encode value))) _
      rw [line_encode]
      exact .got hvalue

theorem answers_del (hwritable : session.config.isReadOnly = false) (key : String) :
    Answers db made map session (.del key) (.delete (encode key)) := by
  have hturns := (h.effect (.delete (encode key))).turns
  by_cases hkey : encode key = []
  · have hrun := (Session.run_delete session (encode key)).trans (if_pos hkey)
    rw [Answers, Session.step_error (run_map_error _ hrun)]
    exact ⟨map, .emptyKey (congrArg some (encode_eq_nil_iff.mp hkey)), hmap⟩
  · have hanswer := h.answer_delete hkey hwritable
    rw [Answers, hanswer]
    rw [hanswer, hmap key] at hturns
    rw [hmap key]
    cases hvalue : map key with
    | none =>
      rw [hvalue] at hturns
      refine ⟨map, .undeleted hvalue, ?_⟩
      rw [show _ = session.table.lookup from hturns]
      exact hmap
    | some value =>
      rw [hvalue] at hturns
      refine ⟨_, .deleted hvalue, ?_⟩
      rw [show _ = Function.update session.table.lookup (encode key) none from hturns]
      exact hmap.update key none

theorem answers_put (hwritable : session.config.isReadOnly = false) (key value : String)
    (replace : Bool) :
    Answers db made map session (.put key value replace)
      (.store ⟨encode key, encode value⟩ (if replace then .replace else .insert)) := by
  have hturns := (h.effect (.store ⟨encode key, encode value⟩
    (if replace then .replace else .insert))).turns
  have hrun := Session.run_store session ⟨encode key, encode value⟩
    (if replace then .replace else .insert)
  by_cases hkey : encode key = []
  · rw [if_pos hkey] at hrun
    rw [Answers, Session.step_error (run_map_error _ hrun)]
    exact ⟨map, .emptyKey (congrArg some (encode_eq_nil_iff.mp hkey)), hmap⟩
  rw [if_neg hkey, if_neg (ne_true_of_eq_false hwritable)] at hrun
  by_cases hsize : pairLimit < (Pair.mk (encode key) (encode value)).size
  · rw [if_pos hsize] at hrun
    rw [Answers, Session.step_error (run_map_error _ hrun)]
    rw [Pair.size, length_encode, length_encode] at hsize ⊢
    exact ⟨map, .tooLarge hsize, hmap⟩
  have hbound := h.table.bound_iff (encode key)
  rw [hmap key, Option.isSome_map] at hbound
  exact turns_of_settles db made hmap hbound
    (h.settles hkey (Nat.le_of_not_lt hsize) hwritable _) hturns

end Session

theorem Invocation.mode_eq (invocation : Invocation) :
    invocation.config.mode = if invocation.command.isCreating then .create else .readOnly := by
  unfold Invocation.config
  cases invocation.command <;> rfl

theorem Command.answers {session : Session} {map : String → Option String} (db : String)
    (made : Prop) (h : session.Sound) (hmap : Denotes map session.table.lookup)
    {command : Command} {call : Call} (hcall : command.call? = some call)
    (hwritable : command.isCreating = true → session.config.isReadOnly = false) :
    Answers db made map session command call := by
  cases command with
  | get key =>
    cases hcall
    exact answers_get db made h hmap key
  | put key value replace =>
    cases hcall
    exact answers_put db made h hmap (hwritable rfl) key value replace
  | del key =>
    cases hcall
    exact answers_del db made h hmap (hwritable rfl) key
  | keys | dump | stat => cases hcall

/-- Between runs the files of a store are missing, or hold what the map has. -/
inductive Stands (host : Host) (db : String) (made : Prop) (map : String → Option String) : Prop
  | untouched (untouched : host.Untouched db) (unmade : ¬ made) (map_eq : map = fun _ => none)
  | resting {session : Session} (resting : host.Resting session)
      (path_eq : session.config.path = db) (made : made)
      (denotes : Denotes map session.table.lookup)

theorem turns_of_serves {host : Host} {made : Prop} {map : String → Option String}
    {invocation : Invocation} {slot : Nat} {session : Session} (hhandles : host.handles = [])
    {call : Call} (hcall : invocation.command.call? = some call)
    (hopen : (host.openSlot slot invocation.config).1 = .ok ())
    (hserves : (host.openSlot slot invocation.config).2.Serves slot session)
    (hconfig : session.config = invocation.config)
    (hmap : Denotes map session.table.lookup) (made' : Prop) (hmade : made') :
    ∃ map', Turns invocation.db made map invocation.command (invocation.run host).1 map' ∧
      Stands (invocation.run host).2 invocation.db made' map' := by
  have hwritable : invocation.command.isCreating = true → session.config.isReadOnly = false := by
    intro hcreating
    rw [hconfig, Config.isReadOnly, invocation.mode_eq, if_pos hcreating]
    rfl
  obtain ⟨map', hturns, hdenotes⟩ :=
    invocation.command.answers invocation.db made hserves.sound hmap hcall hwritable
  obtain ⟨answer, hanswer, hrun, hrested⟩ := invocation.run_eq hhandles hcall hopen
  obtain ⟨hstep, hleft⟩ := hserves.call call
  rw [hstep, Option.some.injEq] at hanswer
  subst hanswer
  rw [hrun] at hrested ⊢
  refine ⟨map', hturns, .resting ⟨hrested, _, slot, hleft, rfl⟩ ?_ hmade hdenotes⟩
  rw [(hserves.sound.effect call).alike.config, hconfig]
  rfl

theorem Stands.run {host : Host} {made : Prop} {map : String → Option String}
    {invocation : Invocation} (h : Stands host invocation.db made map)
    (hkey : invocation.command.key?.isSome = true) :
    ∃ map', Turns invocation.db made map invocation.command (invocation.run host).1 map' ∧
      Stands (invocation.run host).2 invocation.db
        (made ∨ invocation.command.isCreating = true) map' := by
  have hmode := invocation.mode_eq
  obtain ⟨call, hcall⟩ : ∃ call, invocation.command.call? = some call := by
    cases hcommand : invocation.command with
    | get | put | del => exact ⟨_, rfl⟩
    | keys | dump | stat => rw [hcommand] at hkey; cases hkey
  cases h with
  | resting resting path_eq made denotes =>
    have hne : invocation.config.mode ≠ .truncate := by
      rw [hmode]
      split <;> decide
    obtain ⟨slot, hopen, session', hserves, hconfig, htable⟩ := resting.openSlot path_eq.symm hne
    rw [← htable] at denotes
    exact turns_of_serves resting.handles hcall hopen hserves hconfig denotes _ (.inl made)
  | untouched untouched unmade map_eq =>
    cases hcreating : invocation.command.isCreating with
    | true =>
      rw [hcreating, if_pos rfl] at hmode
      have hopen := untouched.openSlot_ok rfl hmode 0
      obtain ⟨session, hserves, hconfig, htable⟩ := (untouched.fresh rfl hmode).serves hopen
      exact turns_of_serves untouched.handles hcall hopen hserves hconfig
        (by rw [htable, map_eq]; exact denotes_empty) _ (.inr rfl)
    | false =>
      rw [hcreating, if_neg Bool.false_ne_true] at hmode
      have hrun : invocation.run host = (.failure "" (s!"Failed to open store {invocation.db}: " ++
          (StoreError.io .notFound).message), host) := by
        rw [Invocation.run, untouched.openStore_error rfl hmode]
      rw [hrun]
      cases hcommand : invocation.command with
      | get key =>
        exact ⟨map, .noFiles unmade, .untouched untouched (by simpa using unmade) map_eq⟩
      | put | del => rw [hcommand] at hcreating; cases hcreating
      | keys | dump | stat => rw [hcommand] at hkey; cases hkey

theorem exists_states {α : Type} {Good : Nat → α → Prop} {Next : Nat → α → α → Prop} {first : α}
    (hfirst : Good 0 first)
    (hstep : ∀ n a, Good n a → ∃ a', Next n a a' ∧ Good (n + 1) a') :
    ∃ states : Nat → α, states 0 = first ∧ ∀ n, Next n (states n) (states (n + 1)) := by
  choose next hnext hgood using hstep
  let states (n : Nat) : { a // Good n a } :=
    Nat.rec ⟨first, hfirst⟩ (fun n state => ⟨next n state.1 state.2, hgood n _ _⟩) n
  exact ⟨fun n => (states n).1, rfl, fun n => hnext n _ _⟩

def sampleRuns : Nat → Invocation
  | 0 => ⟨"t", false, .get "k"⟩
  | 1 | 2 => ⟨"t", false, .put "k" "v" false⟩
  | _ => ⟨"t", true, .get "k"⟩

end PageTrie.CommandLine
