import Mathlib
import PageTrie.Storage.OpenFile

/-! Filling a buffer from a file, transfer by transfer. However the system cuts the bytes up and however
often it interrupts, the loop ends, and the buffer then begins with the bytes that the file has. -/
namespace PageTrie.SparseFile

/-- A run of the loop that fills a buffer, from a count of filled bytes on, with one transfer for
each read call. A call that is not interrupted moves any number of the bytes that are there and
still asked for, but one at least. The loop is over when the buffer is full, or at a call that finds
nothing. -/
inductive Fills (file : SparseFile) (pos : Nat) {n : Nat} :
    Nat → Buffer n → List Transfer → Nat × Buffer n → Prop
  | full {filled : Nat} {buffer : Buffer n} (isFull : n ≤ filled) :
    Fills file pos filled buffer [] (filled, buffer)
  | ended {filled : Nat} {buffer : Buffer n} (hasRoom : filled < n) (count : Nat)
    (isOver : file.size ≤ pos + filled) :
    Fills file pos filled buffer [.bytes count] (filled, buffer)
  | interrupted {filled : Nat} {buffer : Buffer n} {rest : List Transfer} {result : Nat × Buffer n}
    (hasRoom : filled < n) (run : Fills file pos filled buffer rest result) :
    Fills file pos filled buffer (.interrupted :: rest) result
  | moved {filled count : Nat} {buffer : Buffer n} {rest : List Transfer}
    {result : Nat × Buffer n} (isPositive : 0 < count)
    (isAsked : filled + count ≤ n) (isThere : pos + filled + count ≤ file.size)
    (run : Fills file pos (filled + count) (buffer.patch filled (file.read (pos + filled) count))
      rest result) :
    Fills file pos filled buffer (.bytes count :: rest) result

/-- So many bytes of a buffer are there, and they are those of the file from `pos` on. -/
structure Begins (file : SparseFile) (pos : Nat) (filled : Nat) (buffer : Buffer n) : Prop where
  le : filled ≤ min n (file.size - pos)
  byte_eq : ∀ k < filled, buffer.byte k = file.byte (pos + k)

theorem begins_zero (file : SparseFile) (pos : Nat) (buffer : Buffer n) :
    file.Begins pos 0 buffer := ⟨Nat.zero_le _, fun k hk => absurd hk (Nat.not_lt_zero k)⟩

section

variable {file : SparseFile} {pos filled : Nat} {buffer : Buffer n}

theorem Begins.patch (h : file.Begins pos filled buffer) {count : Nat} (hcount : filled + count ≤ n) :
    file.Begins pos (filled + (file.read (pos + filled) count).length)
      (buffer.patch filled (file.read (pos + filled) count)) := by
  have hle := h.le
  have hlength := file.length_read (pos + filled) count
  refine ⟨by omega, fun k hk => ?_⟩
  rw [Buffer.byte_patch]
  by_cases hold : k < filled
  · rw [if_neg (by omega), h.byte_eq k hold]
  · rw [if_pos (by omega), getD_read, if_pos (by omega)]
    congr 1
    omega

theorem Fills.begins {made : List Transfer} {result : Nat × Buffer n}
    (hrun : file.Fills pos filled buffer made result) (h : file.Begins pos filled buffer) :
    file.Begins pos result.1 result.2 ∧ result.1 = min n (file.size - pos) := by
  induction hrun with
  | full isFull =>
    have hle := h.le
    exact ⟨h, by omega⟩
  | ended hasRoom count isOver =>
    have hle := h.le
    exact ⟨h, by omega⟩
  | interrupted hasRoom run ih => exact ih h
  | moved isPositive isAsked isThere run ih =>
    have hnext := h.patch isAsked
    rw [length_read, Nat.min_eq_left (by omega)] at hnext
    exact ih hnext

theorem Fills.padded {made : List Transfer} {result : Nat × Buffer n}
    (hrun : file.Fills pos 0 buffer made result) :
    (result.1, result.2.patch result.1 (List.replicate (n - result.1) 0)) =
      (min n (file.size - pos), Vector.ofFn fun k : Fin n => file.byte (pos + k)) := by
  obtain ⟨hbegins, hfilled⟩ := hrun.begins (file.begins_zero pos buffer)
  have hle := hbegins.le
  refine Prod.ext hfilled (Buffer.ext_byte fun k hk => ?_)
  have hbyte : Buffer.byte (Vector.ofFn fun k : Fin n => file.byte (pos + k)) k =
      file.byte (pos + k) := by
    simp [Buffer.byte, hk]
  rw [hbyte, Buffer.byte_patch, List.length_replicate]
  by_cases hin : k < result.1
  · rw [if_neg (by omega), hbegins.byte_eq k hin]
  · rw [if_pos (by omega), List.getD_replicate _ (by omega), file.byte_eq_zero (by omega)]

end

theorem read_min (file : SparseFile) (pos n : Nat) :
    file.read pos (min n (file.size - pos)) = file.read pos n := by
  rw [read, read, min_assoc, min_self]

section

variable {file : SparseFile} {pos filled : Nat}

theorem fill_of_stopped {n : Nat} (h : n ≤ filled ∨ file.size ≤ pos + filled) (buffer : Buffer n)
    (schedule : List Transfer) : file.fill pos buffer filled schedule = (filled, buffer) := by
  have hnothing (count : Nat) (hcount : count ≤ n - filled) :
      file.read (pos + filled) count = [] := by
    rw [← List.length_eq_zero_iff, length_read]
    omega
  induction schedule with
  | nil =>
    rw [fill, hnothing _ le_rfl]
    rfl
  | cons transfer rest ih =>
    cases transfer with
    | interrupted => exact ih
    | bytes count =>
      rw [fill, hnothing _ (Nat.min_le_right _ _)]
      rfl

theorem exists_fills_of_stopped {n : Nat} (h : n ≤ filled ∨ file.size ≤ pos + filled)
    (buffer : Buffer n) :
    ∃ made, made.length ≤ 1 ∧ file.Fills pos filled buffer made (filled, buffer) := by
  by_cases hfull : n ≤ filled
  · exact ⟨[], Nat.zero_le _, .full hfull⟩
  · exact ⟨[.bytes 1], le_rfl, .ended (Nat.lt_of_not_le hfull) 1 (h.resolve_left hfull)⟩

theorem Fills.of_read {n asked : Nat} {buffer : Buffer n} {rest : List Transfer}
    {result : Nat × Buffer n} (hpositive : 0 < asked) (hasked : filled + asked ≤ n)
    (hmore : pos + filled < file.size)
    (hrun : file.Fills pos (filled + (file.read (pos + filled) asked).length)
      (buffer.patch filled (file.read (pos + filled) asked)) rest result) :
    file.Fills pos filled buffer (.bytes (file.read (pos + filled) asked).length :: rest) result := by
  have hlength := file.length_read (pos + filled) asked
  rw [hlength] at hrun ⊢
  rw [← read_min] at hrun
  exact .moved (by omega) (by omega) (by omega) hrun

/-- The loop comes to its own end. Where the schedule breaks off, one call moves what is left, and
one more may be there to find nothing. -/
theorem exists_fills {n : Nat} (buffer : Buffer n) (schedule : List Transfer) :
    ∃ made, made.length ≤ schedule.length + 2 ∧
      file.Fills pos filled buffer made (file.fill pos buffer filled schedule) := by
  induction schedule generalizing filled buffer with
  | nil =>
    by_cases hstopped : n ≤ filled ∨ file.size ≤ pos + filled
    · rw [fill_of_stopped hstopped]
      obtain ⟨made, hmade, hrun⟩ := exists_fills_of_stopped hstopped buffer
      exact ⟨made, hmade.trans (by decide), hrun⟩
    · -- One call moves all that is left.
      have hstops : n ≤ filled + (file.read (pos + filled) (n - filled)).length ∨
          file.size ≤ pos + (filled + (file.read (pos + filled) (n - filled)).length) := by
        rw [length_read]
        omega
      obtain ⟨made, hmade, hrun⟩ := exists_fills_of_stopped hstops
        (buffer.patch filled (file.read (pos + filled) (n - filled)))
      have hmoved := hrun.of_read (by omega) (by omega) (by omega)
      exact ⟨_ :: made, Nat.succ_le_succ hmade, hmoved⟩
  | cons transfer rest ih =>
    by_cases hstopped : n ≤ filled ∨ file.size ≤ pos + filled
    · rw [fill_of_stopped hstopped]
      obtain ⟨made, hmade, hrun⟩ := exists_fills_of_stopped hstopped buffer
      exact ⟨made, hmade.trans (Nat.le_add_left 1 _), hrun⟩
    · cases transfer with
      | interrupted =>
        obtain ⟨made, hmade, hrun⟩ := ih buffer
        exact ⟨_ :: made, Nat.succ_le_succ hmade, .interrupted (by omega) hrun⟩
      | bytes count =>
        have hgot : (file.read (pos + filled) (min (max 1 count) (n - filled))).isEmpty = false := by
          rw [List.isEmpty_eq_false_iff, ← List.length_pos_iff, length_read]
          omega
        obtain ⟨made, hmade, hrun⟩ := ih (buffer.patch filled
          (file.read (pos + filled) (min (max 1 count) (n - filled))))
        have hmoved := hrun.of_read (by omega) (by omega) (by omega)
        rw [fill, hgot]
        exact ⟨_ :: made, Nat.succ_le_succ hmade, hmoved⟩

end

end PageTrie.SparseFile
