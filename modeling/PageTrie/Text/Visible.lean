/-! Text for a terminal. Controls that a terminal may act on are written by their code, so
that names taken from elsewhere cannot steer it; every other character stands for itself. -/
namespace PageTrie.Visible

def isSteering (c : Char) : Bool :=
  c == '\x07' || c == '\x08' || c == '\x0c' || c == '\x1b' || c == '\x7f'

def isHighControl (c : Char) : Bool := '\u0080' ≤ c && c ≤ '\u009f'

def isPlain (c : Char) : Bool := !isSteering c && !isHighControl c

def code (c : Char) : List Char :=
  let digits := Nat.toDigits 16 c.toNat
  if c.toNat < 16 then '0' :: digits else digits

def written (c : Char) : List Char :=
  if isSteering c then ['\x5c', 'x'] ++ code c
  else if isHighControl c then ['\x5c', 'u', '\x7b'] ++ code c ++ ['\x7d']
  else [c]

def text (s : String) : String := String.ofList (s.toList.flatMap written)

theorem written_of_isPlain {c : Char} (h : isPlain c = true) : written c = [c] := by
  simp only [isPlain, Bool.and_eq_true, Bool.not_eq_true'] at h
  simp [written, h.1, h.2]

theorem text_of_isPlain {s : String} (h : ∀ c ∈ s.toList, isPlain c = true) : text s = s := by
  have hflat : ∀ cs : List Char, (∀ c ∈ cs, isPlain c = true) → cs.flatMap written = cs := by
    intro cs
    induction cs with
    | nil => simp
    | cons c cs ih =>
      intro hcs
      rw [List.flatMap_cons, written_of_isPlain (hcs c List.mem_cons_self),
        ih fun d hd => hcs d (List.mem_cons_of_mem c hd)]
      rfl
  rw [text, hflat _ h, String.ofList_toList]

end PageTrie.Visible
