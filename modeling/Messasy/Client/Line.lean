import Messasy.Client.Command

/-!
# Reading a line (`client_side.c`)

`read_line` takes bytes from the socket up to a CR LF; a line of up to 127 bytes is delivered
(`readLine_line`, `readLine_length`).
-/

namespace Messasy

open Lib

def MAX_CMD_LEN : Nat := 128

/-- What the `read` behind the last byte gives. -/
inductive ReadEnd
  | timeout
  | error
  | eof
  deriving DecidableEq

def ReadEnd.readLine : ReadEnd → ReadLine
  | .timeout => .timeout
  | .error => .error
  | .eof => .eof

/-- `NONE`, `CR_FOUND`, `CRLF_FOUND`. -/
inductive CrlfState
  | none
  | crFound
  | crlfFound
  deriving DecidableEq

def checkCrlf (c : Byte) (state : CrlfState) : CrlfState :=
  if c = CR then .crFound
  else if c = LF then if state = .crFound then .crlfFound else .none
  else .none

/-- `read_dust`: what is left unread behind the next CR LF. -/
def readDust (state : CrlfState) : Str → Str
  | [] => []
  | c :: input =>
    if checkCrlf c state = .crlfFound then input else readDust (checkCrlf c state) input

/-- The loop, with `k` bytes of room; `readbuf` holds what was read. The CR is in the buffer when
its LF comes. -/
def readLineLoop (fin : ReadEnd) : Nat → CrlfState → Str → Str → ReadLine × Str
  | 0, state, _, input => (.toolong, readDust state input)
  | _ + 1, _, _, [] => (fin.readLine, [])
  | k + 1, state, readbuf, c :: input =>
    if checkCrlf c state = .crlfFound then (.line readbuf.dropLast, input)
    else readLineLoop fin k (checkCrlf c state) (readbuf ++ [c]) input

/-- The line that is delivered, and the input behind it. -/
def readLine (fin : ReadEnd) (input : Str) : ReadLine × Str :=
  readLineLoop fin (MAX_CMD_LEN + 1) .none [] input

section
variable {fin : ReadEnd} {line : Str}

/-- Bytes that end no line go to the buffer. -/
theorem readLineLoop_append (fin : ReadEnd) (input : Str) : ∀ (s : Str) (k : Nat)
    (state : CrlfState) (readbuf : Str), LF ∉ s → s.length ≤ k → ∃ state',
      readLineLoop fin k state readbuf (s ++ input) =
        readLineLoop fin (k - s.length) state' (readbuf ++ s) input
  | [], k, state, readbuf, _, _ => ⟨state, by simp⟩
  | c :: s, 0, _, _, _, hk => by simp at hk
  | c :: s, k + 1, state, readbuf, hs, hk => by
    simp only [List.mem_cons, not_or] at hs
    have hc : checkCrlf c state ≠ .crlfFound := by
      unfold checkCrlf
      split
      · exact CrlfState.noConfusion
      · rw [if_neg (Ne.symm hs.1)]
        exact CrlfState.noConfusion
    obtain ⟨state', h⟩ := readLineLoop_append fin input s k (checkCrlf c state) (readbuf ++ [c])
      hs.2 (by simpa using hk)
    refine ⟨state', ?_⟩
    rw [List.cons_append, readLineLoop, if_neg hc, h]
    simp

/-- A line that fits is delivered. -/
theorem readLine_line (fin : ReadEnd) (hs : LF ∉ line) (hl : line.length + 2 ≤ MAX_CMD_LEN + 1)
    (rest : Str) : readLine fin (line ++ CR :: LF :: rest) = (.line line, rest) := by
  obtain ⟨state, h⟩ := readLineLoop_append fin (CR :: LF :: rest) line (MAX_CMD_LEN + 1) .none []
    hs (by omega)
  obtain ⟨k, hk⟩ : ∃ k, MAX_CMD_LEN + 1 - line.length = k + 2 :=
    ⟨MAX_CMD_LEN + 1 - line.length - 2, by omega⟩
  rw [readLine, h, hk, readLineLoop, if_neg (by unfold checkCrlf; simp), readLineLoop,
    if_pos (by unfold checkCrlf; simp [CR, LF])]
  simp

theorem readLineLoop_length : ∀ {k : Nat} {state : CrlfState} {readbuf input rest : Str},
    readLineLoop fin k state readbuf input = (.line line, rest) →
      line.length ≤ readbuf.length + k - 2
  | 0, _, _, _, _, h => by cases h
  | k + 1, _, _, [], _, h => by
    have hfin := congrArg Prod.fst h
    cases fin <;> cases hfin
  | k + 1, state, readbuf, c :: input, rest, h => by
    rw [readLineLoop] at h
    split at h
    · cases h
      rw [List.length_dropLast]
      omega
    · have ih := readLineLoop_length h
      rw [List.length_append, List.length_singleton] at ih
      omega

/-- A line that is delivered fits. -/
theorem readLine_length {input rest : Str} (h : readLine fin input = (.line line, rest)) :
    line.length + 2 ≤ MAX_CMD_LEN + 1 := by
  have hl := readLineLoop_length h
  have hmax : MAX_CMD_LEN = 128 := rfl
  rw [List.length_nil] at hl
  omega

end

end Messasy
