import Messasy.Client.Line
import Messasy.Lib.Frames

/-!
# Framing of the commands

`readLineBuf` is `read_line` with its buffer: every byte is stored through `mv`, also the ones of a
line that is too long. It delivers what `readLine` says (`readLineBuf_delivers`), which is found by
the reader of `frames` (`readLine_scan`): the successive calls on a connection answer the frames of
its input in order, one call each, and no store leaves the buffer (`calls_framed`).
-/

namespace Messasy

open Lib

def R_TIMEOUT : Int := -102

def R_EOF : Int := -103

def R_TOOLONG : Int := -104

def ReadEnd.code : ReadEnd → Int
  | .timeout => R_TIMEOUT
  | .error => -100
  | .eof => R_EOF

/-- The buffer with `mv` and `len`; `written` are the indices of all stores. -/
structure LineBuf where
  mv : Int
  len : Int
  buf : Int → Byte
  written : List Int

/-- A store through `mv`. -/
def LineBuf.put (lb : LineBuf) (c : Byte) : LineBuf :=
  { lb with buf := fun i => if i = lb.mv then c else lb.buf i, written := lb.written ++ [lb.mv] }

def LineBuf.advance (lb : LineBuf) : LineBuf := { lb with mv := lb.mv + 1, len := lb.len + 1 }

def LineBuf.stepBack (lb : LineBuf) : LineBuf := { lb with mv := lb.mv - 1, len := lb.len - 1 }

/-- The loop of `read_line`: the state behind it, unless a `read` ends the call. -/
def fillBuf (fin : ReadEnd) : CrlfState → LineBuf → Str → Except ReadEnd CrlfState × LineBuf × Str
  | state, lb, [] =>
    if lb.len < MAX_CMD_LEN + 1 ∧ state ≠ .crlfFound then (.error fin, lb, [])
    else (.ok state, lb, [])
  | state, lb, c :: input =>
    if lb.len < MAX_CMD_LEN + 1 ∧ state ≠ .crlfFound then
      let lb := lb.put c
      if checkCrlf c state = .crlfFound then (.ok .crlfFound, lb.stepBack, input)
      else fillBuf fin (checkCrlf c state) lb.advance input
    else (.ok state, lb, c :: input)

/-- What `read_line` does behind its loop. -/
def finishLine : Except ReadEnd CrlfState × LineBuf × Str → Int × LineBuf × Str
  | (.error e, lb, input) => (e.code, lb, input)
  | (.ok state, lb, input) =>
    let lb := lb.put 0
    if state ≠ .crlfFound then (R_TOOLONG, lb, readDust state input) else (lb.len, lb, input)

/-- `read_line` on a buffer: its result, the buffer, and the input that is left. -/
def readLineBuf (fin : ReadEnd) (buf : Int → Byte) (input : Str) : Int × LineBuf × Str :=
  finishLine (fillBuf fin .none ⟨0, 0, buf, []⟩ input)

example : (readLineBuf .eof (fun _ => 0) (bytes "QUIT" ++ [CR, LF])).1 = 4 := by decide

/-! ## The buffer -/

/-- The returned number stands for the line, which is in the buffer with its NUL. -/
def Delivers (r : ReadLine) (ret : Int) (lb : LineBuf) : Prop :=
  match r with
  | .line l => ret = l.length ∧ (∀ i (h : i < l.length), lb.buf i = l[i]) ∧ lb.buf l.length = 0
  | .timeout => ret = R_TIMEOUT
  | .error => ret = -100
  | .eof => ret = R_EOF
  | .toolong => ret = R_TOOLONG

/-- All stores are inside `readbuf[MAX_CMD_LEN + 2]`. -/
def LineBuf.InBounds (lb : LineBuf) : Prop := ∀ i ∈ lb.written, 0 ≤ i ∧ i < MAX_CMD_LEN + 2

/-- In the loop the buffer holds what was read. -/
structure LineBuf.Holds (lb : LineBuf) (readbuf : Str) : Prop where
  mv : lb.mv = readbuf.length
  len : lb.len = readbuf.length
  buf : ∀ i (h : i < readbuf.length), lb.buf i = readbuf[i]
  inBounds : lb.InBounds

section
variable {lb : LineBuf} {readbuf : Str}

theorem LineBuf.InBounds.put (h : lb.InBounds) (hmv : 0 ≤ lb.mv ∧ lb.mv < MAX_CMD_LEN + 2)
    (c : Byte) : (lb.put c).InBounds := by
  intro i hi
  rcases List.mem_append.1 hi with hi | hi
  · exact h i hi
  · rw [List.mem_singleton] at hi
    exact hi ▸ hmv

theorem LineBuf.Holds.inside (h : lb.Holds readbuf) (hlen : readbuf.length ≤ MAX_CMD_LEN + 1) :
    0 ≤ lb.mv ∧ lb.mv < MAX_CMD_LEN + 2 := by
  rw [h.mv]
  omega

/-- One more byte. -/
theorem LineBuf.Holds.next (h : lb.Holds readbuf) (hlen : readbuf.length ≤ MAX_CMD_LEN) (c : Byte) :
    (lb.put c).advance.Holds (readbuf ++ [c]) := by
  have hmv := h.mv
  have hlen' := h.len
  refine ⟨?_, ?_, fun i hi => ?_, h.inBounds.put (h.inside (by omega)) c⟩
  · show lb.mv + 1 = _
    rw [List.length_append, List.length_singleton]
    omega
  · show lb.len + 1 = _
    rw [List.length_append, List.length_singleton]
    omega
  · rw [List.length_append, List.length_singleton] at hi
    show (if (i : Int) = lb.mv then c else lb.buf i) = _
    by_cases hlast : i = readbuf.length
    · subst hlast
      rw [if_pos hmv.symm, List.getElem_concat_length rfl]
    · rw [if_neg (by omega), h.buf i (by omega), List.getElem_append_left]

/-- At the LF the pointer is stepped back to the CR, where the NUL goes. -/
theorem LineBuf.Holds.delivers (h : lb.Holds readbuf) (hne : readbuf ≠ []) (c : Byte) :
    Delivers (.line readbuf.dropLast) (lb.put c).stepBack.len ((lb.put c).stepBack.put 0) := by
  have hpos := List.length_pos_iff.2 hne
  have hmv := h.mv
  have hlen := h.len
  refine ⟨?_, fun i hi => ?_, ?_⟩
  · show lb.len - 1 = _
    rw [List.length_dropLast]
    omega
  · rw [List.length_dropLast] at hi
    show (if (i : Int) = lb.mv - 1 then (0 : Byte) else if (i : Int) = lb.mv then c else lb.buf i) = _
    rw [if_neg (by omega), if_neg (by omega), h.buf i (by omega), List.getElem_dropLast]
  · show (if ((readbuf.dropLast.length : Nat) : Int) = lb.mv - 1 then (0 : Byte) else _) = 0
    rw [if_pos]
    rw [List.length_dropLast]
    omega

/-- **The loop with the buffer** delivers what the loop without it says. -/
theorem fillBuf_delivers (fin : ReadEnd) : ∀ (input : Str) (k : Nat) (state : CrlfState)
    (lb : LineBuf) (readbuf : Str), lb.Holds readbuf → readbuf.length + k = MAX_CMD_LEN + 1 →
    state ≠ .crlfFound → (state = .crFound → readbuf ≠ []) →
    Delivers (readLineLoop fin k state readbuf input).1
        (finishLine (fillBuf fin state lb input)).1 (finishLine (fillBuf fin state lb input)).2.1 ∧
      (finishLine (fillBuf fin state lb input)).2.2 =
        (readLineLoop fin k state readbuf input).2 ∧
      (finishLine (fillBuf fin state lb input)).2.1.InBounds
  | input, 0, state, lb, readbuf, h, hk, hstate, _ => by
    have hlen := h.len
    have hfull : ¬ (lb.len < MAX_CMD_LEN + 1 ∧ state ≠ .crlfFound) := by omega
    have hfill : fillBuf fin state lb input = (.ok state, lb, input) := by
      cases input <;> simp only [fillBuf, if_neg hfull]
    simp only [hfill, finishLine, if_pos hstate, readLineLoop]
    exact ⟨rfl, trivial, h.inBounds.put (h.inside (by omega)) 0⟩
  | [], k + 1, state, lb, readbuf, h, hk, hstate, _ => by
    have hlen := h.len
    have hroom : lb.len < MAX_CMD_LEN + 1 ∧ state ≠ .crlfFound := ⟨by omega, hstate⟩
    simp only [fillBuf, if_pos hroom, finishLine, readLineLoop]
    refine ⟨?_, trivial, h.inBounds⟩
    cases fin <;> rfl
  | c :: input, k + 1, state, lb, readbuf, h, hk, hstate, hcr => by
    have hlen := h.len
    have hroom : lb.len < MAX_CMD_LEN + 1 ∧ state ≠ .crlfFound := ⟨by omega, hstate⟩
    have hput := h.inBounds.put (h.inside (by omega)) c
    simp only [fillBuf, if_pos hroom, readLineLoop]
    by_cases hend : checkCrlf c state = .crlfFound
    · have hne : readbuf ≠ [] := by
        refine hcr ?_
        unfold checkCrlf at hend
        split at hend
        · cases hend
        · split at hend
          · split at hend
            · assumption
            · cases hend
          · cases hend
      have hpos := List.length_pos_iff.2 hne
      have hmv := h.mv
      have hback : (lb.put c).stepBack.InBounds := hput
      simp only [if_pos hend, finishLine, ne_eq, not_true, if_false]
      refine ⟨h.delivers hne c, trivial, hback.put ⟨?_, ?_⟩ 0⟩
      · show 0 ≤ lb.mv - 1
        omega
      · show lb.mv - 1 < _
        omega
    · simp only [if_neg hend]
      exact fillBuf_delivers fin input k (checkCrlf c state) (lb.put c).advance (readbuf ++ [c])
        (h.next (by omega) c) (by rw [List.length_append, List.length_singleton]; omega) hend
        fun _ => by simp

theorem readLineBuf_delivers (fin : ReadEnd) (buf : Int → Byte) (input : Str) :
    Delivers (readLine fin input).1 (readLineBuf fin buf input).1 (readLineBuf fin buf input).2.1 ∧
      (readLineBuf fin buf input).2.2 = (readLine fin input).2 ∧
      (readLineBuf fin buf input).2.1.InBounds :=
  fillBuf_delivers fin input (MAX_CMD_LEN + 1) .none ⟨0, 0, buf, []⟩ []
    ⟨rfl, rfl, fun i hi => absurd hi (Nat.not_lt_zero i), fun i hi => by cases hi⟩ rfl
    CrlfState.noConfusion CrlfState.noConfusion

end

/-! ## The frames of the input -/

theorem checkCrlf_eq_crlfFound {c : Byte} {state : CrlfState} :
    checkCrlf c state = .crlfFound ↔ c = LF ∧ state = .crFound := by
  have hne : LF ≠ CR := by decide
  unfold checkCrlf
  by_cases hcr : c = CR
  · rw [if_pos hcr]
    refine iff_of_false CrlfState.noConfusion fun h => hne ?_
    rw [← h.1, hcr]
  · rw [if_neg hcr]
    by_cases hlf : c = LF <;> by_cases hs : state = .crFound <;> simp [hlf, hs]

theorem checkCrlf_eq_crFound {c : Byte} {state : CrlfState} :
    checkCrlf c state = .crFound ↔ c = CR := by
  unfold checkCrlf
  by_cases hcr : c = CR
  · simp [hcr]
  · by_cases hlf : c = LF <;> by_cases hs : state = .crFound <;> simp [hcr, hlf, hs]

section
variable {state : CrlfState}

/-- The reader's flag is the state of the automaton. -/
theorem scanFrame_step (readbuf : Str) (c : Byte) (input : Str) :
    scanFrame CR LF (decide (state = .crFound)) readbuf (c :: input) =
      if checkCrlf c state = .crlfFound then some (readbuf.dropLast, input)
      else scanFrame CR LF (decide (checkCrlf c state = .crFound)) (readbuf ++ [c]) input := by
  simp only [scanFrame, decide_eq_true_eq, checkCrlf_eq_crlfFound, checkCrlf_eq_crFound]

theorem readDust_scan : ∀ (input : Str) (state : CrlfState) (readbuf : Str),
    readDust state input =
      match scanFrame CR LF (decide (state = .crFound)) readbuf input with
      | some (_, rest) => rest
      | none => []
  | [], _, _ => rfl
  | c :: input, state, readbuf => by
    rw [scanFrame_step]
    unfold readDust
    by_cases hend : checkCrlf c state = .crlfFound
    · rw [if_pos hend, if_pos hend]
    · rw [if_neg hend, if_neg hend]
      exact readDust_scan input (checkCrlf c state) (readbuf ++ [c])

/-- The loop reads the frame, and the limit decides what becomes of it. -/
theorem readLineLoop_scan (fin : ReadEnd) : ∀ (input : Str) (k : Nat) (state : CrlfState)
    (readbuf : Str), (state = .crFound → readbuf ≠ []) →
    readLineLoop fin k state readbuf input =
      match scanFrame CR LF (decide (state = .crFound)) readbuf input with
      | some (line, rest) =>
        (if line.length + 2 ≤ readbuf.length + k then .line line else .toolong, rest)
      | none => if input.length < k then (fin.readLine, []) else (.toolong, [])
  | input, 0, state, readbuf, hcr => by
    rw [readLineLoop, readDust_scan input state readbuf]
    cases hscan : scanFrame CR LF (decide (state = .crFound)) readbuf input with
    | none => simp
    | some x =>
      obtain ⟨line, rest⟩ := x
      have hlen := (scanFrame_length hscan fun h => hcr (of_decide_eq_true h)).1
      have hlong : ¬ line.length + 2 ≤ readbuf.length + 0 := by omega
      simp only [if_neg hlong]
  | [], k + 1, state, readbuf, _ => by simp [readLineLoop, scanFrame]
  | c :: input, k + 1, state, readbuf, hcr => by
    rw [scanFrame_step]
    unfold readLineLoop
    by_cases hend : checkCrlf c state = .crlfFound
    · have hpos := List.length_pos_iff.2 (hcr (checkCrlf_eq_crlfFound.1 hend).2)
      have hfits : readbuf.dropLast.length + 2 ≤ readbuf.length + (k + 1) := by
        rw [List.length_dropLast]
        omega
      simp only [if_pos hend, if_pos hfits]
    · have hlen : (readbuf ++ [c]).length + k = readbuf.length + (k + 1) := by
        rw [List.length_append, List.length_singleton]
        omega
      rw [if_neg hend, if_neg hend, readLineLoop_scan fin input k (checkCrlf c state)
        (readbuf ++ [c]) fun _ => by simp, hlen]
      simp only [List.length_cons, Nat.add_lt_add_iff_right]

end

/-- What a call of `read_line` on a whole stream comes to. -/
theorem readLine_scan (fin : ReadEnd) (input : Str) : readLine fin input =
    match scanFrame CR LF false [] input with
    | some (line, rest) =>
      (if line.length ≤ MAX_CMD_LEN - 1 then .line line else .toolong, rest)
    | none => if input.length < MAX_CMD_LEN + 1 then (fin.readLine, []) else (.toolong, []) := by
  have h := readLineLoop_scan fin input (MAX_CMD_LEN + 1) .none [] CrlfState.noConfusion
  have hlimit : ∀ n, n + 2 ≤ ([] : Str).length + (MAX_CMD_LEN + 1) ↔ n ≤ MAX_CMD_LEN - 1 := by
    intro n
    have hmax : MAX_CMD_LEN = 128 := rfl
    rw [List.length_nil]
    omega
  simp only [hlimit] at h
  exact h

/-- The answers to a stream of these frames with this rest, each with the stream that is left. -/
def frameAnswers : List Str → Str → List (ReadLine × Str)
  | [], rest =>
    if MAX_CMD_LEN + 1 ≤ rest.length then [(.toolong, []), (.eof, [])] else [(.eof, [])]
  | line :: lines, rest =>
    (if line.length ≤ MAX_CMD_LEN - 1 then .line line else .toolong, unframe CR LF lines rest) ::
      frameAnswers lines rest

/-- The successive calls on a stream up to the end of file, whatever the buffer holds before each
of them. -/
inductive Calls : Str → List (Int × LineBuf × Str) → Prop
  | last {buf : Int → Byte} {input : Str} : (readLineBuf .eof buf input).1 = R_EOF →
      Calls input [readLineBuf .eof buf input]
  | next {buf : Int → Byte} {input : Str} {outs : List (Int × LineBuf × Str)} :
      (readLineBuf .eof buf input).1 ≠ R_EOF → Calls (readLineBuf .eof buf input).2.2 outs →
      Calls input (readLineBuf .eof buf input :: outs)

/-- A call has this answer, leaves this stream, and has stored nothing outside its buffer. -/
def Answers (out : Int × LineBuf × Str) (answer : ReadLine × Str) : Prop :=
  Delivers answer.1 out.1 out.2.1 ∧ out.2.2 = answer.2 ∧ out.2.1.InBounds

theorem Delivers.ret_eq_eof {r : ReadLine} {ret : Int} {lb : LineBuf} (h : Delivers r ret lb) :
    ret = R_EOF ↔ r = .eof := by
  cases r with
  | line line =>
    have hret : ret = line.length := h.1
    have heof : R_EOF = -103 := rfl
    exact iff_of_false (by omega) ReadLine.noConfusion
  | eof => exact iff_of_true h rfl
  | _ =>
    have hret : ret = _ := h
    rw [hret]
    exact iff_of_false (by decide) ReadLine.noConfusion

/-- The calls answer the stream like this. -/
def CallsAnswer (input : Str) (answers : List (ReadLine × Str)) : Prop :=
  (∃ outs, Calls input outs) ∧ ∀ outs, Calls input outs → List.Forall₂ Answers outs answers

section
variable {input : Str} {a : ReadLine × Str} {answers : List (ReadLine × Str)}

theorem readLineBuf_answers (h : readLine .eof input = a) (buf : Int → Byte) :
    Answers (readLineBuf .eof buf input) a := by
  subst h
  exact readLineBuf_delivers .eof buf input

/-- The end of file ends the calls. -/
theorem callsAnswer_eof (h : readLine .eof input = a) (ha : a.1 = .eof) :
    CallsAnswer input [a] := by
  have hans := readLineBuf_answers h
  have heof : ∀ buf, (readLineBuf .eof buf input).1 = R_EOF := fun buf =>
    (hans buf).1.ret_eq_eof.2 ha
  refine ⟨⟨_, .last (heof fun _ => 0)⟩, fun outs hcalls => ?_⟩
  cases hcalls with
  | last _ => exact .cons (hans _) .nil
  | next hne _ => exact absurd (heof _) hne

/-- Any other answer is followed by those to the stream that is left. -/
theorem callsAnswer_cons (h : readLine .eof input = a) (ha : a.1 ≠ .eof)
    (hrest : CallsAnswer a.2 answers) : CallsAnswer input (a :: answers) := by
  have hans := readLineBuf_answers h
  have hne : ∀ buf, (readLineBuf .eof buf input).1 ≠ R_EOF := fun buf hret =>
    ha ((hans buf).1.ret_eq_eof.1 hret)
  have hleft : ∀ buf, (readLineBuf .eof buf input).2.2 = a.2 := fun buf => (hans buf).2.1
  obtain ⟨⟨outs, houts⟩, hall⟩ := hrest
  refine ⟨⟨_, .next (hne fun _ => 0) (by rw [hleft]; exact houts)⟩, fun outs hcalls => ?_⟩
  cases hcalls with
  | last heof => exact absurd heof (hne _)
  | next _ hcalls =>
    rw [hleft] at hcalls
    exact .cons (hans _) (hall _ hcalls)

end

/-- **Framing.** The stream is its frames with their CR LF and a rest; the successive calls of
`read_line` end, and answer exactly the frames in order, each with the frames behind it left, and
then the rest. -/
theorem calls_framed (input : Str) :
    unframe CR LF (frames CR LF [] input).1 (frames CR LF [] input).2 = input ∧
      CallsAnswer input (frameAnswers (frames CR LF [] input).1 (frames CR LF [] input).2) := by
  refine ⟨unframe_frames [] input, ?_⟩
  induction hn : input.length using Nat.strong_induction_on generalizing input with
  | h n ih =>
    have hread := readLine_scan .eof input
    have hframes := frames_eq (a := CR) (b := LF) [] input
    cases hscan : scanFrame CR LF false [] input with
    | some x =>
      obtain ⟨line, rest⟩ := x
      have hlen := (scanFrame_length hscan Bool.noConfusion).2
      rw [List.length_nil] at hlen
      rw [hscan] at hread hframes
      rw [hframes, frameAnswers, unframe_frames [] rest, List.nil_append]
      refine callsAnswer_cons hread ?_ (ih rest.length (by omega) rest rfl)
      dsimp only
      split <;> exact ReadLine.noConfusion
    | none =>
      rw [hscan] at hread hframes
      rw [hframes, List.nil_append, frameAnswers]
      by_cases hlong : MAX_CMD_LEN + 1 ≤ input.length
      · rw [if_pos hlong]
        dsimp only at hread
        rw [if_neg (Nat.not_lt.2 hlong)] at hread
        exact callsAnswer_cons hread ReadLine.noConfusion
          (callsAnswer_eof (readLine_scan .eof []) rfl)
      · rw [if_neg hlong]
        dsimp only at hread
        rw [if_pos (Nat.lt_of_not_le hlong)] at hread
        exact callsAnswer_eof hread rfl

end Messasy
