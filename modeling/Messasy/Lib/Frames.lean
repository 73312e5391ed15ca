import Mathlib.Data.List.Basic

/-!
# Frames

A stream is cut behind every `a` that is immediately followed by `b`, from left to right. `frames`
looks one byte ahead; `scanFrame` is a reader that remembers whether it has just seen `a`, and
finds the same first frame (`frames_eq`).
-/

namespace Lib

section
variable {α : Type} [DecidableEq α] (a b : α)

/-- The frames without their ends, and what is left behind the last one; `cur` is the frame so
far. -/
def frames : List α → List α → List (List α) × List α
  | cur, [] => ([], cur)
  | cur, [c] => ([], cur ++ [c])
  | cur, c :: d :: s =>
    if c = a ∧ d = b then (cur :: (frames [] s).1, (frames [] s).2)
    else frames (cur ++ [c]) (d :: s)

/-- The stream of some frames and a rest. -/
def unframe (fs : List (List α)) (rest : List α) : List α := fs.flatMap (· ++ [a, b]) ++ rest

/-- The first frame and the stream behind it; the flag says whether `a` has just been read. -/
def scanFrame : Bool → List α → List α → Option (List α × List α)
  | _, _, [] => none
  | prev, cur, c :: s =>
    if c = b ∧ prev = true then some (cur.dropLast, s)
    else scanFrame (decide (c = a)) (cur ++ [c]) s

variable {a b} {cur s : List α}

omit [DecidableEq α] in
theorem unframe_cons (f : List α) (fs : List (List α)) (rest : List α) :
    unframe a b (f :: fs) rest = f ++ a :: b :: unframe a b fs rest := by
  simp [unframe]

/-- Nothing is lost. -/
theorem unframe_frames (cur s : List α) :
    unframe a b (frames a b cur s).1 (frames a b cur s).2 = cur ++ s := by
  fun_induction frames a b cur s with
  | case1 cur => simp [unframe]
  | case2 cur c => rfl
  | case3 cur c d s h ih =>
    obtain ⟨rfl, rfl⟩ := h
    rw [unframe_cons, ih]
    rfl
  | case4 cur c d s _ ih =>
    rw [ih, List.append_assoc]
    rfl

/-- What has just been read matters at a `b` only. -/
theorem scanFrame_congr {d : α} {prev : Bool} (h : ¬ (d = b ∧ prev = true)) (cur s : List α) :
    scanFrame a b prev cur (d :: s) = scanFrame a b false cur (d :: s) := by
  simp [scanFrame, h]

/-- The frames of a stream are the one that the reader finds and those behind it. -/
theorem frames_eq (cur s : List α) : frames a b cur s =
    match scanFrame a b false cur s with
    | some (f, rest) => (f :: (frames a b [] rest).1, (frames a b [] rest).2)
    | none => ([], cur ++ s) := by
  fun_induction frames a b cur s with
  | case1 cur => simp [scanFrame]
  | case2 cur c => simp [scanFrame]
  | case3 cur c d s h =>
    obtain ⟨rfl, rfl⟩ := h
    simp [scanFrame]
  | case4 cur c d s h ih =>
    have hstep : scanFrame a b false cur (c :: d :: s) =
        scanFrame a b false (cur ++ [c]) (d :: s) := by
      have hno : ¬ (d = b ∧ decide (c = a) = true) := fun hd => h ⟨of_decide_eq_true hd.2, hd.1⟩
      rw [← scanFrame_congr hno]
      simp [scanFrame]
    rw [hstep, ih, List.append_assoc]
    rfl

/-- A frame that is found has the bytes read before it. -/
theorem scanFrame_length {prev : Bool} {f rest : List α} (h : scanFrame a b prev cur s = some (f, rest))
    (hprev : prev = true → cur ≠ []) :
    cur.length ≤ f.length + 1 ∧ f.length + 1 + rest.length + 1 = cur.length + s.length := by
  induction s generalizing prev cur with
  | nil => cases h
  | cons c s ih =>
    unfold scanFrame at h
    split at h
    · rename_i hend
      cases h
      have hpos := List.length_pos_iff.2 (hprev hend.2)
      rw [List.length_dropLast, List.length_cons]
      omega
    · have hih := ih h fun _ => by simp
      rw [List.length_append, List.length_singleton] at hih
      rw [List.length_cons]
      omega

end

end Lib
