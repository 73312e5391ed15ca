import Messasy.Lib.Bytes

/-!
# Line ends

`unixLines` replaces every CRLF pair of a text by LF. `feed` does it for a text that arrives in
pieces: a CR at the end of a piece is held back (`true`) until the next byte is known.
-/

namespace Lib

/-- Every CRLF pair replaced by LF. -/
def unixLines : Str → Str
  | [] => []
  | [c] => [c]
  | c :: d :: s => if c = CR ∧ d = LF then LF :: unixLines s else c :: unixLines (d :: s)

/-- The CR held back. -/
def held (cr : Bool) : Str := if cr then [CR] else []

/-- The bytes that a piece lets out, and whether a CR is held back behind it. -/
def feed : Bool → Str → Str × Bool
  | cr, [] => ([], cr)
  | cr, c :: s =>
    let out := if c = LF then [] else held cr
    if c = CR then (out ++ (feed true s).1, (feed true s).2)
    else (out ++ c :: (feed false s).1, (feed false s).2)

/-- Pieces are fed one after another. -/
theorem feed_append (s t : Str) : ∀ cr, feed cr (s ++ t) =
    ((feed cr s).1 ++ (feed (feed cr s).2 t).1, (feed (feed cr s).2 t).2) := by
  induction s with
  | nil => intro cr; simp [feed]
  | cons c s ih =>
    intro cr
    by_cases hc : c = CR <;> simp [feed, hc, ih]

theorem unixLines_cons_of_ne {c : Byte} (s : Str) (h : c ≠ CR) :
    unixLines (c :: s) = c :: unixLines s := by
  cases s with
  | nil => rfl
  | cons d s => simp [unixLines, h]

theorem unixLines_cr_cons (c : Byte) (s : Str) :
    unixLines (CR :: c :: s) = if c = LF then LF :: unixLines s else CR :: unixLines (c :: s) := by
  simp [unixLines]

/-- **What was let out and what is held back are the text with its line ends replaced.** -/
theorem feed_held (s : Str) : ∀ cr,
    (feed cr s).1 ++ held (feed cr s).2 = unixLines (held cr ++ s) := by
  induction s with
  | nil => intro cr; cases cr <;> simp [feed, held, unixLines]
  | cons c s ih =>
    intro cr
    have hone : (feed false (c :: s)).1 ++ held (feed false (c :: s)).2 = unixLines (c :: s) := by
      by_cases hc : c = CR
      · subst hc
        simpa [feed, held] using ih true
      · rw [unixLines_cons_of_ne s hc, ← List.nil_append s]
        simpa [feed, held, hc] using ih false
    cases cr with
    | false => simpa [held] using hone
    | true =>
      show _ = unixLines (CR :: c :: s)
      rw [unixLines_cr_cons]
      by_cases hl : c = LF
      · subst hl
        simpa [feed, held, CR, LF] using ih false
      · rw [if_neg hl, ← hone]
        by_cases hc : c = CR
        · subst hc
          simp [feed, held, CR, LF]
        · simp [feed, held, hl, hc]

/-- A text fed from the start, in any pieces. -/
theorem feed_start (s : Str) : (feed false s).1 ++ held (feed false s).2 = unixLines s :=
  feed_held s false

end Lib
