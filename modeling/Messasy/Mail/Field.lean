import Mathlib.Data.List.Basic
import Messasy.Lib.Bytes

/-!
# Header fields (`libdgmail.c`)

`get_field` takes the value of a field together and says where the next field begins. A value that
was folded, at any places, with any blanks in front of the continuation lines and with either line
break, comes out as it was (`getField_folded`).
-/

namespace Messasy

open Lib

/-- What is kept of a line: without a `\r` at the end, and without the blanks at its top. -/
def fieldLine (line : Str) : Str :=
  let line := if line.getLast? = some CR then line.dropLast else line
  line.dropWhile isblank

/-- The loop of `get_field`, with a step for each line: the value and the next field, `none` in
its place at the end of the string. -/
def getFieldLoop : Nat → Str → Str → Option (Str × Option Str)
  | 0, _, _ => none
  | k + 1, ptr, rstr =>
    let rstr := rstr ++ fieldLine (ptr.takeWhile (· ≠ LF))
    match ptr.dropWhile (· ≠ LF) with
    | [] => some (rstr, none)
    | _ :: next =>
      if next.head?.any isblank then getFieldLoop k next rstr else some (rstr, some next)

/-- `get_field`. -/
def getField (buftop : Str) : Option (Str × Option Str) := getFieldLoop (buftop.length + 1) buftop []

/-! ## Folded fields -/

/-- A line of a folded field. -/
structure FoldedLine where
  indent : Str
  text : Str
  crlf : Bool

/-- What the line looks like, up to `\n`. -/
def FoldedLine.bytes (l : FoldedLine) : Str := l.indent ++ l.text ++ if l.crlf then [CR] else []

/-- The indent is the line's only leading white space, and its text has no line break. -/
structure FoldedLine.Fine (l : FoldedLine) : Prop where
  indent : ∀ c ∈ l.indent, isblank c = true
  head : l.text.head?.any isblank = false
  last : l.text.getLast? ≠ some CR
  line : LF ∉ l.text

/-- The lines of a field, with what stands behind its last line. -/
def foldField : List FoldedLine → Str → Str
  | [], rest => rest
  | [l], rest => l.bytes ++ rest
  | l :: ls, rest => l.bytes ++ LF :: foldField ls rest

section
variable {l : FoldedLine}

theorem isblank_not_break : ∀ c, isblank c = true → c ≠ CR ∧ c ≠ LF :=
  forall_byte (by decide +kernel)

theorem dropWhile_indent {indent text : Str} (hi : ∀ c ∈ indent, isblank c = true)
    (ht : text.head?.any isblank = false) : (indent ++ text).dropWhile isblank = text := by
  rw [List.dropWhile_append_of_pos hi]
  cases text with
  | nil => rfl
  | cons c text => exact List.dropWhile_cons_of_neg (by simpa using ht)

/-- A line gives its text. -/
theorem FoldedLine.Fine.fieldLine_eq (h : l.Fine) : fieldLine l.bytes = l.text := by
  unfold fieldLine FoldedLine.bytes
  cases hcr : l.crlf with
  | true =>
    simp only [if_true, List.getLast?_concat, List.dropLast_concat]
    exact dropWhile_indent h.indent h.head
  | false =>
    have hlast : (l.indent ++ l.text).getLast? ≠ some CR := by
      rw [List.getLast?_append]
      cases ht : l.text.getLast? with
      | some c => simpa [ht] using h.last
      | none =>
        rw [Option.none_or]
        intro hi
        exact (isblank_not_break _ (h.indent _ (List.mem_of_getLast? hi))).1 rfl
    simp only [Bool.false_eq_true, if_false, List.append_nil, if_neg hlast]
    exact dropWhile_indent h.indent h.head

theorem FoldedLine.Fine.no_lf (h : l.Fine) : ∀ c ∈ l.bytes, c ≠ LF := by
  intro c hc
  rw [FoldedLine.bytes, List.mem_append, List.mem_append] at hc
  rcases hc with (hc | hc) | hc
  · exact (isblank_not_break c (h.indent c hc)).2
  · rintro rfl
    exact h.line hc
  · split at hc
    · obtain rfl := List.mem_singleton.1 hc
      decide
    · cases hc

/-- The first line of what is left. -/
theorem FoldedLine.Fine.split (h : l.Fine) {rest : Str} (hr : rest = [] ∨ rest.head? = some LF) :
    (l.bytes ++ rest).takeWhile (· ≠ LF) = l.bytes ∧
      (l.bytes ++ rest).dropWhile (· ≠ LF) = rest := by
  have hall : ∀ c ∈ l.bytes, decide (c ≠ LF) = true := fun c hc => decide_eq_true (h.no_lf c hc)
  rw [List.takeWhile_append_of_pos hall, List.dropWhile_append_of_pos hall]
  cases rest with
  | nil => exact ⟨List.append_nil _, rfl⟩
  | cons c rest =>
    obtain rfl : c = LF := by simpa using hr
    exact ⟨List.append_nil _, rfl⟩

/-- The loop from a line of the field on; the lines behind it begin with a blank. -/
theorem getFieldLoop_folded {rest : Str} {nadr : Option Str}
    (hrest : (rest = [] ∧ nadr = none) ∨
      ∃ next, rest = LF :: next ∧ next.head?.any isblank = false ∧ nadr = some next) :
    ∀ (ls : List FoldedLine) (l : FoldedLine) (k : Nat) (rstr : Str), ls.length < k →
      (∀ x ∈ l :: ls, x.Fine) → (∀ x ∈ ls, x.indent ≠ []) →
      getFieldLoop k (foldField (l :: ls) rest) rstr =
        some (rstr ++ (l :: ls).flatMap (·.text), nadr)
  | [], l, k + 1, rstr, _, hfine, _ => by
    have hl := hfine l List.mem_cons_self
    have hhead : rest = [] ∨ rest.head? = some LF := by
      rcases hrest with ⟨hnil, -⟩ | ⟨next, rfl, -⟩
      · exact .inl hnil
      · exact .inr rfl
    obtain ⟨htake, hdrop⟩ := hl.split hhead
    unfold getFieldLoop foldField
    dsimp only
    rw [htake, hdrop, hl.fieldLine_eq, List.flatMap_singleton]
    rcases hrest with ⟨rfl, rfl⟩ | ⟨next, rfl, hblank, rfl⟩
    · rfl
    · simp [hblank]
  | l' :: ls, l, k + 1, rstr, hk, hfine, hindent => by
    have hl := hfine l List.mem_cons_self
    obtain ⟨htake, hdrop⟩ := hl.split (.inr (rfl : (LF :: foldField (l' :: ls) rest).head? = some LF))
    -- the next line begins with the first blank of its indent
    have hblank : (foldField (l' :: ls) rest).head?.any isblank = true := by
      have hne := hindent l' List.mem_cons_self
      have hin := (hfine l' (List.mem_cons_of_mem _ List.mem_cons_self)).indent
      cases hi : l'.indent with
      | nil => exact absurd hi hne
      | cons c indent =>
        rw [hi] at hin
        have hc := hin c List.mem_cons_self
        cases ls <;> simp [foldField, FoldedLine.bytes, hi, hc]
    have ih := getFieldLoop_folded hrest ls l' k (rstr ++ l.text) (Nat.lt_of_succ_lt_succ hk)
      (fun x hx => hfine x (List.mem_cons_of_mem _ hx))
      fun x hx => hindent x (List.mem_cons_of_mem _ hx)
    have hfold : foldField (l :: l' :: ls) rest = l.bytes ++ LF :: foldField (l' :: ls) rest := rfl
    rw [hfold]
    unfold getFieldLoop
    simp only [htake, hdrop, hl.fieldLine_eq, hblank, if_true, ih, List.append_assoc]
    rfl

end

/-- The value of a folded field, and the field behind it. -/
theorem getField_fold {l : FoldedLine} {ls : List FoldedLine} {rest : Str} {nadr : Option Str}
    (hrest : (rest = [] ∧ nadr = none) ∨
      ∃ next, rest = LF :: next ∧ next.head?.any isblank = false ∧ nadr = some next)
    (hfine : ∀ x ∈ l :: ls, x.Fine) (hindent : ∀ x ∈ ls, x.indent ≠ []) :
    getField (foldField (l :: ls) rest) = some ((l :: ls).flatMap (·.text), nadr) := by
  refine getFieldLoop_folded hrest ls l _ [] ?_ hfine hindent
  -- there is a line break behind each line but the last one
  have hlen : ∀ (ls : List FoldedLine) (l : FoldedLine),
      ls.length ≤ (foldField (l :: ls) rest).length := by
    intro ls
    induction ls with
    | nil => exact fun _ => Nat.zero_le _
    | cons l' ls ih =>
      intro l
      have := ih l'
      simp only [foldField, List.length_append, List.length_cons] at *
      omega
  exact Nat.lt_succ_of_le (hlen ls l)

/-- **Unfolding.** However a value was cut into lines, with any blanks in front of the continuation
lines and with `\n` or `\r\n`, `get_field` returns the value, and the place of the next field, if
there is one; and it returns on every string. -/
theorem getField_folded : (∀ buftop, ∃ r, getField buftop = some r) ∧
    ∀ (l : FoldedLine) (ls : List FoldedLine), (∀ x ∈ l :: ls, x.Fine) →
      (∀ x ∈ ls, x.indent ≠ []) →
      getField (foldField (l :: ls) []) = some ((l :: ls).flatMap (·.text), none) ∧
      ∀ next : Str, next.head?.any isblank = false →
        getField (foldField (l :: ls) (LF :: next)) =
          some ((l :: ls).flatMap (·.text), some next) := by
  refine ⟨fun buftop => ?_, fun l ls hfine hindent =>
    ⟨getField_fold (.inl ⟨rfl, rfl⟩) hfine hindent,
      fun next hnext => getField_fold (.inr ⟨next, rfl, hnext, rfl⟩) hfine hindent⟩⟩
  -- each step takes a line and its break away
  suffices hall : ∀ (k : Nat) (ptr rstr : Str), ptr.length < k → ∃ r, getFieldLoop k ptr rstr = some r
    from hall _ buftop [] (Nat.lt_succ_self _)
  intro k
  induction k with
  | zero => exact fun ptr _ h => absurd h (Nat.not_lt_zero _)
  | succ k ih =>
    intro ptr rstr hk
    unfold getFieldLoop
    dsimp only
    split
    · exact ⟨_, rfl⟩
    · rename_i c next hdrop
      split
      · refine ih next _ ?_
        have hle := List.length_dropWhile_le (fun c => decide (c ≠ LF)) ptr
        rw [hdrop, List.length_cons] at hle
        omega
      · exact ⟨_, rfl⟩

/-- A value in two lines, in front of another field. -/
theorem getField_folded_two : getField (bytes " one,\r\n\ttwo\nTo: x\n") =
    some (bytes "one,two", some (bytes "To: x\n")) :=
  (getField_folded.2 ⟨bytes " ", bytes "one,", true⟩ [⟨[9], bytes "two", false⟩]
    (by
      intro x hx
      rcases List.mem_cons.1 hx with rfl | hx
      · exact ⟨List.all_eq_true.1 rfl, by decide, by decide, by decide⟩
      · obtain rfl := List.mem_singleton.1 hx
        exact ⟨List.all_eq_true.1 rfl, by decide, by decide, by decide⟩)
    (by simp)).2 (bytes "To: x\n") (by decide)

end Messasy
