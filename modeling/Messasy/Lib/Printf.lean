import Messasy.Lib.Bytes
import Mathlib.Algebra.Ring.Nat
import Mathlib.Data.List.Count

/-!
# `printf` formats with strings

A format is read into its pieces: bytes of its own, `%%`, and `%s` with its flag `-`, its field
width and its precision. `sprintf` puts one string argument there. Every other conversion, a second
one, and a `%` that ends the format are undefined or take an argument that is not there.
-/

namespace Lib

def INT_MAX : Nat := 2147483647

/-- A conversion of a string: what stands between `%` and `s`. -/
structure Field where
  left : Bool
  width : Nat
  precision : Option Nat
  deriving DecidableEq

/-- Plain `%s`. -/
def Field.plain : Field := ⟨false, 0, none⟩

/-- One more digit of a number that an `int` can hold. -/
def digitOf (n : Nat) (c : Byte) : Option Nat :=
  let n := 10 * n + (c.toNat - (ch '0').toNat)
  if n < INT_MAX then some n else none

/-- One byte between `%` and `s`. The flag `0` is undefined for strings. -/
def Field.next (v : Field) (c : Byte) : Option Field :=
  if c = ch '-' then
    if v.width = 0 ∧ v.precision = none then some { v with left := true } else none
  else if c = ch '.' then
    if v.precision = none then some { v with precision := some 0 } else none
  else if isdigit c then
    match v.precision with
    | some p => (digitOf p c).map fun p => { v with precision := some p }
    | none =>
      if c = ch '0' ∧ v.width = 0 then none
      else (digitOf v.width c).map fun w => { v with width := w }
  else none

/-- The argument in its field: cut to the precision, and filled with blanks to the width. -/
def Field.text (v : Field) (arg : Str) : Str :=
  let s := match v.precision with
    | some p => arg.take p
    | none => arg
  let fill := List.replicate (v.width - s.length) (ch ' ')
  if v.left then s ++ fill else fill ++ s

/-- How long that is, for an argument of `n` bytes. -/
def Field.size (v : Field) (n : Nat) : Nat :=
  max v.width (match v.precision with
    | some p => min p n
    | none => n)

inductive Piece
  | byte (c : Byte)
  | percent
  | string (v : Field)
  deriving DecidableEq

def Piece.isString : Piece → Bool
  | .string _ => true
  | _ => false

def Piece.text (arg : Str) : Piece → Str
  | .byte c => [c]
  | .percent => [ch '%']
  | .string v => v.text arg

def Piece.size (n : Nat) : Piece → Nat
  | .string v => v.size n
  | _ => 1

/-- The pieces of a format; the field is that of a conversion being read. -/
def pieces : Option Field → Str → Option (List Piece)
  | none, [] => some []
  | some _, [] => none
  | none, c :: format =>
    if c = ch '%' then pieces (some .plain) format else (pieces none format).map (.byte c :: ·)
  | some v, c :: format =>
    if c = ch 's' then (pieces none format).map (.string v :: ·)
    else if c = ch '%' then
      if v = .plain then (pieces none format).map (.percent :: ·) else none
    else
      match v.next c with
      | some v => pieces (some v) format
      | none => none

/-- The pieces of a format that one string argument is enough for. -/
def stringFormat (format : Str) : Option (List Piece) :=
  match pieces none format with
  | some ps => if ps.countP Piece.isString ≤ 1 then some ps else none
  | none => none

/-- `sprintf` with one string argument. -/
def sprintf (format arg : Str) : Option Str :=
  (stringFormat format).map fun ps => ps.flatMap (Piece.text arg)

/-- What `sprintf` makes of text without a string: every `%` is one of a pair, and a pair is one
`%`. -/
def undoubled : Str → Option Str
  | [] => some []
  | [c] => if c = ch '%' then none else some [c]
  | c :: d :: text =>
    if c = ch '%' then
      if d = ch '%' then (undoubled text).map (ch '%' :: ·) else none
    else (undoubled (d :: text)).map (c :: ·)

example : sprintf (bytes "a %-5.2s|%%") (bytes "xyz") = some (bytes "a xy   |%") := by decide

section
variable {format text arg : Str} {ps : List Piece} {v : Option Field}

theorem Field.length_text (v : Field) (arg : Str) : (v.text arg).length = v.size arg.length := by
  obtain ⟨left, width, precision⟩ := v
  cases precision <;> cases left <;> simp [Field.text, Field.size] <;> omega

theorem Field.text_plain (arg : Str) : Field.plain.text arg = arg := by
  simp [Field.text, Field.plain]

/-- The length of a piece's text depends on the argument's length only. -/
theorem Piece.length_text (arg : Str) (p : Piece) : (p.text arg).length = p.size arg.length := by
  cases p with
  | string v => exact v.length_text arg
  | _ => rfl

theorem length_flatMap_text (arg : Str) (ps : List Piece) :
    (ps.flatMap (Piece.text arg)).length = (ps.map (Piece.size arg.length)).sum := by
  rw [List.length_flatMap]
  exact congrArg List.sum (List.map_congr_left fun p _ => p.length_text arg)

/-- A field shows bytes of the argument, and blanks. -/
theorem Field.countP_text_le {P : Byte → Bool} (hP : P (ch ' ') = false) (v : Field) (arg : Str) :
    (v.text arg).countP P ≤ arg.countP P := by
  obtain ⟨left, width, precision⟩ := v
  have hfill : ∀ n, (List.replicate n (ch ' ')).countP P = 0 := fun n => by
    rw [List.countP_replicate, if_neg (by simp [hP])]
  have htake : ∀ n, (arg.take n).countP P ≤ arg.countP P := fun n =>
    (List.take_sublist n arg).countP_le
  cases precision <;> cases left <;>
    simp only [Field.text, List.countP_append, hfill, Bool.false_eq_true, if_false, if_true,
      Nat.add_zero, Nat.zero_add, Nat.le_refl, htake]

/-- Every `%` of the format belongs to a conversion. -/
theorem pieces_count_percent (h : pieces v format = some ps) :
    format.count (ch '%') + (if v.isSome then 1 else 0) =
      2 * ps.count .percent + ps.countP Piece.isString := by
  fun_induction pieces v format generalizing ps with
  | case1 =>
    cases h
    rfl
  | case2 => cases h
  | case3 format ih =>
    have := ih h
    rw [List.count_cons_self]
    exact this
  | case4 c format hc ih =>
    obtain ⟨qs, hqs, rfl⟩ := Option.map_eq_some_iff.1 h
    have := ih hqs
    rw [List.count_cons_of_ne hc]
    simpa [Piece.isString] using this
  | case5 v format ih =>
    obtain ⟨qs, hqs, rfl⟩ := Option.map_eq_some_iff.1 h
    have := ih hqs
    have hs : ch 's' ≠ ch '%' := by decide
    rw [List.count_cons_of_ne hs]
    simp [Piece.isString, List.countP_cons] at this ⊢
    omega
  | case6 format hs ih =>
    obtain ⟨qs, hqs, rfl⟩ := Option.map_eq_some_iff.1 h
    have := ih hqs
    simp [Piece.isString] at this ⊢
    omega
  | case7 => cases h
  | case8 v c format hs hc w hw ih =>
    have := ih h
    rw [List.count_cons_of_ne hc]
    exact this
  | case9 => cases h

/-- What the conversions cost: the text has the format's bytes without theirs, and the
argument's. -/
theorem pieces_countP_le {P : Byte → Bool} (hP : P (ch ' ') = false)
    (h : pieces v format = some ps) (arg : Str) :
    (ps.flatMap (Piece.text arg)).countP P +
        (if P (ch '%') then ps.count .percent + ps.countP Piece.isString else 0) +
        (if P (ch 's') then ps.countP Piece.isString else 0) ≤
      format.countP P + (if v.isSome ∧ P (ch '%') then 1 else 0) +
        ps.countP Piece.isString * arg.countP P := by
  fun_induction pieces v format generalizing ps with
  | case1 =>
    cases h
    simp
  | case2 => cases h
  | case3 format ih =>
    have := ih h
    rw [List.countP_cons]
    simpa using this
  | case4 c format hc ih =>
    obtain ⟨qs, hqs, rfl⟩ := Option.map_eq_some_iff.1 h
    have := ih hqs
    simp [Piece.isString, Piece.text, List.countP_cons] at this ⊢
    omega
  | case5 v format ih =>
    obtain ⟨qs, hqs, rfl⟩ := Option.map_eq_some_iff.1 h
    have hrest := ih hqs
    have hfield := v.countP_text_le hP arg
    by_cases hp : P (ch '%') <;> by_cases hs : P (ch 's') <;>
      simp [Piece.isString, Piece.text, List.countP_cons, Nat.add_mul, hp, hs] at hrest ⊢ <;> omega
  | case6 format hs ih =>
    obtain ⟨qs, hqs, rfl⟩ := Option.map_eq_some_iff.1 h
    have hrest := ih hqs
    by_cases hp : P (ch '%') <;>
      simp [Piece.isString, Piece.text, hp] at hrest ⊢ <;> omega
  | case7 => cases h
  | case8 v c format hs hc w hw ih =>
    have := ih h
    rw [List.countP_cons]
    simp at this ⊢
    omega
  | case9 => cases h

theorem stringFormat_eq_some : stringFormat format = some ps ↔
    pieces none format = some ps ∧ ps.countP Piece.isString ≤ 1 := by
  unfold stringFormat
  cases pieces none format with
  | none => simp
  | some qs =>
    simp only [Option.ite_none_right_eq_some, Option.some.injEq]
    constructor
    · rintro ⟨hle, rfl⟩
      exact ⟨rfl, hle⟩
    · rintro ⟨rfl, hle⟩
      exact ⟨hle, rfl⟩

/-- Text without `%` stands for itself. -/
theorem pieces_append {text : Str} (h : ch '%' ∉ text) (format : Str) :
    pieces none (text ++ format) = (pieces none format).map (text.map .byte ++ ·) := by
  induction text with
  | nil => simp
  | cons c text ih =>
    simp only [List.mem_cons, not_or] at h
    rw [List.cons_append, pieces, if_neg (Ne.symm h.1), ih h.2, Option.map_map]
    rfl

theorem flatMap_text_byte (arg text : Str) : (text.map .byte).flatMap (Piece.text arg) = text := by
  induction text with
  | nil => rfl
  | cons c text ih => exact congrArg (c :: ·) ih

/-- One plain `%s`. -/
theorem sprintf_plain {pre post : Str} (hpre : ch '%' ∉ pre) (hpost : ch '%' ∉ post) (arg : Str) :
    sprintf (pre ++ bytes "%s" ++ post) arg = some (pre ++ arg ++ post) := by
  have hbyte : ∀ text : Str, (text.map Piece.byte).countP Piece.isString = 0 := fun text => by
    simp [List.countP_map, Piece.isString, Function.comp_def]
  have hend : pieces none post = some (post.map .byte) := by
    have h := pieces_append hpost []
    simpa [pieces] using h
  have hall : pieces none (pre ++ bytes "%s" ++ post) =
      some (pre.map .byte ++ .string .plain :: post.map .byte) := by
    rw [List.append_assoc, pieces_append hpre]
    show ((pieces none post).map (Piece.string .plain :: ·)).map _ = _
    rw [hend]
    rfl
  have hone : (pre.map Piece.byte ++ Piece.string .plain :: post.map Piece.byte).countP
      Piece.isString ≤ 1 := by
    rw [List.countP_append, List.countP_cons, hbyte, hbyte]
    exact Nat.le_refl 1
  unfold sprintf
  rw [stringFormat_eq_some.2 ⟨hall, hone⟩, Option.map_some, List.flatMap_append,
    List.flatMap_cons, flatMap_text_byte, flatMap_text_byte, List.append_assoc]
  show some (pre ++ (Field.plain.text arg ++ post)) = _
  rw [Field.text_plain]

/-- A digit that is no zero. -/
theorem digitOf_pos {n m : Nat} {c : Byte} (hc : isdigit c = true) (h : digitOf n c = some m)
    (hzero : ¬ (c = ch '0' ∧ n = 0)) : 0 < m := by
  unfold digitOf at h
  obtain ⟨-, h⟩ := Option.ite_none_right_eq_some.1 h
  cases h
  by_cases hn : n = 0
  · have hne : c ≠ ch '0' := fun hc => hzero ⟨hc, hn⟩
    have hle : (ch '0').toNat ≤ c.toNat := by
      simp only [isdigit, Bool.and_eq_true, decide_eq_true_eq] at hc
      exact UInt8.le_iff_toNat_le.1 hc.1
    have htoNat : c.toNat ≠ (ch '0').toNat := fun h => hne (UInt8.toNat_inj.1 h)
    omega
  · omega

/-- A field that has begun is not a plain one any more. -/
theorem Field.next_ne_plain {v w : Field} {c : Byte} (h : v.next c = some w) : w ≠ .plain := by
  rintro rfl
  unfold Field.next at h
  split at h
  · obtain ⟨-, h⟩ := Option.ite_none_right_eq_some.1 h
    exact absurd (congrArg Field.left (Option.some.inj h)) nofun
  split at h
  · obtain ⟨-, h⟩ := Option.ite_none_right_eq_some.1 h
    exact absurd (congrArg Field.precision (Option.some.inj h)) nofun
  split at h
  · rename_i hdigit
    split at h
    · obtain ⟨p, -, hp⟩ := Option.map_eq_some_iff.1 h
      exact absurd (congrArg Field.precision hp) nofun
    · obtain ⟨hzero, h⟩ := Option.ite_none_left_eq_some.1 h
      obtain ⟨w, hw, hplain⟩ := Option.map_eq_some_iff.1 h
      have hpos := digitOf_pos hdigit hw hzero
      have hwidth : w = 0 := congrArg Field.width hplain
      omega
  · cases h

/-- A conversion that is no pair is one of a string. -/
theorem pieces_field : ∀ {text : Str} {v : Field} {ps : List Piece}, v ≠ .plain →
    pieces (some v) text = some ps → ps.any Piece.isString = true
  | [], _, _, _, h => by cases h
  | c :: text, v, ps, hv, h => by
    unfold pieces at h
    rw [if_neg hv] at h
    split at h
    · obtain ⟨qs, -, rfl⟩ := Option.map_eq_some_iff.1 h
      rfl
    · split at h
      · cases h
      · split at h
        · rename_i w hw
          exact pieces_field (Field.next_ne_plain hw) h
        · cases h

/-- Text that is read to its end is read in the same way before other text. -/
theorem pieces_append_of_eq (h : pieces v text = some ps) (format : Str) :
    pieces v (text ++ format) = (pieces none format).map (ps ++ ·) := by
  fun_induction pieces v text generalizing ps with
  | case1 =>
    cases h
    simp
  | case2 => cases h
  | case3 text ih =>
    rw [List.cons_append, pieces, if_pos rfl]
    exact ih h
  | case4 c text hc ih =>
    obtain ⟨qs, hqs, rfl⟩ := Option.map_eq_some_iff.1 h
    rw [List.cons_append, pieces, if_neg hc, ih hqs, Option.map_map]
    rfl
  | case5 v text ih =>
    obtain ⟨qs, hqs, rfl⟩ := Option.map_eq_some_iff.1 h
    rw [List.cons_append, pieces, if_pos rfl, ih hqs, Option.map_map]
    rfl
  | case6 text hs ih =>
    obtain ⟨qs, hqs, rfl⟩ := Option.map_eq_some_iff.1 h
    rw [List.cons_append, pieces, if_neg hs, if_pos rfl, if_pos rfl, ih hqs, Option.map_map]
    rfl
  | case7 => cases h
  | case8 v c text hs hc w hw ih =>
    rw [List.cons_append, pieces, if_neg hs, if_neg hc, hw]
    exact ih h
  | case9 => cases h

theorem undoubled_cons {c : Byte} (hc : c ≠ ch '%') (text : Str) :
    undoubled (c :: text) = (undoubled text).map (c :: ·) := by
  cases text with
  | nil => simp [undoubled, hc]
  | cons d text => rw [undoubled, if_neg hc]

/-- Text without a string is read into pieces that do not depend on an argument. -/
theorem undoubled_eq_some {text t : Str} (h : undoubled text = some t) :
    ∃ ps, pieces none text = some ps ∧ ps.countP Piece.isString = 0 ∧
      ∀ arg, ps.flatMap (Piece.text arg) = t := by
  fun_induction undoubled text generalizing t with
  | case1 =>
    cases h
    exact ⟨[], rfl, rfl, fun _ => rfl⟩
  | case2 => cases h
  | case3 c hc =>
    cases h
    refine ⟨[.byte c], ?_, rfl, fun _ => rfl⟩
    rw [pieces, if_neg hc]
    rfl
  | case4 text ih =>
    obtain ⟨u, hu, rfl⟩ := Option.map_eq_some_iff.1 h
    obtain ⟨ps, hps, hno, htext⟩ := ih hu
    refine ⟨.percent :: ps, ?_, hno, fun arg => congrArg (ch '%' :: ·) (htext arg)⟩
    rw [pieces, if_pos rfl, pieces, if_neg (by decide), if_pos rfl, if_pos rfl, hps]
    rfl
  | case5 => cases h
  | case6 c d text hc ih =>
    obtain ⟨u, hu, rfl⟩ := Option.map_eq_some_iff.1 h
    obtain ⟨ps, hps, hno, htext⟩ := ih hu
    refine ⟨.byte c :: ps, ?_, hno, fun arg => congrArg (c :: ·) (htext arg)⟩
    rw [pieces, if_neg hc, hps]
    rfl

/-- A format without a string is text without a string. -/
theorem undoubled_of_pieces : ∀ {text : Str} {ps : List Piece}, pieces none text = some ps →
    ps.countP Piece.isString = 0 → ∃ t, undoubled text = some t
  | [], _, _, _ => ⟨[], rfl⟩
  | c :: text, ps, h, hno => by
    by_cases hc : c = ch '%'
    · subst hc
      rw [pieces, if_pos rfl] at h
      cases text with
      | nil => cases h
      | cons d text =>
        by_cases hd : d = ch '%'
        · subst hd
          rw [pieces, if_neg (by decide), if_pos rfl, if_pos rfl] at h
          obtain ⟨qs, hqs, rfl⟩ := Option.map_eq_some_iff.1 h
          obtain ⟨t, ht⟩ := undoubled_of_pieces hqs hno
          exact ⟨ch '%' :: t, by rw [undoubled, if_pos rfl, if_pos rfl, ht]; rfl⟩
        · exfalso
          have hstring : ps.any Piece.isString = true := by
            rw [pieces, if_neg hd] at h
            split at h
            · obtain ⟨qs, -, rfl⟩ := Option.map_eq_some_iff.1 h
              rfl
            · split at h
              · rename_i w hw
                exact pieces_field (Field.next_ne_plain hw) h
              · cases h
          obtain ⟨p, hp, hps⟩ := List.any_eq_true.1 hstring
          exact absurd (List.countP_pos_iff.2 ⟨p, hp, hps⟩) (by omega)
    · rw [pieces, if_neg hc] at h
      obtain ⟨qs, hqs, rfl⟩ := Option.map_eq_some_iff.1 h
      obtain ⟨t, ht⟩ := undoubled_of_pieces hqs hno
      exact ⟨c :: t, by rw [undoubled_cons hc, ht]; rfl⟩

/-- A conversion behind text that does not end in `%` is read by itself. -/
theorem pieces_split {pre : Str} (hlast : pre.getLast? ≠ some (ch '%')) {post : Str}
    (hv : pre = [] → v ≠ some .plain) (h : pieces v (pre ++ bytes "%s" ++ post) = some ps) :
    ∃ qs rs, pieces v pre = some qs ∧ pieces none post = some rs ∧
      ps = qs ++ .string .plain :: rs := by
  induction pre generalizing v ps with
  | nil =>
    cases v with
    | none =>
      obtain ⟨rs, hrs, rfl⟩ := Option.map_eq_some_iff.1 h
      exact ⟨[], rs, rfl, hrs, rfl⟩
    | some w =>
      have hw : w ≠ .plain := fun hw => hv rfl (congrArg some hw)
      change pieces (some w) (ch '%' :: (bytes "s" ++ post)) = some ps at h
      rw [pieces, if_neg (by decide), if_pos rfl, if_neg hw] at h
      cases h
  | cons c pre ih =>
    have hlast' : pre.getLast? ≠ some (ch '%') := by
      intro hpre
      cases pre with
      | nil => cases hpre
      | cons d pre => exact hlast (by rw [List.getLast?_cons_cons, hpre])
    -- one piece, and what is read behind it
    have hpiece : ∀ {p : Piece} {ps : List Piece},
        (pieces none (pre ++ bytes "%s" ++ post)).map (p :: ·) = some ps →
        ∃ qs rs, (pieces none pre).map (p :: ·) = some qs ∧ pieces none post = some rs ∧
          ps = qs ++ .string .plain :: rs := by
      intro p ps h
      obtain ⟨ps, hps, rfl⟩ := Option.map_eq_some_iff.1 h
      obtain ⟨qs, rs, hqs, hrs, rfl⟩ := ih hlast' (fun _ => by simp) hps
      exact ⟨p :: qs, rs, by rw [hqs]; rfl, hrs, rfl⟩
    rw [List.cons_append, List.cons_append] at h
    cases v with
    | none =>
      rw [pieces] at h ⊢
      by_cases hc : c = ch '%'
      · rw [if_pos hc] at h ⊢
        refine ih hlast' (fun hpre _ => ?_) h
        apply hlast
        rw [hpre, hc]
        rfl
      · rw [if_neg hc] at h ⊢
        exact hpiece h
    | some w =>
      rw [pieces] at h ⊢
      by_cases hs : c = ch 's'
      · rw [if_pos hs] at h ⊢
        exact hpiece h
      rw [if_neg hs] at h ⊢
      by_cases hc : c = ch '%'
      · rw [if_pos hc] at h ⊢
        by_cases hw : w = .plain
        · rw [if_pos hw] at h ⊢
          exact hpiece h
        · rw [if_neg hw] at h
          cases h
      rw [if_neg hc] at h ⊢
      cases hnext : w.next c with
      | none =>
        rw [hnext] at h
        cases h
      | some w' =>
        rw [hnext] at h
        exact ih hlast' (fun _ hplain => Field.next_ne_plain hnext (Option.some.inj hplain)) h

/-- **One plain `%s`.** It takes the only argument, so around it there is no other string. -/
theorem sprintf_eq_some_iff {pre post arg text : Str} (hlast : pre.getLast? ≠ some (ch '%')) :
    sprintf (pre ++ bytes "%s" ++ post) arg = some text ↔
      ∃ before after, undoubled pre = some before ∧ undoubled post = some after ∧
        text = before ++ arg ++ after := by
  have hplain : Piece.isString (.string .plain) = true := rfl
  unfold sprintf
  constructor
  · intro h
    obtain ⟨ps, hps, rfl⟩ := Option.map_eq_some_iff.1 h
    obtain ⟨hread, hone⟩ := stringFormat_eq_some.1 hps
    obtain ⟨qs, rs, hqs, hrs, rfl⟩ := pieces_split hlast (fun _ => by simp) hread
    have hcount : qs.countP Piece.isString + rs.countP Piece.isString = 0 := by
      rw [List.countP_append, List.countP_cons_of_pos hplain] at hone
      omega
    obtain ⟨before, hbefore⟩ := undoubled_of_pieces hqs (by omega)
    obtain ⟨after, hafter⟩ := undoubled_of_pieces hrs (by omega)
    refine ⟨before, after, hbefore, hafter, ?_⟩
    obtain ⟨qs', hqs', -, hpre⟩ := undoubled_eq_some hbefore
    obtain ⟨rs', hrs', -, hpost⟩ := undoubled_eq_some hafter
    rw [hqs] at hqs'
    rw [hrs] at hrs'
    cases hqs'
    cases hrs'
    rw [List.flatMap_append, List.flatMap_cons, hpre, hpost, List.append_assoc]
    exact congrArg (fun t => before ++ (t ++ after)) (Field.text_plain arg)
  · rintro ⟨before, after, hbefore, hafter, rfl⟩
    obtain ⟨qs, hqs, hnoq, hpre⟩ := undoubled_eq_some hbefore
    obtain ⟨rs, hrs, hnor, hpost⟩ := undoubled_eq_some hafter
    have hread : pieces none (pre ++ bytes "%s" ++ post) =
        some (qs ++ .string .plain :: rs) := by
      rw [List.append_assoc, pieces_append_of_eq hqs]
      change ((pieces none post).map (Piece.string .plain :: ·)).map (qs ++ ·) = _
      rw [hrs]
      rfl
    have hone : (qs ++ Piece.string .plain :: rs).countP Piece.isString ≤ 1 := by
      rw [List.countP_append, List.countP_cons_of_pos hplain]
      omega
    rw [stringFormat_eq_some.2 ⟨hread, hone⟩, Option.map_some, List.flatMap_append,
      List.flatMap_cons, hpre, hpost, List.append_assoc]
    exact congrArg (fun t => some (before ++ (t ++ after))) (Field.text_plain arg)

end

end Lib
