import Messasy.Lib.Bytes

/-!
# Templates

A template is a text in which `%` and a character stand for a replacement text. `expand` replaces
them from left to right and does not look into a replacement.
-/

namespace Lib

/-- The text with its replacements: `%%` is a percent sign, and a `%` at the end or in front of a
character without a replacement stands for itself. -/
def expand (sub : Byte → Option Str) : Str → Str
  | [] => []
  | [c] => [c]
  | c :: d :: s =>
    if c = ch '%' then
      if d = ch '%' then ch '%' :: expand sub s
      else
        match sub d with
        | some r => r ++ expand sub s
        | none => c :: d :: expand sub s
    else c :: expand sub (d :: s)

section
variable {sub : Byte → Option Str} {c d b : Byte} {s t r : Str}

theorem expand_cons_of_ne (h : c ≠ ch '%') (s : Str) : expand sub (c :: s) = c :: expand sub s := by
  cases s with
  | nil => rfl
  | cons d s => simp only [expand, if_neg h]

theorem expand_percent (s : Str) :
    expand sub (ch '%' :: ch '%' :: s) = ch '%' :: expand sub s := by
  simp only [expand, if_true]

theorem expand_some (h : d ≠ ch '%') (hr : sub d = some r) (s : Str) :
    expand sub (ch '%' :: d :: s) = r ++ expand sub s := by
  simp only [expand, if_true, if_neg h, hr]

theorem expand_none (h : d ≠ ch '%') (hr : sub d = none) (s : Str) :
    expand sub (ch '%' :: d :: s) = ch '%' :: d :: expand sub s := by
  simp only [expand, if_true, if_neg h, hr]

/-- A `%` and the character behind it. -/
theorem expand_pair (d : Byte) (s : Str) : expand sub (ch '%' :: d :: s) =
    (if d = ch '%' then [ch '%'] else (sub d).getD [ch '%', d]) ++ expand sub s := by
  by_cases hd : d = ch '%'
  · rw [if_pos hd, hd, expand_percent, List.singleton_append]
  · rw [if_neg hd]
    cases hr : sub d with
    | none => rw [expand_none hd hr, Option.getD_none]; rfl
    | some r => rw [expand_some hd hr, Option.getD_some]

/-- The text in front of the first `%` is copied. -/
theorem expand_append_of_notMem (h : ch '%' ∉ s) (t : Str) :
    expand sub (s ++ t) = s ++ expand sub t := by
  induction s with
  | nil => rfl
  | cons c s ih =>
    simp only [List.mem_cons, not_or] at h
    rw [List.cons_append, expand_cons_of_ne (Ne.symm h.1), ih h.2, List.cons_append]

/-- Every byte comes from the template or from a replacement. -/
theorem mem_expand (h : b ∈ expand sub s) : b ∈ s ∨ ∃ d r, sub d = some r ∧ b ∈ r := by
  fun_induction expand sub s with
  | case1 => exact .inl h
  | case2 c => exact .inl h
  | case3 s ih =>
    rcases List.mem_cons.1 h with rfl | h
    · exact .inl (by simp)
    · exact (ih h).imp_left fun h => by simp [h]
  | case4 d s hd r hr ih =>
    rcases List.mem_append.1 h with h | h
    · exact .inr ⟨d, r, hr, h⟩
    · exact (ih h).imp_left fun h => by simp [h]
  | case5 d s hd hr ih =>
    simp only [List.mem_cons] at h
    rcases h with rfl | rfl | h
    · exact .inl (by simp)
    · exact .inl (by simp)
    · exact (ih h).imp_left fun h => by simp [h]
  | case6 c d s hc ih =>
    rcases List.mem_cons.1 h with rfl | h
    · exact .inl (by simp)
    · exact (ih h).imp_left fun h => by simpa using Or.inr h

/-- **A byte that no replacement has, and that has no replacement itself, keeps its number.** -/
theorem count_expand (hb : b ≠ ch '%') (hsub : sub b = none)
    (hr : ∀ d r, sub d = some r → b ∉ r) (s : Str) : (expand sub s).count b = s.count b := by
  fun_induction expand sub s with
  | case1 => rfl
  | case2 c => rfl
  | case3 s ih =>
    rw [List.count_cons_of_ne (Ne.symm hb), List.count_cons_of_ne (Ne.symm hb),
      List.count_cons_of_ne (Ne.symm hb), ih]
  | case4 d s hd r hsome ih =>
    have hbd : d ≠ b := by
      rintro rfl
      rw [hsub] at hsome
      cases hsome
    rw [List.count_append, List.count_eq_zero_of_not_mem (hr d r hsome), ih,
      List.count_cons_of_ne (Ne.symm hb), List.count_cons_of_ne hbd, Nat.zero_add]
  | case5 d s hd hnone ih => simp only [List.count_cons, ih]
  | case6 c d s hc ih => simp only [List.count_cons, ih]

end

/-- What a text expands to, rule by rule: a replacement is put down as it is. -/
inductive Expands (sub : Byte → Option Str) : Str → Str → Prop
  | nil : Expands sub [] []
  | text {c : Byte} {s t : Str} : c ≠ ch '%' → Expands sub s t → Expands sub (c :: s) (c :: t)
  | percent {s t : Str} : Expands sub s t → Expands sub (ch '%' :: ch '%' :: s) (ch '%' :: t)
  | entry {d : Byte} {r s t : Str} : d ≠ ch '%' → sub d = some r → Expands sub s t →
      Expands sub (ch '%' :: d :: s) (r ++ t)
  | noEntry {d : Byte} {s t : Str} : d ≠ ch '%' → sub d = none → Expands sub s t →
      Expands sub (ch '%' :: d :: s) (ch '%' :: d :: t)
  | trailing : Expands sub [ch '%'] [ch '%']

theorem expand_expands (sub : Byte → Option Str) (s : Str) : Expands sub s (expand sub s) := by
  fun_induction expand sub s with
  | case1 => exact .nil
  | case2 c =>
    by_cases hc : c = ch '%'
    · exact hc ▸ .trailing
    · exact .text hc .nil
  | case3 s ih => exact .percent ih
  | case4 d s hd r hr ih => exact .entry hd hr ih
  | case5 d s hd hr ih => exact .noEntry hd hr ih
  | case6 c d s hc ih => exact .text hc ih

/-- A text expands to one text only. -/
theorem expands_iff {sub : Byte → Option Str} {s t : Str} :
    Expands sub s t ↔ t = expand sub s := by
  refine ⟨fun h => ?_, fun h => h ▸ expand_expands sub s⟩
  induction h with
  | nil => rfl
  | text hc _ ih => rw [expand_cons_of_ne hc, ih]
  | percent _ ih => rw [expand_percent, ih]
  | entry hd hr _ ih => rw [expand_some hd hr, ih]
  | noEntry hd hr _ ih => rw [expand_none hd hr, ih]
  | trailing => rfl

/-! ## The places of one character -/

/-- The text with the places where `%m` stands (`none`); the other directives are carried out as
without a replacement. -/
def places (m : Byte) : Str → List (Option Byte)
  | [] => []
  | [c] => [some c]
  | c :: d :: s =>
    if c = ch '%' then
      if d = ch '%' then some (ch '%') :: places m s
      else if d = m then none :: places m s
      else some c :: some d :: places m s
    else some c :: places m (d :: s)

/-- With one replacement the expansion puts it in these places. -/
theorem expand_places {sub : Byte → Option Str} {m : Byte} {r : Str}
    (hsub : ∀ d, sub d = if d = m then some r else none) (s : Str) :
    expand sub s = (places m s).flatMap fun
      | none => r
      | some b => [b] := by
  fun_induction expand sub s with
  | case1 => rfl
  | case2 c => rfl
  | case3 s ih =>
    rw [places, if_pos rfl, if_pos rfl, List.flatMap_cons, ih]
    rfl
  | case4 d s hd r' hr ih =>
    obtain ⟨rfl, rfl⟩ : d = m ∧ r = r' := by simpa [hsub] using hr
    rw [places, if_pos rfl, if_neg hd, if_pos rfl, List.flatMap_cons, ih]
  | case5 d s hd hr ih =>
    have hdm : d ≠ m := by simpa [hsub] using hr
    rw [places, if_pos rfl, if_neg hd, if_neg hdm, List.flatMap_cons, List.flatMap_cons, ih]
    rfl
  | case6 c d s hc ih =>
    rw [places, if_neg hc, List.flatMap_cons, ih]
    rfl

end Lib
