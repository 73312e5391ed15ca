import Mathlib.Data.List.Infix

/-!
# The first occurrence of a text

`strstr p s` is where `p` stands in `s` for the first time.
-/

namespace Lib

section
variable {α : Type} [DecidableEq α]

/-- The place of the first `p` in a list. -/
def strstr (p : List α) : List α → Option Nat
  | [] => if p.isEmpty then some 0 else none
  | c :: s => if p.isPrefixOf (c :: s) then some 0 else (strstr p s).map (· + 1)

variable {p s t : List α} {c : α} {i : Nat}

/-- `p` stands at the place. -/
theorem strstr_eq_some : ∀ {s : List α} {i : Nat}, strstr p s = some i →
    ∃ a b, s = a ++ (p ++ b) ∧ a.length = i
  | [], i, h => by
    unfold strstr at h
    split at h
    · rename_i hp
      obtain rfl := Option.some.inj h
      exact ⟨[], [], by rw [List.isEmpty_iff.1 hp]; rfl, rfl⟩
    · cases h
  | c :: s, i, h => by
    unfold strstr at h
    split at h
    · rename_i hp
      obtain rfl := Option.some.inj h
      obtain ⟨b, hb⟩ := List.isPrefixOf_iff_prefix.1 hp
      exact ⟨[], b, hb.symm, rfl⟩
    · obtain ⟨j, hj, rfl⟩ := Option.map_eq_some_iff.1 h
      obtain ⟨a, b, rfl, rfl⟩ := strstr_eq_some hj
      exact ⟨c :: a, b, rfl, rfl⟩

/-- There is no `p`. -/
theorem strstr_eq_none : ∀ {s : List α}, strstr p s = none ↔ ¬ p <:+: s
  | [] => by
    unfold strstr
    rw [List.infix_nil]
    cases p <;> simp
  | c :: s => by
    unfold strstr
    rw [List.infix_cons_iff, not_or, ← strstr_eq_none, ← List.isPrefixOf_iff_prefix]
    split
    · simp [*]
    · simp [*]

/-- A text without the first item of `p` is passed over. -/
theorem strstr_append (h : c ∉ t) (s : List α) :
    strstr (c :: p) (t ++ s) = (strstr (c :: p) s).map (t.length + ·) := by
  induction t with
  | nil => simp
  | cons d t ih =>
    simp only [List.mem_cons, not_or] at h
    obtain ⟨hd, ht⟩ := h
    rw [List.cons_append, strstr, List.isPrefixOf_cons_cons, beq_false_of_ne hd, Bool.false_and,
      if_neg Bool.false_ne_true, ih ht, Option.map_map]
    refine congrArg (fun f => Option.map f _) (funext fun n => ?_)
    simp only [Function.comp_apply, List.length_cons]
    omega

theorem strstr_self (p s : List α) : strstr p (p ++ s) = some 0 := by
  cases hs : p ++ s with
  | nil =>
    obtain ⟨rfl, -⟩ := List.append_eq_nil_iff.1 hs
    rfl
  | cons c t =>
    have hprefix : p.isPrefixOf (c :: t) = true :=
      List.isPrefixOf_iff_prefix.2 (hs ▸ List.prefix_append p s)
    rw [strstr, if_pos hprefix]

/-- The first `p` behind a text without its first item. -/
theorem strstr_behind (h : c ∉ t) (s : List α) :
    strstr (c :: p) (t ++ (c :: p ++ s)) = some t.length := by
  rw [strstr_append h, strstr_self]
  rfl

end

end Lib
