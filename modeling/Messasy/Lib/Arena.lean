import Mathlib.Data.List.Basic
import Mathlib.Logic.Function.Basic

/-!
# Arenas

A heap for objects of one type. `alloc` hands out addresses in order and never one twice, so a
released address stays dead; reading, writing or releasing a dead address has no result (`none`),
which stands for undefined behaviour.
-/

namespace Lib

/-- Live objects by address; no address from `next` on has been handed out. -/
@[ext]
structure Arena (α : Type) where
  cell : Nat → Option α
  next : Nat
  bound : ∀ p, next ≤ p → cell p = none

namespace Arena

variable {α : Type}

def empty : Arena α := ⟨fun _ => none, 0, fun _ _ => rfl⟩

theorem lt_next {h : Arena α} {p : Nat} {a : α} (hp : h.cell p = some a) : p < h.next := by
  rcases Nat.lt_or_ge p h.next with hlt | hge
  · exact hlt
  · rw [h.bound p hge] at hp; cases hp

/-- A new object; its address is `h.next`. -/
def alloc (h : Arena α) (a : α) : Arena α where
  cell := Function.update h.cell h.next (some a)
  next := h.next + 1
  bound := fun p hp => by
    rw [Function.update_of_ne (by omega)]
    exact h.bound p (by omega)

/-- Overwrite the object at `p`; nothing happens at a dead address. -/
def put (h : Arena α) (p : Nat) (a : α) : Arena α where
  cell := fun q => if q = p then (h.cell p).map fun _ => a else h.cell q
  next := h.next
  bound := fun q hq => by
    split
    · rename_i e; subst e; rw [h.bound q hq]; rfl
    · exact h.bound q hq

def drop (h : Arena α) (p : Nat) : Arena α where
  cell := Function.update h.cell p none
  next := h.next
  bound := fun q hq => by
    by_cases e : q = p
    · subst e; simp
    · rw [Function.update_of_ne e]; exact h.bound q hq

/-- `free`: undefined on a dead address. -/
def free (h : Arena α) (p : Nat) : Option (Arena α) := (h.cell p).map fun _ => h.drop p

@[simp] theorem cell_alloc_self (h : Arena α) (a : α) : (h.alloc a).cell h.next = some a := by
  simp [alloc]

theorem cell_alloc_of_ne {h : Arena α} {a : α} {p : Nat} (hp : p ≠ h.next) :
    (h.alloc a).cell p = h.cell p := by
  simp [alloc, hp]

theorem cell_alloc_of_lt {h : Arena α} {a : α} {p : Nat} (hp : p < h.next) :
    (h.alloc a).cell p = h.cell p :=
  cell_alloc_of_ne (Nat.ne_of_lt hp)

@[simp] theorem next_alloc (h : Arena α) (a : α) : (h.alloc a).next = h.next + 1 := rfl

@[simp] theorem next_put (h : Arena α) (p : Nat) (a : α) : (h.put p a).next = h.next := rfl

@[simp] theorem next_drop (h : Arena α) (p : Nat) : (h.drop p).next = h.next := rfl

theorem cell_put_self {h : Arena α} {p : Nat} {a b : α} (hp : h.cell p = some b) :
    (h.put p a).cell p = some a := by
  simp [put, hp]

theorem cell_put_of_ne {h : Arena α} {p q : Nat} {a : α} (hq : q ≠ p) :
    (h.put p a).cell q = h.cell q := by
  simp [put, hq]

/-- Writing does not bring a dead address back. -/
theorem cell_put_dead {h : Arena α} {p q : Nat} {a : α} (hq : h.cell q = none) :
    (h.put p a).cell q = none := by
  by_cases e : q = p
  · subst e; simp [put, hq]
  · rw [cell_put_of_ne e, hq]

/-- Only the last of several writes to one address counts. -/
@[simp] theorem put_put (h : Arena α) (p : Nat) (a b : α) : (h.put p a).put p b = h.put p b := by
  ext1
  · funext q
    by_cases e : q = p
    · subst e; simp [put, Function.comp_def]
    · simp [put, e]
  · rfl

@[simp] theorem cell_drop_self (h : Arena α) (p : Nat) : (h.drop p).cell p = none := by
  simp [drop]

@[simp] theorem drop_put (h : Arena α) (p : Nat) (a : α) : (h.put p a).drop p = h.drop p := by
  ext1
  · funext q
    by_cases e : q = p
    · subst e; simp [drop]
    · simp [drop, put, e]
  · rfl

theorem cell_drop_of_ne {h : Arena α} {p q : Nat} (hq : q ≠ p) :
    (h.drop p).cell q = h.cell q := by
  simp [drop, hq]

theorem cell_drop_dead {h : Arena α} {p q : Nat} (hq : h.cell q = none) :
    (h.drop p).cell q = none := by
  by_cases e : q = p
  · subst e; simp
  · rw [cell_drop_of_ne e, hq]

/-! ### The live objects behind an operation -/

section
variable {h : Arena α} {p q : Nat} {a b d : α}

theorem cell_alloc_cases (hq : (h.alloc a).cell q = some d) :
    (q = h.next ∧ d = a) ∨ (q ≠ h.next ∧ h.cell q = some d) := by
  by_cases e : q = h.next
  · subst e
    rw [cell_alloc_self] at hq
    exact .inl ⟨rfl, (Option.some.inj hq).symm⟩
  · rw [cell_alloc_of_ne e] at hq
    exact .inr ⟨e, hq⟩

theorem cell_put_cases (hp : h.cell p = some b) (hq : (h.put p a).cell q = some d) :
    (q = p ∧ d = a) ∨ (q ≠ p ∧ h.cell q = some d) := by
  by_cases e : q = p
  · subst e
    rw [cell_put_self hp] at hq
    exact .inl ⟨rfl, (Option.some.inj hq).symm⟩
  · rw [cell_put_of_ne e] at hq
    exact .inr ⟨e, hq⟩

theorem cell_put_eq_none (hp : h.cell p = some b) : (h.put p a).cell q = none ↔ h.cell q = none := by
  by_cases e : q = p
  · subst e
    simp [cell_put_self hp, hp]
  · rw [cell_put_of_ne e]

theorem cell_drop_cases (hq : (h.drop p).cell q = some d) : q ≠ p ∧ h.cell q = some d := by
  by_cases e : q = p
  · subst e
    rw [cell_drop_self] at hq
    cases hq
  · rw [cell_drop_of_ne e] at hq
    exact ⟨e, hq⟩

end

theorem free_of_live {h : Arena α} {p : Nat} {a : α} (hp : h.cell p = some a) :
    h.free p = some (h.drop p) := by
  simp [free, hp]

end Arena

end Lib
