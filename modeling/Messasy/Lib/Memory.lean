/-!
# Memory blocks

A block from `malloc` with its bytes: uninitialised, zero, or a piece of a stored value of type
`V`. A load gives the value back when its pieces are all there, in order. A store and a load at
ranges that do not overlap do not see each other (`load_store_of_disjoint`).
-/

namespace Lib

inductive MemByte (V : Type)
  | undef
  | zero
  | piece (v : V) (i : Nat)
  deriving DecidableEq

/-- A range of a block: its first byte and its length. -/
structure Extent where
  start : Nat
  width : Nat
  deriving DecidableEq, Repr

def Extent.stop (r : Extent) : Nat := r.start + r.width

def Extent.Disjoint (r s : Extent) : Prop := r.stop ≤ s.start ∨ s.stop ≤ r.start

/-- `r` lies inside `s`. -/
def Extent.Inside (r s : Extent) : Prop := s.start ≤ r.start ∧ r.stop ≤ s.stop

theorem Extent.Disjoint.symm {r s : Extent} (h : r.Disjoint s) : s.Disjoint r := Or.symm h

theorem Extent.Disjoint.inside {r s r' s' : Extent} (h : r.Disjoint s) (hr : r'.Inside r)
    (hs : s'.Inside s) : r'.Disjoint s' := by
  unfold Extent.Disjoint Extent.Inside at *
  omega

/-- A range moved by `n` bytes. -/
def Extent.shift (n : Nat) (r : Extent) : Extent := ⟨n + r.start, r.width⟩

theorem Extent.Disjoint.shift {r s : Extent} (h : r.Disjoint s) (n : Nat) :
    (r.shift n).Disjoint (s.shift n) := by
  unfold Extent.Disjoint Extent.stop Extent.shift at *
  simp only
  omega

theorem Extent.Inside.shift {r s : Extent} (h : r.Inside s) (n : Nat) :
    (r.shift n).Inside (s.shift n) := by
  unfold Extent.Inside Extent.stop Extent.shift at *
  simp only
  omega

structure Block (V : Type) where
  size : Nat
  byte : Nat → MemByte V

/-- What a load finds. -/
inductive Loaded (V : Type)
  | undef
  | zero
  | value (v : V)
  deriving DecidableEq

namespace Block

variable {V : Type}

def malloc (size : Nat) : Block V := ⟨size, fun _ => .undef⟩

def realloc (b : Block V) (size : Nat) : Block V :=
  ⟨size, fun i => if i < b.size then b.byte i else .undef⟩

/-- `memset` with zeroes. -/
def memset (b : Block V) (r : Extent) : Block V :=
  { b with byte := fun i => if r.start ≤ i ∧ i < r.stop then .zero else b.byte i }

def store (b : Block V) (r : Extent) (v : V) : Block V :=
  { b with byte := fun i =>
      if r.start ≤ i ∧ i < r.stop then .piece v (i - r.start) else b.byte i }

def load [DecidableEq V] (b : Block V) (r : Extent) : Loaded V :=
  if ∀ i < r.width, b.byte (r.start + i) = .zero then .zero
  else match b.byte r.start with
    | .piece v _ => if ∀ i < r.width, b.byte (r.start + i) = .piece v i then .value v else .undef
    | _ => .undef

@[simp] theorem size_store (b : Block V) (r : Extent) (v : V) : (b.store r v).size = b.size := rfl

@[simp] theorem size_memset (b : Block V) (r : Extent) : (b.memset r).size = b.size := rfl

@[simp] theorem size_realloc (b : Block V) (n : Nat) : (b.realloc n).size = n := rfl

section
variable [DecidableEq V] {b b' : Block V} {r s : Extent}

/-- A load depends on the bytes of its range. -/
theorem load_congr (hw : 0 < r.width)
    (h : ∀ i < r.width, b'.byte (r.start + i) = b.byte (r.start + i)) :
    b'.load r = b.load r := by
  have hfirst : b'.byte r.start = b.byte r.start := h 0 hw
  have hall : ∀ x : Nat → MemByte V, (∀ i < r.width, b'.byte (r.start + i) = x i) ↔
      ∀ i < r.width, b.byte (r.start + i) = x i := by
    intro x
    constructor
    · exact fun hx i hi => (h i hi) ▸ hx i hi
    · exact fun hx i hi => (h i hi).trans (hx i hi)
  unfold load
  rw [hfirst]
  simp only [hall]

theorem load_store_self (hw : 0 < r.width) (v : V) : (b.store r v).load r = .value v := by
  have hbyte : ∀ i < r.width, (b.store r v).byte (r.start + i) = .piece v i := by
    intro i hi
    have hin : r.start ≤ r.start + i ∧ r.start + i < r.stop :=
      ⟨Nat.le_add_right _ _, Nat.add_lt_add_left hi _⟩
    simp only [store, if_pos hin, Nat.add_sub_cancel_left]
  have hzero : ¬ ∀ i < r.width, (b.store r v).byte (r.start + i) = .zero := by
    intro h
    cases (hbyte 0 hw).symm.trans (h 0 hw)
  have hfirst : (b.store r v).byte r.start = .piece v 0 := hbyte 0 hw
  unfold load
  rw [if_neg hzero, hfirst]
  simp only
  rw [if_pos hbyte]

theorem load_store_of_disjoint (hw : 0 < s.width) (h : r.Disjoint s) (v : V) :
    (b.store r v).load s = b.load s := by
  refine load_congr hw fun i hi => ?_
  have hout : ¬ (r.start ≤ s.start + i ∧ s.start + i < r.stop) := by
    unfold Extent.Disjoint Extent.stop at *
    omega
  simp only [store, if_neg hout]

omit [DecidableEq V] in
/-- Stores at ranges that do not overlap may change places. -/
theorem store_comm (h : r.Disjoint s) (v w : V) :
    (b.store r v).store s w = (b.store s w).store r v := by
  unfold store
  congr 1
  funext i
  by_cases hr : r.start ≤ i ∧ i < r.stop
  · have hs : ¬ (s.start ≤ i ∧ i < s.stop) := by
      unfold Extent.Disjoint at h
      omega
    simp only [if_pos hr, if_neg hs]
  · simp only [if_neg hr]

theorem load_memset (h : s.Inside r) : (b.memset r).load s = .zero := by
  have hbyte : ∀ i < s.width, (b.memset r).byte (s.start + i) = .zero := by
    intro i hi
    have hin : r.start ≤ s.start + i ∧ s.start + i < r.stop := by
      unfold Extent.Inside Extent.stop at *
      omega
    simp only [memset, if_pos hin]
  unfold load
  rw [if_pos hbyte]

theorem load_memset_of_disjoint (hw : 0 < s.width) (h : r.Disjoint s) :
    (b.memset r).load s = b.load s := by
  refine load_congr hw fun i hi => ?_
  have hout : ¬ (r.start ≤ s.start + i ∧ s.start + i < r.stop) := by
    unfold Extent.Disjoint Extent.stop at *
    omega
  simp only [memset, if_neg hout]

theorem load_realloc (hw : 0 < s.width) (h : s.stop ≤ b.size) (n : Nat) :
    (b.realloc n).load s = b.load s := by
  refine load_congr hw fun i hi => ?_
  have hin : s.start + i < b.size := Nat.lt_of_lt_of_le (Nat.add_lt_add_left hi _) h
  simp only [realloc, if_pos hin]

end

end Block

end Lib
