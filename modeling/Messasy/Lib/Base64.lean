import Messasy.Lib.Bytes

/-!
# Base 64

Octets in groups of three against sextets in groups of four, over any alphabet of 64 characters. A
group that is not full leaves out its last sextets; padding is not part of the sextets.
-/

namespace Lib

abbrev Sextet := Fin 64

def sextet (n : Nat) : Sextet := ⟨n % 64, Nat.mod_lt n (by decide)⟩

/-- The octets in groups of three. -/
def sextets : Str → List Sextet
  | [] => []
  | [a] => [sextet (a.toNat / 4), sextet (a.toNat % 4 * 16)]
  | [a, b] => [sextet (a.toNat / 4), sextet (a.toNat % 4 * 16 + b.toNat / 16),
      sextet (b.toNat % 16 * 4)]
  | a :: b :: c :: s => sextet (a.toNat / 4) :: sextet (a.toNat % 4 * 16 + b.toNat / 16) ::
      sextet (b.toNat % 16 * 4 + c.toNat / 64) :: sextet c.toNat :: sextets s

def octet1 (x y : Sextet) : Byte := UInt8.ofNat (x.val * 4 + y.val / 16)

def octet2 (y z : Sextet) : Byte := UInt8.ofNat (y.val % 16 * 16 + z.val / 4)

def octet3 (z w : Sextet) : Byte := UInt8.ofNat (z.val % 4 * 64 + w.val)

/-- The sextets in groups of four. -/
def octets : List Sextet → Str
  | x :: y :: z :: w :: l => octet1 x y :: octet2 y z :: octet3 z w :: octets l
  | [x, y, z] => [octet1 x y, octet2 y z]
  | [x, y] => [octet1 x y]
  | [_] => []
  | [] => []

theorem octet_eq {n : Nat} {a : Byte} (h : n = a.toNat) : UInt8.ofNat n = a := by
  subst h
  exact UInt8.ofNat_toNat

theorem octet1_sextets (a : Byte) {m : Nat} (hm : m < 16) :
    octet1 (sextet (a.toNat / 4)) (sextet (a.toNat % 4 * 16 + m)) = a := by
  have ha := a.toNat_lt
  refine octet_eq ?_
  dsimp only [sextet]
  omega

theorem octet2_sextets (b : Byte) {k m : Nat} (hm : m < 4) :
    octet2 (sextet (k % 4 * 16 + b.toNat / 16)) (sextet (b.toNat % 16 * 4 + m)) = b := by
  have hb := b.toNat_lt
  refine octet_eq ?_
  dsimp only [sextet]
  omega

theorem octet3_sextets (c : Byte) (k : Nat) :
    octet3 (sextet (k % 16 * 4 + c.toNat / 64)) (sextet c.toNat) = c := by
  have hc := c.toNat_lt
  refine octet_eq ?_
  dsimp only [sextet]
  omega

/-- **Round trip.** -/
theorem octets_sextets (s : Str) : octets (sextets s) = s := by
  induction s using sextets.induct with
  | case1 => rfl
  | case2 a =>
    rw [sextets, octets, show a.toNat % 4 * 16 = a.toNat % 4 * 16 + 0 from rfl,
      octet1_sextets a (by decide)]
  | case3 a b =>
    have hb : b.toNat / 16 < 16 := by
      have := b.toNat_lt
      omega
    rw [sextets, octets, octet1_sextets a hb, show b.toNat % 16 * 4 = b.toNat % 16 * 4 + 0 from rfl,
      octet2_sextets b (by decide)]
  | case4 a b c s ih =>
    have hb : b.toNat / 16 < 16 := by
      have := b.toNat_lt
      omega
    have hc : c.toNat / 64 < 4 := by
      have := c.toNat_lt
      omega
    rw [sextets, octets, octet1_sextets a hb, octet2_sextets b hc, octet3_sextets, ih]

/-- Four thirds, rounded up. -/
theorem length_sextets (s : Str) : (sextets s).length = (s.length * 4 + 2) / 3 := by
  induction s using sextets.induct with
  | case1 => rfl
  | case2 a => simp [sextets]
  | case3 a b => simp [sextets]
  | case4 a b c s ih =>
    simp only [sextets, List.length_cons, ih]
    omega

/-! ## Text -/

/-- The characters for the sextets. -/
structure Alphabet where
  char : Sextet → Byte
  index : Byte → Option Sextet
  index_char : ∀ x, index (char x) = some x

/-- The text, filled up to whole groups of four. -/
def Alphabet.encode (A : Alphabet) (pad : Byte) (s : Str) : Str :=
  (sextets s).map A.char ++ List.replicate ((4 - (sextets s).length % 4) % 4) pad

theorem Alphabet.length_encode (A : Alphabet) (pad : Byte) (s : Str) :
    (A.encode pad s).length = 4 * ((s.length + 2) / 3) := by
  rw [encode, List.length_append, List.length_map, List.length_replicate, length_sextets]
  omega

theorem Alphabet.mapM_index (A : Alphabet) : ∀ l : List Sextet,
    (l.map A.char).mapM A.index = some l
  | [] => rfl
  | x :: l => by
    rw [List.map_cons, List.mapM_cons, A.index_char, mapM_index A l]
    rfl

end Lib
