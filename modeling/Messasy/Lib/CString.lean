import Messasy.Lib.Bytes

/-!
# C strings in memory

A block of memory is the list of its bytes, and a pointer into it an index. Every access is checked:
the result `none` is an access outside the block. `find` is the loop that steps to the first byte of
a kind; the lemmas give each access on a block that is written as the bytes before the pointer and
those behind it.
-/

namespace Lib

theorem tolower_eq_zero : ∀ c, tolower c = 0 → c = 0 := forall_byte (by decide +kernel)

/-- The lower-cased copy of a C string is one. -/
theorem zero_mem_lower {s : Str} (h : 0 ∈ lower s) : 0 ∈ s := by
  obtain ⟨c, hc, hzero⟩ := List.mem_map.1 h
  exact tolower_eq_zero c hzero ▸ hc

abbrev Mem := List Byte

namespace Mem

def load (m : Mem) (i : Nat) : Option Byte := m[i]?

def store (m : Mem) (i : Nat) (c : Byte) : Option Mem :=
  if i < m.length then some (m.set i c) else none

/-- The bytes from `i` on are read up to the first one that satisfies `p`. -/
def find (m : Mem) (p : Byte → Bool) (i : Nat) : Option Nat :=
  ((m.drop i).findIdx? p).map (i + ·)

/-- The string that `i` points to. -/
def str (m : Mem) (i : Nat) : Option Str :=
  (m.find (· == 0) i).map fun j => (m.drop i).take (j - i)

/-- `strchr`, for a character other than NUL. -/
def strchr (m : Mem) (i : Nat) (c : Byte) : Option (Option Nat) :=
  (m.find (fun d => d == c || d == 0) i).bind fun j =>
    (m.load j).map fun d => if d = c then some j else none

/-- `strncasecmp(name, m + i, strlen(name)) == 0`: it stops at the first difference. -/
def ncaseEq (m : Mem) : Str → Nat → Option Bool
  | [], _ => some true
  | c :: name, i => (m.load i).bind fun d =>
    if tolower c = tolower d then if d = 0 then some true else m.ncaseEq name (i + 1)
    else some false

/-- `realloc`: the new bytes are not initialised, `junk` stands for any of them. -/
def realloc (m : Mem) (junk : Byte) (n : Nat) : Mem :=
  m.take n ++ List.replicate (n - m.length) junk

/-- `memcpy(m + off, src + i, len)`. -/
def memcpy (m : Mem) (off : Nat) (src : Mem) (i len : Nat) : Option Mem :=
  if off + len ≤ m.length ∧ i + len ≤ src.length then
    some (m.take off ++ (src.drop i).take len ++ m.drop (off + len))
  else none

/-- `strncpy`, for `k` more bytes: from `j` of `src` to `i` of `m`. Behind the string its NUL is
copied again and again; a string without room leaves none. -/
def strncpy (src : Mem) : Nat → Nat → Nat → Mem → Option Mem
  | 0, _, _, m => some m
  | k + 1, i, j, m =>
    (src.load j).bind fun c =>
    (m.store i c).bind fun m => strncpy src k (i + 1) (if c = 0 then j else j + 1) m

section
variable {a b s r : List Byte} {c : Byte} {p : Byte → Bool}

theorem load_append (a r : List Byte) (c : Byte) : load (a ++ c :: r) a.length = some c := by
  simp [load]

theorem store_append (a r : List Byte) (c d : Byte) :
    store (a ++ c :: r) a.length d = some (a ++ d :: r) := by
  simp [store]

theorem find_append (hb : ∀ x ∈ b, p x = false) (hc : p c = true) (a r : List Byte) :
    find (a ++ (b ++ c :: r)) p a.length = some (a.length + b.length) := by
  have hidx : (b ++ c :: r).findIdx? p = some b.length := by
    induction b with
    | nil => rw [List.nil_append, List.findIdx?_cons, hc, if_pos rfl]; rfl
    | cons x b ih =>
      have hx : p x = false := hb x List.mem_cons_self
      have ih := ih fun y hy => hb y (List.mem_cons_of_mem x hy)
      simp only [List.cons_append, List.findIdx?_cons, hx, Bool.false_eq_true, if_false, ih,
        Option.map_some, List.length_cons]
  rw [find, List.drop_left, hidx]
  rfl

/-- A pointer into a string reads the rest of it. -/
theorem str_append (hs : 0 ∉ s) (a r : List Byte) : str (a ++ (s ++ 0 :: r)) a.length = some s := by
  have hzero : ∀ x ∈ s, (x == 0) = false := fun x hx => by
    rw [beq_eq_false_iff_ne]
    rintro rfl
    exact hs hx
  rw [str, find_append hzero rfl, Option.map_some, List.drop_left, Nat.add_sub_cancel_left,
    List.take_left]

/-- A block with a NUL holds a string. -/
theorem str_cstr (a r : List Byte) : str (a ++ 0 :: r) 0 = some (cstr a) := by
  by_cases h : 0 ∈ a
  · obtain ⟨s, b, rfl, hs⟩ := List.eq_append_cons_of_mem h
    rw [cstr_append hs, List.append_assoc]
    exact str_append hs [] (b ++ 0 :: r)
  · rw [cstr_eq h]
    exact str_append h [] r

/-- What a pointer to a string finds in memory. -/
theorem str_eq_some {m : Mem} {i : Nat} (h : m.str i = some s) :
    ∃ r, m.drop i = s ++ 0 :: r ∧ 0 ∉ s := by
  obtain ⟨j, hj, rfl⟩ := Option.map_eq_some_iff.1 h
  obtain ⟨k, hk, rfl⟩ := Option.map_eq_some_iff.1 hj
  obtain ⟨hlt, hzero, hbefore⟩ := List.findIdx?_eq_some_iff_getElem.1 hk
  rw [Nat.add_sub_cancel_left]
  refine ⟨(m.drop i).drop (k + 1), ?_, fun hmem => ?_⟩
  · rw [← beq_iff_eq.1 hzero, ← List.drop_eq_getElem_cons hlt, List.take_append_drop]
  · obtain ⟨n, hn, he⟩ := List.mem_take_iff_getElem.1 hmem
    have hb := hbefore n (by omega)
    rw [he] at hb
    exact hb rfl

theorem load_of_str {m : Mem} {i : Nat} (h : m.str i = some s) : m.load i = some (s.headD 0) := by
  obtain ⟨r, hr, -⟩ := str_eq_some h
  have hhead : m.load i = (m.drop i)[0]? := by
    rw [load, List.getElem?_drop, Nat.add_zero]
  rw [hhead, hr]
  cases s <;> rfl

theorem strchr_found (h0 : 0 ∉ b) (hc : c ∉ b) (a r : List Byte) :
    strchr (a ++ (b ++ c :: r)) a.length c = some (some (a.length + b.length)) := by
  have hb : ∀ x ∈ b, (x == c || x == 0) = false := fun x hx => by
    rw [Bool.or_eq_false_iff, beq_eq_false_iff_ne, beq_eq_false_iff_ne]
    exact ⟨fun e => hc (e ▸ hx), fun e => h0 (e ▸ hx)⟩
  rw [strchr, find_append hb (by simp), Option.bind_some, ← List.length_append, ← List.append_assoc,
    load_append, Option.map_some, if_pos rfl]

theorem strchr_absent (h0 : 0 ∉ s) (hs : c ∉ s) (hc : c ≠ 0) (a r : List Byte) :
    strchr (a ++ (s ++ 0 :: r)) a.length c = some none := by
  have hb : ∀ x ∈ s, (x == c || x == 0) = false := fun x hx => by
    rw [Bool.or_eq_false_iff, beq_eq_false_iff_ne, beq_eq_false_iff_ne]
    exact ⟨fun e => hs (e ▸ hx), fun e => h0 (e ▸ hx)⟩
  rw [strchr, find_append hb (by simp), Option.bind_some, ← List.length_append, ← List.append_assoc,
    load_append, Option.map_some, if_neg (Ne.symm hc)]

/-- A piece of another block goes behind the bytes before `off`. -/
theorem memcpy_append {s t piece : Str} (ht : t.length = piece.length) (a b r : List Byte) :
    memcpy (s ++ t ++ r) s.length (a ++ (piece ++ b)) a.length piece.length =
      some (s ++ piece ++ r) := by
  have hbound : s.length + piece.length ≤ (s ++ t ++ r).length ∧
      a.length + piece.length ≤ (a ++ (piece ++ b)).length := by
    simp only [List.length_append, ht]
    omega
  have htake : (s ++ t ++ r).take s.length = s := by rw [List.append_assoc, List.take_left]
  have hdrop : (s ++ t ++ r).drop (s.length + piece.length) = r := by
    rw [← ht, ← List.length_append, List.drop_left]
  rw [memcpy, if_pos hbound, htake, hdrop, List.drop_left, List.take_left]

/-- `strncpy` stores `k` bytes: as many of the string as there is room for, and zeros. -/
theorem strncpy_append : ∀ (k : Nat) (a s r done t : Str), 0 ∉ s → k ≤ t.length →
    strncpy (a ++ (s ++ 0 :: r)) k done.length a.length (done ++ t) =
      some (done ++ (s.take k ++ List.replicate (k - s.length) 0) ++ t.drop k)
  | 0, a, s, r, done, t, _, _ => by simp [strncpy]
  | k + 1, a, s, r, done, [], _, hk => absurd hk (Nat.not_succ_le_zero k)
  | k + 1, a, [], r, done, d :: t, h0, hk => by
    have hput : done ++ 0 :: t = (done ++ [0]) ++ t := by simp
    have hnext : done.length + 1 = (done ++ [0]).length := by simp
    rw [strncpy, List.nil_append, load_append, Option.bind_some, store_append, Option.bind_some,
      if_pos rfl, hput, hnext, ← List.nil_append (0 :: r),
      strncpy_append k a [] r (done ++ [0]) t h0 (Nat.le_of_succ_le_succ hk)]
    simp [List.replicate_succ]
  | k + 1, a, c :: s, r, done, d :: t, h0, hk => by
    simp only [List.mem_cons, not_or] at h0
    have hput : done ++ c :: t = (done ++ [c]) ++ t := by simp
    have hnext : done.length + 1 = (done ++ [c]).length := by simp
    have hsrc : a ++ c :: (s ++ 0 :: r) = (a ++ [c]) ++ (s ++ 0 :: r) := by simp
    have hread : a.length + 1 = (a ++ [c]).length := by simp
    rw [strncpy, List.cons_append, load_append, Option.bind_some, store_append, Option.bind_some,
      if_neg (Ne.symm h0.1), hput, hnext, hsrc, hread,
      strncpy_append k (a ++ [c]) s r (done ++ [c]) t h0.2 (Nat.le_of_succ_le_succ hk)]
    simp

/-! ## Accesses before a NUL -/

/-- The first byte of a kind that stands in the block. -/
theorem find_le {m : Mem} {i j : Nat} {d : Byte} (hj : m[j]? = some d) (hd : p d = true)
    (hij : i ≤ j) : ∃ k c, m.find p i = some k ∧ i ≤ k ∧ k ≤ j ∧ m[k]? = some c ∧ p c = true := by
  have hdrop : ∀ n : Nat, (m.drop i)[n]? = m[i + n]? := fun n => List.getElem?_drop
  have hmem : (m.drop i)[j - i]? = some d := by rw [hdrop, Nat.add_sub_cancel' hij, hj]
  cases hf : (m.drop i).findIdx? p with
  | none =>
    rw [List.findIdx?_eq_none_iff.1 hf d (List.mem_of_getElem? hmem)] at hd
    cases hd
  | some n =>
    obtain ⟨hlt, hp, hbefore⟩ := List.findIdx?_eq_some_iff_getElem.1 hf
    refine ⟨i + n, (m.drop i)[n], by rw [find, hf]; rfl, Nat.le_add_right i n, ?_, ?_, hp⟩
    · by_contra hlate
      obtain ⟨hlt', heq⟩ := List.getElem?_eq_some_iff.1 hmem
      have hno := hbefore (j - i) (by omega)
      rw [heq, hd] at hno
      exact hno rfl
    · rw [← hdrop, List.getElem?_eq_getElem hlt]

/-- A kind of byte that the block does not have. -/
theorem find_eq_none {m : Mem} (h : ∀ c ∈ m, p c = false) (i : Nat) : m.find p i = none := by
  have hdrop : (m.drop i).findIdx? p = none :=
    List.findIdx?_eq_none_iff.2 fun c hc => h c (List.mem_of_mem_drop hc)
  rw [find, hdrop, Option.map_none]

/-- `strchr` stops at the NUL at the latest. -/
theorem strchr_le {m : Mem} {i j : Nat} (hj : m[j]? = some 0) (hij : i ≤ j) (hc : c ≠ 0) :
    m.strchr i c = some none ∨
      ∃ k, m.strchr i c = some (some k) ∧ i ≤ k ∧ k < j ∧ m[k]? = some c := by
  obtain ⟨k, d, hfind, hik, hkj, hk, hd⟩ := find_le (p := fun d => d == c || d == 0) hj (by simp) hij
  rw [strchr, hfind, Option.bind_some, load, hk, Option.map_some]
  by_cases hdc : d = c
  · subst hdc
    refine .inr ⟨k, by rw [if_pos rfl], hik, ?_, hk⟩
    rcases Nat.lt_or_eq_of_le hkj with hlt | rfl
    · exact hlt
    · rw [hj] at hk
      exact absurd (Option.some.inj hk).symm hc
  · exact .inl (by rw [if_neg hdc])

/-- A comparison with a string in memory stops at its NUL at the latest. -/
theorem ncaseEq_append : ∀ (name a s r : Str), 0 ∉ name → 0 ∉ s →
    ncaseEq (a ++ (s ++ 0 :: r)) name a.length = some (Lib.ncaseEq name s)
  | [], a, s, r, _, _ => by simp [ncaseEq, Lib.ncaseEq, caseEq]
  | c :: name, a, [], r, hn, _ => by
    have hc : tolower c ≠ tolower 0 := fun h => hn (tolower_eq_zero c h ▸ List.mem_cons_self)
    rw [ncaseEq, List.nil_append, load_append, Option.bind_some, if_neg hc]
    simp [Lib.ncaseEq, caseEq]
  | c :: name, a, d :: s, r, hn, hs => by
    have hd : d ≠ 0 := fun h => hs (h ▸ List.mem_cons_self)
    rw [ncaseEq, List.cons_append, load_append, Option.bind_some, if_neg hd]
    by_cases hcd : tolower c = tolower d
    · have hassoc : a ++ d :: (s ++ 0 :: r) = (a ++ [d]) ++ (s ++ 0 :: r) := by simp
      have hlen : a.length + 1 = (a ++ [d]).length := by simp
      rw [if_pos hcd, hassoc, hlen, ncaseEq_append name (a ++ [d]) s r
        (fun h => hn (List.mem_cons_of_mem c h)) (fun h => hs (List.mem_cons_of_mem d h))]
      simp [Lib.ncaseEq, caseEq, hcd]
    · rw [if_neg hcd]
      simp [Lib.ncaseEq, caseEq, hcd]

end

end Mem

end Lib
