import Mathlib.Data.List.TakeWhile

/-!
# Byte strings

A C string is the list of its bytes before the terminating NUL; a pointer into a string is the
suffix it points to. The character classes and the case folding are those of the C locale.
-/

namespace Lib

abbrev Byte := UInt8

abbrev Str := List Byte

/-- The bytes of an ASCII literal. -/
def bytes (s : String) : Str := s.toList.map fun c => UInt8.ofNat c.toNat

/-- The byte of an ASCII character. -/
def ch (c : Char) : Byte := UInt8.ofNat c.toNat

def CR : Byte := 13

def LF : Byte := 10

theorem forall_byte {P : Byte → Prop} (h : ∀ n : Fin 256, P (UInt8.ofNat n)) : ∀ c, P c := by
  intro c
  have := h ⟨c.toNat, c.toNat_lt⟩
  simpa using this

/-- `isspace`: blank, and the controls from tab to carriage return. -/
def isspace (c : Byte) : Bool := c == 32 || (9 ≤ c && c ≤ 13)

/-- `isblank`. -/
def isblank (c : Byte) : Bool := c == 32 || c == 9

def isdigit (c : Byte) : Bool := ch '0' ≤ c && c ≤ ch '9'

def tolower (c : Byte) : Byte := if 65 ≤ c && c ≤ 90 then c + 32 else c

@[simp] theorem tolower_tolower : ∀ c, tolower (tolower c) = tolower c :=
  forall_byte (by decide +kernel)

theorem isblank_tolower : ∀ c, isblank (tolower c) = isblank c := forall_byte (by decide +kernel)

/-- The lower-cased copy of a string. -/
def lower (s : Str) : Str := s.map tolower

@[simp] theorem lower_nil : lower [] = [] := rfl

@[simp] theorem lower_cons (c : Byte) (s : Str) : lower (c :: s) = tolower c :: lower s := rfl

@[simp] theorem lower_append (s t : Str) : lower (s ++ t) = lower s ++ lower t :=
  List.map_append

@[simp] theorem length_lower (s : Str) : (lower s).length = s.length := List.length_map _

@[simp] theorem lower_lower (s : Str) : lower (lower s) = lower s := by
  simp [lower]

/-- `strcasecmp(s, t) == 0`. -/
def caseEq (s t : Str) : Bool := lower s == lower t

theorem caseEq_iff {s t : Str} : caseEq s t = true ↔ lower s = lower t := by
  simp [caseEq]

@[simp] theorem caseEq_lower_right (s t : Str) : caseEq s (lower t) = caseEq s t := by
  simp [caseEq]

/-- `strncasecmp(name, s, strlen(name)) == 0`. -/
def ncaseEq (name s : Str) : Bool := caseEq name (s.take name.length)

theorem ncaseEq_iff {name s : Str} :
    ncaseEq name s = true ↔ ∃ w t, s = w ++ t ∧ lower w = lower name := by
  unfold ncaseEq
  rw [caseEq_iff]
  constructor
  · exact fun h => ⟨_, _, (List.take_append_drop name.length s).symm, h.symm⟩
  · rintro ⟨w, t, rfl, h⟩
    have hlen : w.length = name.length := by rw [← length_lower w, h, length_lower]
    rw [List.take_left' hlen, h]

/-- `strchr(s, c)`: the suffix of `s` from its first `c` on. -/
def strchr (s : Str) (c : Byte) : Option Str :=
  match s.dropWhile (· != c) with
  | [] => none
  | t => some t

/-- The C string at the start of a buffer. -/
def cstr (buf : Str) : Str := buf.takeWhile (· != 0)

theorem cstr_eq {s : Str} (h : 0 ∉ s) : cstr s = s := by
  refine List.takeWhile_eq_self_iff.2 fun c hc => ?_
  simp only [bne_iff_ne]
  rintro rfl
  exact h hc

theorem cstr_append {s : Str} (h : 0 ∉ s) (r : Str) : cstr (s ++ 0 :: r) = s := by
  have hs : ∀ c ∈ s, (c != 0) = true := fun c hc => by
    rw [bne_iff_ne]
    rintro rfl
    exact h hc
  rw [cstr, List.takeWhile_append_of_pos hs]
  exact List.append_nil s

/-- The text before the first `c`. -/
def before (s : Str) (c : Byte) : Str := s.takeWhile (· != c)

theorem notMem_before (s : Str) (c : Byte) : c ∉ before s c := fun h => by
  simpa using List.mem_takeWhile_imp h

theorem strchr_nil (c : Byte) : strchr [] c = none := rfl

theorem strchr_cons (b : Byte) (s : Str) (c : Byte) :
    strchr (b :: s) c = if b = c then some (b :: s) else strchr s c := by
  by_cases h : b = c <;> simp [strchr, h]

theorem strchr_eq_none {s : Str} {c : Byte} : strchr s c = none ↔ c ∉ s := by
  induction s with
  | nil => simp [strchr_nil]
  | cons b s ih =>
    rw [strchr_cons]
    by_cases h : b = c
    · simp [h]
    · simp [h, ih, Ne.symm h]

/-- The pointer `strchr` returns points at the byte, behind the text before it. -/
theorem strchr_eq_some {s t : Str} {c : Byte} (h : strchr s c = some t) :
    ∃ r, t = c :: r ∧ s = before s c ++ c :: r := by
  induction s with
  | nil => cases h
  | cons b s ih =>
    rw [strchr_cons] at h
    by_cases hb : b = c
    · subst hb
      simp only [↓reduceIte, Option.some.injEq] at h
      exact ⟨s, h.symm, by simp [before]⟩
    · simp only [hb, ↓reduceIte] at h
      obtain ⟨r, rfl, hs⟩ := ih h
      refine ⟨r, rfl, ?_⟩
      have : before (b :: s) c = b :: before s c := by simp [before, hb]
      rw [this, List.cons_append, ← hs]

theorem strchr_append_of_notMem {s : Str} (t : Str) {c : Byte} (h : c ∉ s) :
    strchr (s ++ c :: t) c = some (c :: t) := by
  induction s with
  | nil => simp [strchr_cons]
  | cons b s ih =>
    simp only [List.mem_cons, not_or] at h
    rw [List.cons_append, strchr_cons, if_neg (Ne.symm h.1)]
    exact ih h.2

theorem strchr_isSome {s : Str} {c : Byte} (h : c ∈ s) : ∃ r, strchr s c = some (c :: r) := by
  cases hs : strchr s c with
  | none => exact absurd h (strchr_eq_none.1 hs)
  | some t =>
    obtain ⟨r, rfl, -⟩ := strchr_eq_some hs
    exact ⟨r, rfl⟩

end Lib
