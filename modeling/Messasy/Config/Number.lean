import Mathlib.Algebra.Group.Int.Defs
import Messasy.Config.Load

/-!
# Numbers in the configuration (`libdgconfig.c`)

The way of a number from its line to its entry: `strtol` stops at the limits of a `long`, the result
becomes an `unsigned int`, the tests against `LONG_MAX` never hold of one, and the check gets it as
an `int`. A number far outside the range of the check can therefore come back into it
(`readLines_number_iff`).
-/

namespace Messasy

open Lib

/-! ## Written numbers -/

inductive Sign
  | none
  | plus
  | minus
  deriving DecidableEq, Repr

def Sign.text : Sign → Str
  | .none => []
  | .plus => [ch '+']
  | .minus => [ch '-']

/-- A decimal number as it is written. -/
structure Numeral where
  sign : Sign
  digits : Str
  ne_nil : digits ≠ []
  digit : ∀ c ∈ digits, isdigit c = true

def Numeral.text (n : Numeral) : Str := n.sign.text ++ n.digits

/-- The number, whatever its size. -/
def Numeral.value (n : Numeral) : Int :=
  if n.sign = .minus then -(decimal n.digits) else decimal n.digits

/-- The nearest `long`. -/
def saturate (n : Int) : Int := max (-LONG_MAX - 1) (min LONG_MAX n)

section
variable {blanks : Str}

theorem isdigit_solid : ∀ c, isdigit c = true → isspace c = false ∧ isblank c = false ∧
    c ≠ ch '-' ∧ c ≠ ch '+' ∧ c ≠ 0 := forall_byte (by decide +kernel)

theorem isblank_notDigit : ∀ c, isblank c = true → isdigit c = false :=
  forall_byte (by decide +kernel)

/-- The digits end at the blanks. -/
theorem Numeral.takeWhile_digits (n : Numeral) (hblanks : ∀ c ∈ blanks, isblank c = true) :
    (n.digits ++ blanks).takeWhile isdigit = n.digits ∧
      (n.digits ++ blanks).dropWhile isdigit = blanks := by
  cases blanks with
  | nil =>
    rw [List.append_nil]
    exact ⟨List.takeWhile_eq_self_iff.2 n.digit, List.dropWhile_eq_nil_iff.2 n.digit⟩
  | cons b blanks =>
    have hb := isblank_notDigit b (hblanks b List.mem_cons_self)
    constructor
    · rw [List.takeWhile_append_of_pos n.digit, List.takeWhile_cons_of_neg (by simp [hb]),
        List.append_nil]
    · rw [List.dropWhile_append_of_pos n.digit, List.dropWhile_cons_of_neg (by simp [hb])]

/-- `strtol` on a number: the nearest `long`, and the blanks. -/
theorem strtol_numeral (n : Numeral) (hblanks : ∀ c ∈ blanks, isblank c = true) :
    (strtol (n.text ++ blanks)).1 = saturate n.value ∧
      (strtol (n.text ++ blanks)).2.2 = blanks := by
  obtain ⟨htake, hdrop⟩ := n.takeWhile_digits hblanks
  obtain ⟨c, digits, hdigits⟩ := List.exists_cons_of_ne_nil n.ne_nil
  obtain ⟨hspace, -, hminus, hplus, -⟩ := isdigit_solid c (n.digit c (hdigits ▸ List.mem_cons_self))
  have hhead : (n.text ++ blanks).head? = some (n.sign.text.headD c) := by
    rw [Numeral.text, hdigits]
    cases n.sign <;> rfl
  have hstart : (n.text ++ blanks).dropWhile isspace = n.text ++ blanks := by
    rw [Numeral.text, hdigits]
    cases n.sign with
    | none => exact List.dropWhile_cons_of_neg (by simp [hspace])
    | plus => rfl
    | minus => rfl
  have hminusSign : (n.text ++ blanks).head? = some (ch '-') ↔ n.sign = .minus := by
    rw [hhead]
    cases n.sign <;> simp [Sign.text, hminus]
    decide
  have hbody : (if (n.text ++ blanks).head? = some (ch '-') ∨ (n.text ++ blanks).head? = some (ch '+')
      then (n.text ++ blanks).drop 1 else n.text ++ blanks) = n.digits ++ blanks := by
    rw [hhead, Numeral.text]
    cases n.sign with
    | none => exact if_neg (by simp [Sign.text, hminus, hplus])
    | plus => rfl
    | minus => rfl
  unfold strtol
  simp only [hstart, hbody, htake, hdrop, if_neg n.ne_nil]
  have hvalue : (if (n.text ++ blanks).head? = some (ch '-') then -(decimal n.digits : Int)
      else decimal n.digits) = n.value := by simp only [hminusSign, Numeral.value]
  rw [hvalue, saturate, LONG_MAX]
  split
  · exact ⟨by omega, rfl⟩
  · split
    · exact ⟨by omega, rfl⟩
    · exact ⟨by omega, rfl⟩

/-! ## The conversions -/

/-- The `unsigned int` of a `long`. -/
theorem toUnsigned_toNat (m : Int) : ((toUnsigned m).toNat : Int) = m % 4294967296 := by
  have hnat : (toUnsigned m).toNat = (m % 4294967296).toNat := BitVec.toNat_ofInt m
  rw [hnat]
  omega

/-- The `int` of this `unsigned int`. -/
theorem toSigned_toUnsigned (m : Int) : toSigned (toUnsigned m) = m.bmod 4294967296 :=
  BitVec.toInt_ofInt m

/-- The least and the greatest number that a check allows. -/
def IntCheck.range : IntCheck → Int × Int
  | .isPort => (0, 65535)
  | .isTimeout => (1, 2147483647)
  | .isCommandmaxclients => (1, 65535)
  | .isBoolean => (0, 1)

theorem IntCheck.run_eq_none {c : IntCheck} {v : Int} :
    c.run v = none ↔ c.range.1 ≤ v ∧ v ≤ c.range.2 := by
  have hite : ∀ (p : Prop) [Decidable p] (e : Str), (if p then some e else none) = none ↔ ¬ p :=
    fun p _ e => by by_cases h : p <;> simp [h]
  cases c with
  | isPort => exact (hite _ _).trans (by simp only [range]; omega)
  | isTimeout => exact (hite _ _).trans (by simp only [range]; omega)
  | isCommandmaxclients => exact (hite _ _).trans (by simp only [range]; omega)
  | isBoolean => exact (hite _ _).trans (by simp only [range]; omega)

theorem IntCheck.range_int (c : IntCheck) : 0 ≤ c.range.1 ∧ c.range.2 < 2147483648 := by
  cases c <;> decide

/-- The check sees the remainder, as far as it allows anything. -/
theorem IntCheck.run_toSigned (c : IntCheck) (m : Int) :
    c.run (toSigned (toUnsigned m)) = none ↔ c.run (m % 4294967296) = none := by
  obtain ⟨hlow, hhigh⟩ := c.range_int
  rw [run_eq_none, run_eq_none, toSigned_toUnsigned, Int.bmod]
  omega

/-- What a check allows comes through the conversions unchanged. -/
theorem IntCheck.saturate_of_run {c : IntCheck} {n : Int} (h : c.run n = none) :
    saturate n % 4294967296 = n := by
  obtain ⟨hlow, hhigh⟩ := c.range_int
  rw [run_eq_none] at h
  rw [saturate, LONG_MAX]
  omega

/-- A number above every `long` becomes one that no check allows. -/
theorem IntCheck.run_saturate_of_le (c : IntCheck) {n : Int} (h : 2 ^ 63 ≤ n) :
    c.run (saturate n % 4294967296) ≠ none := by
  obtain ⟨hlow, hhigh⟩ := c.range_int
  have hlast : saturate n = LONG_MAX := by
    rw [saturate, LONG_MAX]
    omega
  rw [hlast, LONG_MAX, Ne, run_eq_none]
  omega

theorem saturate_of_lt {n : Int} (h : ¬ 2 ^ 63 ≤ n) : saturate n = max n (-2 ^ 63) := by
  rw [saturate, LONG_MAX]
  omega

/-- The branch of the numbers, on a number: the tests against `LONG_MAX` hold of no
`unsigned int`. -/
theorem readInt_numeral (plus : Bool) (c : IntCheck) (n : Numeral)
    (hblanks : ∀ b ∈ blanks, isblank b = true) :
    readInt plus (some c) (n.text ++ blanks) =
      if c.run (saturate n.value % 4294967296) = none then
        .stored (.word (toUnsigned (saturate n.value)))
      else .error := by
  obtain ⟨hvalue, hrest⟩ := strtol_numeral n hblanks
  have hlt : ((toUnsigned (saturate n.value)).toNat : Int) < LONG_MAX := by
    rw [toUnsigned_toNat, LONG_MAX]
    omega
  have hend : blanks.dropWhile isblank = [] := List.dropWhile_eq_nil_iff.2 hblanks
  have hbig : ∀ p : Prop, ¬ (((toUnsigned (saturate n.value)).toNat : Int) = LONG_MAX ∧ p) :=
    fun p h => Int.ne_of_lt hlt h.1
  have hplus : ∀ p : Prop, ¬ (p ∧ ((toUnsigned (saturate n.value)).toNat : Int) > LONG_MAX) :=
    fun p h => Int.lt_asymm hlt h.2
  unfold readInt
  simp only [hvalue, hrest, hend, if_neg (hbig _), if_neg (hplus _), Option.bind_some]
  rw [if_neg (not_not.2 rfl)]
  by_cases hrun : c.run (saturate n.value % 4294967296) = none
  · rw [if_pos hrun, if_neg (not_not.2 ((c.run_toSigned _).2 hrun))]
  · rw [if_neg hrun, if_pos (mt (c.run_toSigned _).1 hrun)]

end

/-! ## A line of the file -/

def CfType.intCheck : CfType → Option IntCheck
  | .integer cfCheck => cfCheck
  | .intPlus cfCheck => cfCheck
  | .string _ => none

theorem cfe_intCheck : ∀ d ∈ Messasy.cfe, d.cfType.ctype = INT → d.cfType.intCheck ≠ none := by
  decide +kernel

/-- The entry's check function has nothing against the number. -/
def EntryDecl.Allows {F : Type} (d : EntryDecl F) (v : Int) : Prop :=
  (d.cfType.intCheck.bind fun c => c.run v) = none

instance {F : Type} (d : EntryDecl F) (v : Int) : Decidable (d.Allows v) :=
  inferInstanceAs (Decidable (_ = _))

/-- The line that gives a number to an entry. -/
def numberLine (name : Str) (n : Numeral) (blanks : Str) : Str :=
  name ++ ch '=' :: (n.text ++ blanks)

section
variable {env : ConfEnv} {mods : List Lm} {d : EntryDecl ConfigMember} {name blanks : Str}
  {n : Numeral} {rd : Reading}

theorem cfe_names_start : ∀ d ∈ Messasy.cfe,
    d.cfName.head?.any (fun c => tolower c ≠ ch '#') = true := by decide +kernel

/-- The line is neither empty nor a comment. -/
theorem numberLine_not_skipped (hd : d ∈ Messasy.cfe) (hname : lower name = lower d.cfName) :
    skipped (numberLine name n blanks) = false := by
  have hstart := cfe_names_start d hd
  cases hcf : d.cfName with
  | nil =>
    rw [hcf] at hstart
    cases hstart
  | cons c cfName =>
    rw [hcf] at hname hstart
    cases name with
    | nil => cases hname
    | cons b name =>
      have hb : tolower b = tolower c := (List.cons.inj hname).1
      have hne : b ≠ ch '#' := by
        rintro rfl
        have hc : tolower c ≠ ch '#' := by simpa using hstart
        exact hc hb.symm
      simp [skipped, numberLine, hne]

/-- The entry finds its number. -/
theorem numberLine_keyValue (hname : lower name = lower d.cfName) :
    keyValue d.cfName (numberLine name n blanks) = some (n.text ++ blanks) := by
  refine keyValue_eq_some.2 ⟨name, rfl, hname, ?_⟩
  obtain ⟨c, digits, hdigits⟩ := List.exists_cons_of_ne_nil n.ne_nil
  have hspace := (isdigit_solid c (n.digit c (hdigits ▸ List.mem_cons_self))).1
  rw [Numeral.text, hdigits]
  cases n.sign with
  | none => exact hspace
  | plus => rfl
  | minus => rfl

theorem CfType.read_number {t : CfType} {c : IntCheck} (h : t.intCheck = some c) (env : ConfEnv) :
    ∃ plus, t.read env = readInt plus (some c) := by
  cases t with
  | integer cfCheck =>
    obtain rfl : cfCheck = some c := h
    exact ⟨false, rfl⟩
  | intPlus cfCheck =>
    obtain rfl : cfCheck = some c := h
    exact ⟨true, rfl⟩
  | string cfCheck => cases h

/-- A line that an entry owns. -/
theorem Owns.readEntry {table : List Cfentry} {i : Nat} {e : Cfentry} (ho : Owns table i e)
    {line str : Str} (hk : keyValue e.cfName line = some str) (env : ConfEnv) (rd : Reading) :
    Messasy.readEntry env line rd 0 table = (rd.mark i).add e (e.cfType.read env str) := by
  rcases ho.line_cases env rd line with ⟨str', hstr, heq⟩ | ⟨hnone, -⟩
  · obtain rfl : str' = str := Option.some.inj (hstr.symm.trans hk)
    exact heq
  · rw [hnone] at hk
    cases hk

/-- What a line does that gives a number to an entry. -/
theorem readLines_numberLine {i : Nat} {c : IntCheck} (env : ConfEnv) (mods : List Lm)
    (hi : Messasy.cfe[i]? = some d) (hc : d.cfType.intCheck = some c)
    (hname : lower name = lower d.cfName) (n : Numeral)
    (hblanks : ∀ b ∈ blanks, isblank b = true) (rd : Reading) :
    readLines env (fullTable mods) [numberLine name n blanks] rd =
      (rd.mark i).add d.core
        (if c.run (saturate n.value % 2 ^ 32) = none then
          .stored (.word (toUnsigned (saturate n.value)))
        else .error) := by
  obtain ⟨plus, hread⟩ := CfType.read_number hc env
  rw [readLines, numberLine_not_skipped (List.mem_of_getElem? hi) hname,
    if_neg Bool.false_ne_true, readLines,
    (core_owns hi).readEntry (numberLine_keyValue hname) env rd]
  have hsame : d.core.cfType.read env = readInt plus (some c) := hread
  rw [hsame, readInt_numeral plus c n hblanks]
  rfl

/-- The check sees the number itself only when the number is in its range. -/
theorem IntCheck.run_saturate_iff (c : IntCheck) (n : Int) :
    c.run (saturate n % 2 ^ 32) ≠ none ↔
      2 ^ 63 ≤ n ∨ c.run (max n (-2 ^ 63) % 2 ^ 32) ≠ none := by
  by_cases hge : 2 ^ 63 ≤ n
  · exact iff_of_true (c.run_saturate_of_le hge) (.inl hge)
  · rw [saturate_of_lt hge, or_iff_right hge]

/-- **Which numbers are read exactly.** A line that counts no error has stored its number, and the
check allows it, unless the number is outside the range of the check but its remainder is not. -/
theorem readLines_number_iff (env : ConfEnv) (mods : List Lm) (hd : d ∈ Messasy.cfe)
    (hint : d.cfType.ctype = INT) (hname : lower name = lower d.cfName) (n : Numeral)
    (hblanks : ∀ b ∈ blanks, isblank b = true) (rd : Reading) :
    ((readLines env (fullTable mods) [numberLine name n blanks] rd).error = rd.error →
      ∃ v : UInt32, (readLines env (fullTable mods) [numberLine name n blanks] rd).data.load
          d.member.extent = .value (.word v) ∧
        (v.toNat : Int) = n.value ∧ d.Allows n.value) ↔
    d.Allows n.value ∨ 2 ^ 63 ≤ n.value ∨ ¬ d.Allows (max n.value (-2 ^ 63) % 2 ^ 32) := by
  obtain ⟨i, hi⟩ := List.mem_iff_getElem?.1 hd
  obtain ⟨c, hc⟩ := Option.ne_none_iff_exists'.1 (cfe_intCheck d hd hint)
  have ho : Owns (fullTable mods) i d.core := core_owns hi
  have hallows : ∀ v, d.Allows v ↔ c.run v = none := fun v => by
    rw [EntryDecl.Allows, hc, Option.bind_some]
  rw [readLines_numberLine env mods hi hc hname n hblanks rd, hallows, hallows, ← ne_eq,
    ← c.run_saturate_iff n.value]
  by_cases hrun : c.run (saturate n.value % 2 ^ 32) = none
  · have hload : (((rd.mark i).add d.core
        (.stored (.word (toUnsigned (saturate n.value))))).data.load d.member.extent) =
          .value (.word (toUnsigned (saturate n.value))) := by
      rw [← EntryDecl.core_extent hd]
      exact Block.load_store_self ho.width _
    rw [if_pos hrun, or_iff_left (not_not.2 hrun)]
    constructor
    · intro h
      obtain ⟨v, -, -, hv⟩ := h rfl
      exact hv
    · intro hn _
      exact ⟨_, hload, (toUnsigned_toNat _).trans (IntCheck.saturate_of_run hn), hn⟩
  · rw [if_neg hrun]
    exact iff_of_true (fun h => absurd h (Nat.succ_ne_self _)) (.inr hrun)

end

/-- A system without any file; the numbers do not ask it. -/
def emptySystem : ConfEnv :=
  ⟨fun _ => false, fun _ => .error [], [], fun _ => .error [], fun _ => false⟩

/-- `read_config` in front of the first line. -/
def firstReading : Reading := ⟨fun _ => false, ⟨sizeofConfig, fun _ => .zero⟩, 0⟩

def listenPort : EntryDecl ConfigMember :=
  ⟨bytes "ListenPort", .intPlus (some .isPort), some (bytes "20026"), .cfListenport⟩

/-- A port with a plus sign. -/
def plusPort : Numeral := ⟨.plus, bytes "025", by decide, by decide +kernel⟩

theorem readLines_number_iff_plus :
    ((readLines emptySystem (fullTable [.lda]) [numberLine (bytes "LISTENPORT") plusPort (bytes " ")]
        firstReading).error = firstReading.error →
      ∃ v : UInt32, (readLines emptySystem (fullTable [.lda])
          [numberLine (bytes "LISTENPORT") plusPort (bytes " ")] firstReading).data.load
          listenPort.member.extent = .value (.word v) ∧
        (v.toNat : Int) = plusPort.value ∧ listenPort.Allows plusPort.value) ↔
    listenPort.Allows plusPort.value ∨ 2 ^ 63 ≤ plusPort.value ∨
      ¬ listenPort.Allows (max plusPort.value (-2 ^ 63) % 2 ^ 32) :=
  readLines_number_iff emptySystem [.lda] (by decide +kernel) rfl (by decide +kernel) plusPort
    (by decide +kernel) firstReading

/-- `2^32 + 20026`. -/
def wrappedPort : Numeral := ⟨.none, bytes "4294987322", by decide, by decide +kernel⟩

/-- No error, and another port than the one that is written. -/
theorem not_readLines_number : wrappedPort.value = 4294987322 ∧
    (readLines emptySystem (fullTable []) [bytes "ListenPort=4294987322"] firstReading).error =
      firstReading.error ∧
    (readLines emptySystem (fullTable []) [bytes "ListenPort=4294987322"] firstReading).data.load
      listenPort.member.extent = .value (.word 20026) ∧
    numberLine (bytes "ListenPort") wrappedPort [] = bytes "ListenPort=4294987322" ∧
    ¬ listenPort.Allows wrappedPort.value := by
  decide +kernel

end Messasy
