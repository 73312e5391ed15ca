import Messasy.Config.Init

/-!
# Reading the configuration file (`libdgconfig.c`)

`read_config`: the lines of the file as `fgets` delivers them, the search for the entry of a line,
the conversion and the check of its value, and the defaults of the entries that no line names.
What an entry holds in the end is the last value that was stored, or its default
(`readConfig_load`).
-/

namespace Messasy

open Lib

def LONG_MAX : Int := 9223372036854775807

/-- The number that the digits stand for. -/
def decimal (digits : Str) : Nat := digits.foldl (fun n c => 10 * n + (c.toNat - 48)) 0

/-- `strtol` with base 10: the number, whether it is out of range, and what stands behind it. -/
def strtol (s : Str) : Int × Bool × Str :=
  let t := s.dropWhile isspace
  let u := if t.head? = some (ch '-') ∨ t.head? = some (ch '+') then t.drop 1 else t
  let digits := u.takeWhile isdigit
  let n : Int := if t.head? = some (ch '-') then -(decimal digits) else decimal digits
  if digits = [] then (0, false, s)
  else if n > LONG_MAX then (LONG_MAX, true, u.dropWhile isdigit)
  else if n < -LONG_MAX - 1 then (-LONG_MAX - 1, true, u.dropWhile isdigit)
  else (n, false, u.dropWhile isdigit)

/-- A `long` in an `unsigned int`. -/
def toUnsigned (n : Int) : UInt32 := ⟨BitVec.ofInt 32 n⟩

/-- An `unsigned int` in an `int`. -/
def toSigned (v : UInt32) : Int := v.toBitVec.toInt

/-- What `read_config` does with the value of a line. -/
inductive Outcome
  | error
  | ignored
  | stored (v : CfValue)
  deriving DecidableEq

/-- The branch of the numbers; `plus` is that of `CF_INT_PLUS`. -/
def readInt (plus : Bool) (cfCheck : Option IntCheck) (str : Str) : Outcome :=
  let value := toUnsigned (strtol str).1
  if (strtol str).2.2.dropWhile isblank ≠ [] then .error
  else if (value.toNat : Int) = LONG_MAX ∧ (strtol str).2.1 then .error
  else if plus ∧ (value.toNat : Int) > LONG_MAX then .error
  else if (cfCheck.bind fun c => c.run (toSigned value)) ≠ none then .error
  else .stored (.word value)

/-- The branch of the strings: the check comes before the test for a blank value. -/
def readString (env : ConfEnv) (cfCheck : Option StrCheck) (str : Str) : Outcome :=
  if (cfCheck.bind fun c => c.run env str) ≠ none then .error
  else if str.all isspace then .ignored
  else .stored (.string str)

def CfType.read (env : ConfEnv) : CfType → Str → Outcome
  | .integer cfCheck => readInt false cfCheck
  | .intPlus cfCheck => readInt true cfCheck
  | .string cfCheck => readString env cfCheck

/-- The value of a default, which is not checked; `atoi` for a number. -/
def CfType.default : CfType → Str → CfValue
  | .string _, d => .string d
  | _, d => .word (toUnsigned (strtol d).1)

/-- `keyword match`: what stands behind the name and the `=`. -/
def keyValue (cfName line : Str) : Option Str :=
  if ncaseEq cfName line then
    match line.drop cfName.length with
    | [] => none
    | c :: str => if c = ch '=' ∧ str.head?.any isspace = false then some str else none
  else none

/-- The array `check`, the config block, and the counter `error`. -/
structure Reading where
  check : Nat → Bool
  data : Block CfValue
  error : Nat

def Reading.add (rd : Reading) (e : Cfentry) : Outcome → Reading
  | .error => { rd with error := rd.error + 1 }
  | .ignored => rd
  | .stored v => { rd with data := rd.data.store e.extent v }

def Reading.mark (rd : Reading) (i : Nat) : Reading :=
  { rd with check := fun j => if j = i then true else rd.check j }

/-- The loop over the entries, from the entry `i` on. -/
def readEntry (env : ConfEnv) (line : Str) (rd : Reading) : Nat → List Cfentry → Reading
  | _, [] => { rd with error := rd.error + 1 }
  | i, e :: cfe =>
    match keyValue e.cfName line with
    | some str => (rd.mark i).add e (e.cfType.read env str)
    | none => readEntry env line rd (i + 1) cfe

/-- A comment or an empty line. -/
def skipped (line : Str) : Bool := line.isEmpty || line.head? == some (ch '#')

def readLines (env : ConfEnv) (cfe : List Cfentry) : List Str → Reading → Reading
  | [], rd => rd
  | line :: lines, rd =>
    if skipped line then readLines env cfe lines rd
    else readLines env cfe lines (readEntry env line rd 0 cfe)

/-- The lines that `fgets` delivers, up to one that has no end in the buffer; `cur` is the line so
far. The second part says whether the file is read to its end. -/
def configLines : Str → Str → List Str × Bool
  | cur, [] => ([], cur.isEmpty)
  | cur, c :: text =>
    if c = LF then
      if 0 ∈ cur then ([], false) else (cur :: (configLines [] text).1, (configLines [] text).2)
    else if cur.length + 1 = MAX_CONFIG_LINE then ([], false)
    else configLines (cur ++ [c]) text

/-- The check of a value writes inside of its arrays. -/
def CfType.fits (env : ConfEnv) : CfType → Str → Bool
  | .string (some cfCheck), str => cfCheck.fits env str
  | _, _ => true

/-- So does the check of the line's value, which is that of the first entry that the line names. -/
def checkFits (env : ConfEnv) : List Cfentry → Str → Bool
  | [], _ => true
  | e :: cfe, line =>
    match keyValue e.cfName line with
    | some str => e.cfType.fits env str
    | none => checkFits env cfe line

/-- So do the checks of all the lines. -/
def checksFit (env : ConfEnv) (cfe : List Cfentry) (lines : List Str) : Bool :=
  (lines.filter fun line => !skipped line).all (checkFits env cfe)

/-- One round of the loop that sets the defaults. -/
def setDefault (rd : Reading) (i : Nat) (e : Cfentry) : Reading :=
  if rd.check i then rd
  else match e.cfDefault with
    | some d => { rd with data := rd.data.store e.extent (e.cfType.default d) }
    | none => { rd with error := rd.error + 1 }

/-- The loop, from the entry `i` on. -/
def setDefaults (rd : Reading) : Nat → List Cfentry → Reading
  | _, [] => rd
  | i, e :: cfe => setDefaults (setDefault rd i e) (i + 1) cfe

/-- `read_config`; `file` is the text of the file, when it can be read. Behind a check that writes
past its array nothing is defined, and there is no result. The message that the file cannot be read
names the file, whose path is taken to be short enough for it. -/
def readConfig (env : ConfEnv) (file : Option Str) (cfe : List Cfentry) (data : Block CfValue) :
    Option (Int × Block CfValue) :=
  match file with
  | none => some (-1, data)
  | some text =>
    if checksFit env cfe (configLines [] text).1 then
      let rd := readLines env cfe (configLines [] text).1 ⟨fun _ => false, data, 0⟩
      if (configLines [] text).2 then
        let rd := setDefaults rd 0 cfe
        some (rd.error, rd.data)
      else some (-2, rd.data)
    else none

example : strtol (bytes " -12 x") = (-12, false, bytes " x") := by decide +kernel

/-- The lines are C strings without a line feed. -/
theorem configLines_plain : ∀ (text cur : Str), LF ∉ cur →
    ∀ line ∈ (configLines cur text).1, 0 ∉ line ∧ LF ∉ line
  | [], _, _, line, hline => by cases hline
  | c :: text, cur, hcur, line, hline => by
    unfold configLines at hline
    by_cases hc : c = LF
    · rw [if_pos hc] at hline
      by_cases h0 : 0 ∈ cur
      · rw [if_pos h0] at hline
        cases hline
      · rw [if_neg h0] at hline
        rcases List.mem_cons.1 hline with rfl | hline
        · exact ⟨h0, hcur⟩
        · exact configLines_plain text [] List.not_mem_nil line hline
    · rw [if_neg hc] at hline
      by_cases hmax : cur.length + 1 = MAX_CONFIG_LINE
      · rw [if_pos hmax] at hline
        cases hline
      · rw [if_neg hmax] at hline
        refine configLines_plain text (cur ++ [c]) ?_ line hline
        simp only [List.mem_append, List.mem_singleton, not_or]
        exact ⟨hcur, Ne.symm hc⟩

/-- A line fits the buffer of `fgets` with its NUL. -/
theorem configLines_length : ∀ (text cur : Str), cur.length < MAX_CONFIG_LINE →
    ∀ line ∈ (configLines cur text).1, line.length < MAX_CONFIG_LINE
  | [], _, _, line, hline => by cases hline
  | c :: text, cur, hcur, line, hline => by
    unfold configLines at hline
    by_cases hc : c = LF
    · rw [if_pos hc] at hline
      split at hline
      · cases hline
      · rcases List.mem_cons.1 hline with rfl | hline
        · exact hcur
        · exact configLines_length text [] (by decide) line hline
    · rw [if_neg hc] at hline
      by_cases hmax : cur.length + 1 = MAX_CONFIG_LINE
      · rw [if_pos hmax] at hline
        cases hline
      · rw [if_neg hmax] at hline
        refine configLines_length text (cur ++ [c]) ?_ line hline
        rw [List.length_append, List.length_singleton]
        omega

/-! ## The name of a line -/

section
variable {cfName cfName' line str : Str}

theorem keyValue_eq_some : keyValue cfName line = some str ↔ ∃ w, line = w ++ ch '=' :: str ∧
    lower w = lower cfName ∧ str.head?.any isspace = false := by
  unfold keyValue
  constructor
  · intro h
    split at h
    case isFalse => cases h
    case isTrue hname =>
      obtain ⟨w, t, rfl, hw⟩ := ncaseEq_iff.1 hname
      have hlen : w.length = cfName.length := by rw [← length_lower w, hw, length_lower]
      rw [List.drop_left' hlen] at h
      cases t with
      | nil => cases h
      | cons c t =>
        obtain ⟨⟨rfl, hspace⟩, hstr⟩ := Option.ite_none_right_eq_some.1 h
        cases hstr
        exact ⟨w, rfl, hw, hspace⟩
  · rintro ⟨w, rfl, hw, hspace⟩
    have hlen : w.length = cfName.length := by rw [← length_lower w, hw, length_lower]
    rw [if_pos (ncaseEq_iff.2 ⟨w, _, rfl, hw⟩), List.drop_left' hlen]
    exact if_pos ⟨rfl, hspace⟩

/-- A name without `=` is what stands before the first `=` of its lines. -/
theorem lower_before_of_keyValue (hn : ch '=' ∉ cfName) (h : keyValue cfName line = some str) :
    lower (before line (ch '=')) = lower cfName := by
  obtain ⟨w, rfl, hw, -⟩ := keyValue_eq_some.1 h
  have hfix : ∀ b : Byte, tolower b = ch '=' → b = ch '=' :=
    forall_byte (by decide +kernel)
  have hmem : ch '=' ∉ w := by
    intro hin
    have hlow : ch '=' ∈ lower cfName := hw ▸ List.mem_map_of_mem (f := tolower) hin
    obtain ⟨b, hb, he⟩ := List.mem_map.1 hlow
    exact hn (hfix b he ▸ hb)
  have hbefore : before (w ++ ch '=' :: str) (ch '=') = w := by
    unfold before
    rw [List.takeWhile_append_of_pos]
    · simp
    · intro b hb
      simp only [bne_iff_ne]
      rintro rfl
      exact hmem hb
  rw [hbefore, hw]

/-- A line names one entry at most. -/
theorem keyValue_unique (hn : ch '=' ∉ cfName) (hn' : ch '=' ∉ cfName')
    (hne : lower cfName ≠ lower cfName') (h : keyValue cfName line ≠ none) :
    keyValue cfName' line = none := by
  obtain ⟨v, hv⟩ := Option.ne_none_iff_exists'.1 h
  cases hv' : keyValue cfName' line with
  | none => rfl
  | some v' =>
    have heq := lower_before_of_keyValue hn hv
    rw [lower_before_of_keyValue hn' hv'] at heq
    exact absurd heq.symm hne

/-- A value that is blank is empty, as no line names an entry in front of a blank. -/
theorem all_isspace_of_keyValue (h : keyValue cfName line = some str) :
    str.all isspace = true ↔ str = [] := by
  obtain ⟨w, -, -, hspace⟩ := keyValue_eq_some.1 h
  cases str with
  | nil => simp
  | cons c str =>
    have hc : isspace c = false := by simpa using hspace
    simp [hc]

end

/-! ## What one entry gets -/

/-- The values that the lines give to a name. -/
def values (cfName : Str) (lines : List Str) : List Str :=
  (lines.filter fun line => !skipped line).filterMap (keyValue cfName)

def Outcome.value : Outcome → Option CfValue
  | .stored v => some v
  | _ => none

/-- What a range holds after some values were stored there. -/
def latest (start : Loaded CfValue) (vs : List CfValue) : Loaded CfValue :=
  vs.getLast?.elim start .value

theorem latest_concat (start : Loaded CfValue) (vs : List CfValue) (v : CfValue) :
    latest start (vs ++ [v]) = .value v := by
  rw [latest, List.getLast?_concat]
  rfl

/-- The values of an entry that were stored. -/
def Cfentry.storedBy (env : ConfEnv) (e : Cfentry) (strs : List Str) : List CfValue :=
  strs.filterMap fun str => (e.cfType.read env str).value

/-- The entry `i` is found by its own lines, and no other entry stores at its place. -/
structure Owns (table : List Cfentry) (i : Nat) (e : Cfentry) : Prop where
  entry : table[i]? = some e
  first : ∀ j < i, ∀ x, table[j]? = some x → ∀ line,
    keyValue x.cfName line ≠ none → keyValue e.cfName line = none
  apart : ∀ j x, table[j]? = some x → j ≠ i → x.extent.Disjoint e.extent
  width : 0 < e.extent.width

/-- What the loop over the lines knows of an entry whose values so far are `strs`. -/
structure Seen (env : ConfEnv) (i : Nat) (e : Cfentry) (start : Loaded CfValue)
    (strs : List Str) (rd : Reading) : Prop where
  check : rd.check i = true ↔ strs ≠ []
  load : rd.data.load e.extent = latest start (e.storedBy env strs)
  accepted : rd.error = 0 → ∀ str ∈ strs, e.cfType.read env str ≠ .error

section
variable {env : ConfEnv} {table : List Cfentry} {i : Nat} {e : Cfentry} {rd : Reading}
  {start : Loaded CfValue} {strs : List Str} {line : Str}

/-- The first entry that a line names takes its value. -/
theorem readEntry_cases (env : ConfEnv) (rd : Reading) (line : Str) :
    ∀ (l : List Cfentry) (k : Nat),
    (readEntry env line rd k l = { rd with error := rd.error + 1 } ∧
      ∀ x ∈ l, keyValue x.cfName line = none) ∨
    ∃ j x str, l[j]? = some x ∧ keyValue x.cfName line = some str ∧
      (∀ m < j, ∀ y, l[m]? = some y → keyValue y.cfName line = none) ∧
      readEntry env line rd k l = (rd.mark (k + j)).add x (x.cfType.read env str)
  | [], k => .inl ⟨rfl, fun x hx => by cases hx⟩
  | e :: l, k => by
    unfold readEntry
    cases hv : keyValue e.cfName line with
    | some str => exact .inr ⟨0, e, str, rfl, hv, fun m hm => by omega, rfl⟩
    | none =>
      rcases readEntry_cases env rd line l (k + 1) with ⟨heq, hall⟩ | ⟨j, x, str, hx, hstr, hfirst, heq⟩
      · refine .inl ⟨heq, fun x hx => ?_⟩
        rcases List.mem_cons.1 hx with rfl | hx
        · exact hv
        · exact hall x hx
      · refine .inr ⟨j + 1, x, str, hx, hstr, fun m hm y hy => ?_, ?_⟩
        · cases m with
          | zero =>
            cases hy
            exact hv
          | succ m => exact hfirst m (by omega) y hy
        · rw [← Nat.add_right_comm] at heq
          exact heq

theorem Reading.add_error_le (rd : Reading) (x : Cfentry) (o : Outcome) :
    rd.error ≤ (rd.add x o).error := by
  cases o with
  | error => exact Nat.le_succ _
  | ignored => exact Nat.le_refl _
  | stored v => exact Nat.le_refl _

theorem Reading.add_check (rd : Reading) (x : Cfentry) (o : Outcome) :
    (rd.add x o).check = rd.check := by
  cases o <;> rfl

/-- Another entry's value changes nothing of this one's. -/
theorem Seen.other (h : Seen env i e start strs rd) (hw : 0 < e.extent.width) {x : Cfentry}
    {j : Nat} (hj : j ≠ i) (hx : x.extent.Disjoint e.extent) (o : Outcome) :
    Seen env i e start strs ((rd.mark j).add x o) := by
  refine ⟨?_, ?_, fun he => h.accepted (Nat.le_zero.1 (he ▸ (rd.mark j).add_error_le x o))⟩
  · rw [Reading.add_check]
    show (if i = j then true else rd.check i) = true ↔ _
    rw [if_neg (Ne.symm hj)]
    exact h.check
  · cases o with
    | error => exact h.load
    | ignored => exact h.load
    | stored v =>
      show (rd.data.store x.extent v).load e.extent = _
      rw [Block.load_store_of_disjoint hw hx]
      exact h.load

/-- A value of its own. -/
theorem Seen.own (h : Seen env i e start strs rd) (hw : 0 < e.extent.width) (str : Str) :
    Seen env i e start (strs ++ [str]) ((rd.mark i).add e (e.cfType.read env str)) := by
  have hstored : e.storedBy env (strs ++ [str]) =
      e.storedBy env strs ++ (e.cfType.read env str).value.toList := by
    rw [Cfentry.storedBy, List.filterMap_append]
    cases hv : (e.cfType.read env str).value <;> simp [hv, Cfentry.storedBy]
  refine ⟨?_, ?_, fun he s hs => ?_⟩
  · rw [Reading.add_check]
    show (if i = i then true else rd.check i) = true ↔ _
    simp
  · rw [hstored]
    cases e.cfType.read env str with
    | error =>
      show rd.data.load e.extent = latest start (e.storedBy env strs ++ [])
      rw [List.append_nil]
      exact h.load
    | ignored =>
      show rd.data.load e.extent = latest start (e.storedBy env strs ++ [])
      rw [List.append_nil]
      exact h.load
    | stored v =>
      show (rd.data.store e.extent v).load e.extent = _
      rw [Block.load_store_self hw]
      exact (latest_concat start _ v).symm
  · rcases List.mem_append.1 hs with hs | hs
    · exact h.accepted (Nat.le_zero.1 (he ▸ (rd.mark i).add_error_le e _)) s hs
    · cases List.mem_singleton.1 hs
      intro herr
      rw [herr] at he
      exact Nat.succ_ne_zero _ he

/-- A line gives its value to the entry, or it does not name the entry. -/
theorem Owns.line_cases (ho : Owns table i e) (env : ConfEnv) (rd : Reading) (line : Str) :
    (∃ str, keyValue e.cfName line = some str ∧
      readEntry env line rd 0 table = (rd.mark i).add e (e.cfType.read env str)) ∨
    (keyValue e.cfName line = none ∧
      (readEntry env line rd 0 table = { rd with error := rd.error + 1 } ∨
        ∃ j x str, table[j]? = some x ∧ j ≠ i ∧
          readEntry env line rd 0 table = (rd.mark j).add x (x.cfType.read env str))) := by
  rcases readEntry_cases env rd line table 0 with
    ⟨heq, hall⟩ | ⟨j, x, str, hx, hstr, hfirst, heq⟩
  · exact .inr ⟨hall e (List.mem_of_getElem? ho.entry), .inl heq⟩
  · rw [Nat.zero_add] at heq
    have hnone : j ≠ i → keyValue e.cfName line = none := fun hj => by
      rcases Nat.lt_or_gt_of_ne hj with hlt | hgt
      · exact ho.first j hlt x hx line (by rw [hstr]; exact Option.some_ne_none _)
      · exact hfirst i hgt e ho.entry
    by_cases hj : j = i
    · subst hj
      obtain rfl := Option.some.inj (hx.symm.trans ho.entry)
      exact .inl ⟨str, hstr, heq⟩
    · exact .inr ⟨hnone hj, .inr ⟨j, x, str, hx, hj, heq⟩⟩

/-- One line. -/
theorem Seen.step (h : Seen env i e start strs rd) (ho : Owns table i e) (line : Str) :
    Seen env i e start (strs ++ (keyValue e.cfName line).toList)
      (readEntry env line rd 0 table) := by
  rcases ho.line_cases env rd line with ⟨str, hstr, heq⟩ | ⟨hnone, heq | ⟨j, x, str, hx, hj, heq⟩⟩
  · rw [hstr, heq]
    exact h.own ho.width str
  · rw [hnone, heq, Option.toList_none, List.append_nil]
    exact ⟨h.check, h.load, fun he => absurd he (Nat.succ_ne_zero _)⟩
  · rw [hnone, heq, Option.toList_none, List.append_nil]
    exact h.other ho.width hj (ho.apart j x hx hj) _

/-- The loop over the lines. -/
theorem Seen.lines (ho : Owns table i e) : ∀ (lines : List Str) {strs : List Str} {rd : Reading},
    Seen env i e start strs rd →
      Seen env i e start (strs ++ values e.cfName lines) (readLines env table lines rd)
  | [], strs, rd, h => by
    show Seen env i e start (strs ++ []) rd
    rw [List.append_nil]
    exact h
  | line :: lines, strs, rd, h => by
    unfold readLines
    by_cases hs : skipped line = true
    · rw [if_pos hs]
      have hvalues : values e.cfName (line :: lines) = values e.cfName lines := by
        simp [values, hs]
      rw [hvalues]
      exact Seen.lines ho lines h
    · rw [if_neg hs]
      have hvalues : values e.cfName (line :: lines) =
          (keyValue e.cfName line).toList ++ values e.cfName lines := by
        cases hk : keyValue e.cfName line <;> simp [values, hs, hk]
      rw [hvalues, ← List.append_assoc]
      exact Seen.lines ho lines (h.step ho line)

/-! ## The defaults -/

theorem setDefault_check (rd : Reading) (k : Nat) (x : Cfentry) :
    (setDefault rd k x).check = rd.check := by
  unfold setDefault
  split
  · rfl
  · split <;> rfl

theorem setDefault_error_le (rd : Reading) (k : Nat) (x : Cfentry) :
    rd.error ≤ (setDefault rd k x).error := by
  unfold setDefault
  split
  · exact Nat.le_refl _
  · split
    · exact Nat.le_refl _
    · exact Nat.le_succ _

theorem setDefault_load {k : Nat} {x : Cfentry} {r : Extent} (hw : 0 < r.width)
    (hx : x.extent.Disjoint r) : (setDefault rd k x).data.load r = rd.data.load r := by
  unfold setDefault
  split
  · rfl
  · split
    · exact Block.load_store_of_disjoint hw hx _
    · rfl

theorem setDefaults_error_le : ∀ (l : List Cfentry) (rd : Reading) (k : Nat),
    rd.error ≤ (setDefaults rd k l).error
  | [], _, _ => Nat.le_refl _
  | x :: l, rd, k =>
    Nat.le_trans (setDefault_error_le rd k x) (setDefaults_error_le l (setDefault rd k x) (k + 1))

theorem setDefaults_load {r : Extent} (hw : 0 < r.width) : ∀ (l : List Cfentry) (rd : Reading)
    (k : Nat), (∀ x ∈ l, x.extent.Disjoint r) → (setDefaults rd k l).data.load r = rd.data.load r
  | [], _, _, _ => rfl
  | x :: l, rd, k, h => by
    show (setDefaults (setDefault rd k x) (k + 1) l).data.load r = _
    rw [setDefaults_load hw l _ _ fun y hy => h y (List.mem_cons_of_mem x hy),
      setDefault_load hw (h x List.mem_cons_self)]

/-- The entry `m` of the list, which is the entry `k + m` of the table. -/
theorem setDefaults_at (hw : 0 < e.extent.width) : ∀ (l : List Cfentry) (rd : Reading)
    (k m : Nat), l[m]? = some e →
    (∀ j x, l[j]? = some x → j ≠ m → x.extent.Disjoint e.extent) →
    (setDefaults rd k l).error = 0 →
      (rd.check (k + m) = true → (setDefaults rd k l).data.load e.extent =
        rd.data.load e.extent) ∧
      (rd.check (k + m) = false → ∃ d, e.cfDefault = some d ∧
        (setDefaults rd k l).data.load e.extent = .value (e.cfType.default d))
  | [], _, _, _, hm, _, _ => by cases hm
  | x :: l, rd, k, 0, hm, hd, he => by
    obtain rfl : x = e := Option.some.inj hm
    have hrest : ∀ y ∈ l, y.extent.Disjoint x.extent := by
      intro y hy
      obtain ⟨j, hj⟩ := List.mem_iff_getElem?.1 hy
      exact hd (j + 1) y hj (Nat.succ_ne_zero j)
    have herr : (setDefault rd k x).error ≤ 0 :=
      he ▸ setDefaults_error_le l (setDefault rd k x) (k + 1)
    have hload : (setDefaults rd k (x :: l)).data.load x.extent =
        (setDefault rd k x).data.load x.extent :=
      setDefaults_load hw l (setDefault rd k x) (k + 1) hrest
    rw [hload, Nat.add_zero]
    refine ⟨fun hc => ?_, fun hc => ?_⟩
    · unfold setDefault
      rw [if_pos hc]
    · unfold setDefault at herr ⊢
      rw [if_neg (Bool.eq_false_iff.1 hc)] at herr ⊢
      cases hdef : x.cfDefault with
      | none =>
        rw [hdef] at herr
        exact absurd herr (Nat.not_succ_le_zero _)
      | some d => exact ⟨d, rfl, Block.load_store_self hw _⟩
  | x :: l, rd, k, m + 1, hm, hd, he => by
    have hx : x.extent.Disjoint e.extent := hd 0 x rfl (Nat.succ_ne_zero m).symm
    have ih := setDefaults_at hw l (setDefault rd k x) (k + 1) m hm
      (fun j y hy hj => hd (j + 1) y hy fun h => hj (Nat.succ.inj h)) he
    rw [setDefault_check, setDefault_load hw hx, Nat.add_assoc, Nat.add_comm 1 m] at ih
    exact ih

end

/-- What `read_config` leaves of an entry: every value passed, and the entry holds the last value
that was stored, or its default when no line names it. -/
structure Entered (env : ConfEnv) (lines : List Str) (start : Loaded CfValue) (e : Cfentry)
    (data : Block CfValue) : Prop where
  accepted : ∀ str ∈ values e.cfName lines, e.cfType.read env str ≠ .error
  named : values e.cfName lines ≠ [] →
    data.load e.extent = latest start (e.storedBy env (values e.cfName lines))
  unnamed : values e.cfName lines = [] →
    ∃ d, e.cfDefault = some d ∧ data.load e.extent = .value (e.cfType.default d)

/-- **An entry after `read_config`**, when it reports no error. -/
theorem readConfig_load {env : ConfEnv} {text : Str} {table : List Cfentry}
    {data data' : Block CfValue} {i : Nat} {e : Cfentry} (ho : Owns table i e)
    (h : readConfig env (some text) table data = some (0, data')) :
    (configLines [] text).2 = true ∧
      Entered env (configLines [] text).1 (data.load e.extent) e data' := by
  unfold readConfig at h
  obtain ⟨-, h⟩ := Option.ite_none_right_eq_some.1 h
  by_cases hend : (configLines [] text).2 = true
  · refine ⟨hend, ?_⟩
    simp only [hend, if_true, Option.some.injEq, Prod.mk.injEq] at h
    obtain ⟨herr, rfl⟩ := h
    have herr := Int.ofNat_eq_zero.1 herr
    have hstart : Seen env i e (data.load e.extent) [] ⟨fun _ => false, data, 0⟩ :=
      ⟨by simp, rfl, fun _ str hs => by cases hs⟩
    have hseen := Seen.lines ho (configLines [] text).1 hstart
    rw [List.nil_append] at hseen
    obtain ⟨hset, hunset⟩ := setDefaults_at ho.width table _ 0 i ho.entry ho.apart herr
    rw [Nat.zero_add] at hset hunset
    have hzero : (readLines env table (configLines [] text).1
        ⟨fun _ => false, data, 0⟩).error ≤ 0 :=
      Nat.le_trans (setDefaults_error_le table _ 0) (Nat.le_of_eq herr)
    refine ⟨hseen.accepted (Nat.le_zero.1 hzero), fun hn => ?_, fun hn => hunset ?_⟩
    · rw [hset (hseen.check.2 hn), hseen.load]
    · exact Bool.eq_false_iff.2 fun hc => hseen.check.1 hc hn
  · simp only [if_neg hend, Option.some.injEq] at h
    cases congrArg Prod.fst h

end Messasy
