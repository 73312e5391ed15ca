import Messasy.Lib.CString
import Messasy.Lib.Iso2022

/-!
# Character codes (`libdgstr.c`)

`str2code` calls `iconv` on an array that grows by `BUFSIZE` whenever the converter says that it is
too small, and puts a NUL behind the result. For every converter that writes a character at once, in
at most `BUFSIZE` bytes, the loop ends and the array holds the whole conversion; the NUL is written
outside the array exactly when the result fills it to the last byte (`str2code_eq`).
-/

namespace Messasy

open Lib

def BUFSIZE : Nat := 1024

/-- What the converter writes for a character, or for a change of its state: all of it, or nothing
when there is no room. -/
structure ConvStep where
  text : Str
  short : text.length ≤ BUFSIZE

/-- The results of `iconv`: all is converted, `E2BIG`, or another error. -/
inductive IconvRet
  | done
  | e2big
  | error
  deriving DecidableEq

/-- `iconv` with `outleft` bytes of room: the result, what is written, and the steps still to do.
`fails` says whether an invalid sequence stands behind the steps. -/
def iconvCall (fails : Bool) : List ConvStep → Nat → IconvRet × Str × List ConvStep
  | [], _ => (if fails then .error else .done, [], [])
  | step :: steps, outleft =>
    if step.text.length ≤ outleft then
      let (ret, text, rest) := iconvCall fails steps (outleft - step.text.length)
      (ret, step.text ++ text, rest)
    else (.e2big, [], step :: steps)

/-- With room for a step, a call takes steps away. -/
theorem iconvCall_rest (fails : Bool) : ∀ (steps : List ConvStep) (outleft : Nat),
    (iconvCall fails steps outleft).2.2.length ≤ steps.length ∧
    (BUFSIZE ≤ outleft → (iconvCall fails steps outleft).1 = .e2big →
      (iconvCall fails steps outleft).2.2.length < steps.length)
  | [], outleft => by
    refine ⟨Nat.le_refl _, fun _ h => ?_⟩
    cases fails <;> cases h
  | step :: steps, outleft => by
    unfold iconvCall
    split
    · obtain ⟨hle, -⟩ := iconvCall_rest fails steps (outleft - step.text.length)
      exact ⟨Nat.le_succ_of_le hle, fun _ _ => Nat.lt_succ_of_le hle⟩
    · rename_i hroom
      exact ⟨Nat.le_refl _, fun hout => absurd (Nat.le_trans step.short hout) hroom⟩

/-- The loop of `str2code`: the array and `outleft`, or `NULL`. Behind `E2BIG` it always goes on:
either there is input left, or `trail` is set. -/
def str2codeLoop (junk : Byte) (fails : Bool) (steps : List ConvStep) (buf : Mem) (outleft : Nat) :
    Option (Option (Mem × Nat)) :=
  let out := iconvCall fails steps (outleft + BUFSIZE)
  ((buf.realloc junk (buf.length + BUFSIZE)).memcpy (buf.length - outleft)
    out.2.1 0 out.2.1.length).bind fun newbuf =>
      if _h : out.1 = .e2big then
        str2codeLoop junk fails out.2.2 newbuf (outleft + BUFSIZE - out.2.1.length)
      else if out.1 = .done then
        some (some (newbuf, outleft + BUFSIZE - out.2.1.length))
      else
        some none
termination_by steps.length
decreasing_by
  exact (iconvCall_rest fails steps (outleft + BUFSIZE)).2 (Nat.le_add_left _ _) ‹_›

/-- `str2code`: the array, or `NULL`. -/
def str2code (junk : Byte) (fails : Bool) (steps : List ConvStep) : Option (Option Mem) :=
  (str2codeLoop junk fails steps [] 0).bind fun
  | none => some none
  | some (newbuf, outleft) => (newbuf.store (newbuf.length - outleft) 0).map some

/-- The character codes of the library. -/
inductive Charset
  | euc
  | jis
  | sjis
  | utf8
  deriving DecidableEq

/-- What `iconv` does with the bytes of a string and the NUL behind them: what it writes, and whether
it stops behind that at an invalid sequence. -/
structure Conversion where
  steps : List ConvStep
  fails : Bool

/-- Conversions, from one code into another. -/
abbrev Iconv := Charset → Charset → Str → Conversion

/-- The calls of `dg_str2code`, up to the first one that does not give `NULL`. -/
def tryCodes (iconv : Iconv) (junk : Byte) (sbuf : Str) (code : Charset) :
    List Charset → Option (Option Mem)
  | [] => some none
  | type :: types =>
    (str2code junk (iconv type code sbuf).fails (iconv type code sbuf).steps).bind fun
    | some retbuf => some (some retbuf)
    | none => tryCodes iconv junk sbuf code types

/-- `dg_str2code`, from the code that is asked for, or from the others: the string in the array. -/
def dgStr2code (iconv : Iconv) (junk : Byte) (sbuf : Str) (type code : Charset) :
    Option (Option Str) :=
  (tryCodes iconv junk sbuf code [type, .euc, .jis, .sjis]).bind fun
  | none => some none
  | some retbuf => (retbuf.str 0).map some

/-! ## The loop -/

/-- The whole conversion. -/
def convText (steps : List ConvStep) : Str := steps.flatMap (·.text)

/-- A call writes what fits of the conversion. -/
theorem iconvCall_spec (fails : Bool) : ∀ (steps : List ConvStep) (outleft : Nat),
    convText steps = (iconvCall fails steps outleft).2.1 ++
      convText (iconvCall fails steps outleft).2.2 ∧
    (iconvCall fails steps outleft).2.1.length ≤ outleft ∧
    ((convText steps).length ≤ outleft →
      (iconvCall fails steps outleft).1 = (if fails then .error else .done) ∧
        (iconvCall fails steps outleft).2.1 = convText steps) ∧
    (outleft < (convText steps).length → (iconvCall fails steps outleft).1 = .e2big)
  | [], outleft => ⟨rfl, Nat.zero_le _, fun _ => ⟨rfl, rfl⟩, fun h => absurd h (Nat.not_lt_zero _)⟩
  | step :: steps, outleft => by
    have hcons : convText (step :: steps) = step.text ++ convText steps := List.flatMap_cons ..
    unfold iconvCall
    split
    · rename_i hroom
      obtain ⟨happend, hlen, hfits, hbig⟩ :=
        iconvCall_spec fails steps (outleft - step.text.length)
      refine ⟨?_, ?_, fun h => ?_, fun h => ?_⟩
      · dsimp only
        rw [hcons, List.append_assoc, ← happend]
      · dsimp only
        rw [List.length_append]
        exact Nat.add_le_of_le_sub' hroom hlen
      · rw [hcons, List.length_append] at h
        obtain ⟨hret, htext⟩ := hfits (by omega)
        exact ⟨hret, by rw [hcons]; exact congrArg _ htext⟩
      · rw [hcons, List.length_append] at h
        exact hbig (by omega)
    · rename_i hroom
      refine ⟨rfl, Nat.zero_le _, fun h => ?_, fun _ => rfl⟩
      rw [hcons, List.length_append] at h
      omega

/-- The array grows, and the text is put behind what is there. -/
theorem grow_eq (junk : Byte) (done : Str) {room text : Str}
    (h : text.length ≤ room.length + BUFSIZE) :
    ∃ room' : Str, (Mem.realloc (done ++ room) junk ((done ++ room).length + BUFSIZE)).memcpy
      done.length text 0 text.length = some (done ++ text ++ room') ∧
      room'.length = room.length + BUFSIZE - text.length := by
  have hrealloc : Mem.realloc (done ++ room) junk ((done ++ room).length + BUFSIZE) =
      done ++ (room ++ List.replicate BUFSIZE junk) := by
    unfold Mem.realloc
    rw [List.take_of_length_le (Nat.le_add_right _ _), Nat.add_sub_cancel_left, List.append_assoc]
  refine ⟨(room ++ List.replicate BUFSIZE junk).drop text.length, ?_, ?_⟩
  · rw [hrealloc]
    unfold Mem.memcpy
    rw [if_pos ⟨by simp only [List.length_append, List.length_replicate]; omega, by omega⟩]
    rw [List.take_left, List.drop_zero, List.take_length, List.drop_append,
      List.drop_eq_nil_of_le (by omega), Nat.add_sub_cancel_left]
    simp
  · rw [List.length_drop, List.length_append, List.length_replicate]

/-- A round of the loop. -/
theorem str2codeLoop_step (junk : Byte) (fails : Bool) {steps rest : List ConvStep}
    (done : Str) {room text : Str} {ret : IconvRet}
    (hcall : iconvCall fails steps (room.length + BUFSIZE) = (ret, text, rest)) :
    ∃ room' : Str, room'.length = room.length + BUFSIZE - text.length ∧
      str2codeLoop junk fails steps (done ++ room) room.length =
        if ret = .e2big then
          str2codeLoop junk fails rest (done ++ text ++ room') room'.length
        else if ret = .done then some (some (done ++ text ++ room', room'.length))
        else some none := by
  obtain ⟨-, hlen, -⟩ := iconvCall_spec fails steps (room.length + BUFSIZE)
  rw [hcall] at hlen
  obtain ⟨room', hgrow, hroom⟩ := grow_eq junk done hlen
  have hop : (done ++ room).length - room.length = done.length := by simp
  refine ⟨room', hroom, ?_⟩
  rw [str2codeLoop]
  simp only [hcall, hop, hgrow, Option.bind_some, ← hroom, dite_eq_ite]

/-- The loop ends, whatever it starts from. -/
theorem str2codeLoop_eq (junk : Byte) (fails : Bool) : ∀ (n : Nat) (steps : List ConvStep)
    (done room : Str), steps.length < n → BUFSIZE ∣ (done ++ room).length →
    (fails = true ∧ str2codeLoop junk fails steps (done ++ room) room.length = some none) ∨
    (fails = false ∧ ∃ room' : Str,
      str2codeLoop junk fails steps (done ++ room) room.length =
        some (some (done ++ convText steps ++ room', room'.length)) ∧
      BUFSIZE ∣ (done ++ convText steps ++ room').length ∧
      0 < (done ++ convText steps ++ room').length ∧
      (room.length < (convText steps).length → room'.length < BUFSIZE))
  | 0, _, _, _, h, _ => absurd h (Nat.not_lt_zero _)
  | n + 1, steps, done, room, hn, hdvd => by
    obtain ⟨happend, hlen, hfits, hbig⟩ := iconvCall_spec fails steps (room.length + BUFSIZE)
    have hrest := (iconvCall_rest fails steps (room.length + BUFSIZE)).2 (Nat.le_add_left _ _)
    rcases hcall : iconvCall fails steps (room.length + BUFSIZE) with ⟨ret, text, rest⟩
    rw [hcall] at happend hlen hfits hbig hrest
    dsimp only at happend hlen hfits hbig hrest
    obtain ⟨room', hroom, hstep⟩ := str2codeLoop_step junk fails done hcall
    have hsize : (done ++ text ++ room').length = (done ++ room).length + BUFSIZE := by
      simp only [List.length_append]
      omega
    have hdvd' : BUFSIZE ∣ (done ++ text ++ room').length := by
      rw [hsize]
      exact Nat.dvd_add hdvd (Nat.dvd_refl _)
    rcases Nat.lt_or_ge (room.length + BUFSIZE) (convText steps).length with hlt | hle
    · -- the array is too small: the next round does the rest
      have hret := hbig hlt
      rw [if_pos hret] at hstep
      rcases str2codeLoop_eq junk fails n rest (done ++ text) room'
          (Nat.lt_of_lt_of_le (hrest hret) (Nat.le_of_lt_succ hn)) hdvd' with
        ⟨hf, hnull⟩ | ⟨hf, room2, hsome, hdvd2, hpos, hfull⟩
      · exact .inl ⟨hf, hstep.trans hnull⟩
      · have hwhole : done ++ text ++ convText rest = done ++ convText steps := by
          rw [happend, List.append_assoc]
        rw [hwhole] at hsome hdvd2 hpos
        refine .inr ⟨hf, room2, hstep.trans hsome, hdvd2, hpos, fun _ => hfull ?_⟩
        have := congrArg List.length happend
        rw [List.length_append] at this
        omega
    · obtain ⟨hret, htext⟩ := hfits hle
      rw [hret, htext] at hstep
      rw [htext] at hsize hroom hdvd'
      cases fails with
      | true => exact .inl ⟨rfl, hstep⟩
      | false =>
        refine .inr ⟨rfl, room', hstep, hdvd', ?_, fun h => by omega⟩
        rw [hsize]
        exact Nat.add_pos_right _ (by decide)

theorem str2code_cases (junk : Byte) (fails : Bool) (steps : List ConvStep) :
    (fails = true ∧ str2code junk fails steps = some none) ∨
    (fails = false ∧
      ((0 < (convText steps).length ∧ BUFSIZE ∣ (convText steps).length ∧
          str2codeLoop junk fails steps [] 0 = some (some (convText steps, 0)) ∧
          str2code junk fails steps = none) ∨
        (¬ (0 < (convText steps).length ∧ BUFSIZE ∣ (convText steps).length) ∧
          ∃ rest, str2code junk fails steps = some (some (convText steps ++ 0 :: rest))))) := by
  have hstart : str2code junk fails steps =
      (str2codeLoop junk fails steps ([] ++ []) ([] : Str).length).bind fun
        | none => some none
        | some (newbuf, outleft) => (newbuf.store (newbuf.length - outleft) 0).map some := rfl
  rcases str2codeLoop_eq junk fails _ steps [] [] (Nat.lt_succ_self _) (Nat.dvd_zero _) with
    ⟨hf, hnull⟩ | ⟨hf, room, hsome, hdvd, hpos, hfull⟩
  · exact .inl ⟨hf, by rw [hstart, hnull]; rfl⟩
  · refine .inr ⟨hf, ?_⟩
    rw [List.nil_append, List.length_append] at hdvd hpos
    have hop : (convText steps ++ room).length - room.length = (convText steps).length := by simp
    rw [hstart, hsome, Option.bind_some, List.nil_append]
    dsimp only
    rw [hop]
    cases room with
    | nil =>
      rw [List.nil_append, List.append_nil] at hsome
      refine .inl ⟨hpos, hdvd, hsome, ?_⟩
      rw [List.append_nil, Mem.store, if_neg (Nat.lt_irrefl _)]
      rfl
    | cons c room =>
      refine .inr ⟨?_, room, ?_⟩
      · rintro ⟨hlen, hmul⟩
        have hmul' := (Nat.dvd_add_right hmul).1 hdvd
        exact absurd (Nat.le_of_dvd (Nat.succ_pos _) hmul') (Nat.not_le_of_lt (hfull hlen))
      · rw [Mem.store_append]
        rfl

/-- **`str2code`.** With an invalid sequence the result is `NULL`. Otherwise the array begins with
the whole conversion and a NUL, but when the conversion is not empty and its length a multiple of
`BUFSIZE`, it fills the array, and the NUL is stored at the array's length. -/
theorem str2code_eq (junk : Byte) (fails : Bool) (steps : List ConvStep) :
    (fails = true ∧ str2code junk fails steps = some none) ∨
    (fails = false ∧
      ((0 < (convText steps).length ∧ BUFSIZE ∣ (convText steps).length ∧
          str2codeLoop junk fails steps [] 0 = some (some (convText steps, 0)) ∧
          str2code junk fails steps = none) ∨
        (¬ (0 < (convText steps).length ∧ BUFSIZE ∣ (convText steps).length) ∧
          ∃ rest, str2code junk fails steps = some (some (convText steps ++ 0 :: rest))))) :=
  str2code_cases junk fails steps

/-! ## The other codes -/

namespace Conversion

/-- All that is written. -/
def text (conv : Conversion) : Str := convText conv.steps

/-- The result fills the array of `str2code` to its last byte. -/
def Fills (conv : Conversion) : Prop := 0 < conv.text.length ∧ BUFSIZE ∣ conv.text.length

instance (conv : Conversion) : Decidable conv.Fills := inferInstanceAs (Decidable (_ ∧ _))

/-- A conversion byte by byte. -/
def ofText : Option Str → Conversion
  | none => ⟨[], true⟩
  | some t => ⟨(t ++ [0]).map fun c => ⟨[c], Nat.le_of_ble_eq_true rfl⟩, false⟩

end Conversion

/-- The conversion whose result `dg_str2code` takes: the first without an invalid sequence. -/
def Iconv.taken (iconv : Iconv) (sbuf : Str) (type code : Charset) : Option Conversion :=
  ([type, .euc, .jis, .sjis].map (iconv · code sbuf)).find? (!·.fails)

/-- The NUL behind the result of `dg_str2code` has no room in the array. -/
def Iconv.Overflows (iconv : Iconv) (sbuf : Str) (type code : Charset) : Prop :=
  ∃ conv, iconv.taken sbuf type code = some conv ∧ conv.Fills

section
variable {iconv : Iconv} {junk : Byte} {sbuf : Str} {type code : Charset} {conv : Conversion}

/-- The calls find the first conversion without an invalid sequence. -/
theorem tryCodes_eq (iconv : Iconv) (junk : Byte) (sbuf : Str) (code : Charset) :
    ∀ types : List Charset,
      (tryCodes iconv junk sbuf code types = some none ∧
        (types.map (iconv · code sbuf)).find? (!·.fails) = none) ∨
      ∃ conv, (types.map (iconv · code sbuf)).find? (!·.fails) = some conv ∧
        ((conv.Fills ∧ tryCodes iconv junk sbuf code types = none) ∨
          (¬ conv.Fills ∧ ∃ rest,
            tryCodes iconv junk sbuf code types = some (some (conv.text ++ 0 :: rest))))
  | [] => .inl ⟨rfl, rfl⟩
  | type :: types => by
    rw [tryCodes, List.map_cons, List.find?_cons]
    rcases str2code_cases junk (iconv type code sbuf).fails (iconv type code sbuf).steps with
      ⟨hf, hnull⟩ | ⟨hf, ⟨hpos, hdvd, -, hfault⟩ | ⟨hfits, rest, hstr⟩⟩
    · rw [hnull, hf]
      exact tryCodes_eq iconv junk sbuf code types
    · rw [hfault, hf]
      exact .inr ⟨_, rfl, .inl ⟨⟨hpos, hdvd⟩, rfl⟩⟩
    · rw [hstr, hf]
      exact .inr ⟨_, rfl, .inr ⟨hfits, rest, rfl⟩⟩

/-- **`dg_str2code`.** The result is the first conversion without an invalid sequence, if there is
one; the store of its NUL leaves the array exactly when it fills the array. -/
theorem dgStr2code_eq (iconv : Iconv) (junk : Byte) (sbuf : Str) (type code : Charset) :
    dgStr2code iconv junk sbuf type code =
      match iconv.taken sbuf type code with
      | none => some none
      | some conv => if conv.Fills then none else some (some (cstr conv.text)) := by
  have htaken : iconv.taken sbuf type code =
      ([type, .euc, .jis, .sjis].map (iconv · code sbuf)).find? (!·.fails) := rfl
  rw [dgStr2code, htaken]
  rcases tryCodes_eq iconv junk sbuf code [type, .euc, .jis, .sjis] with
    ⟨hnull, hnone⟩ | ⟨conv, hconv, ⟨hfills, hfault⟩ | ⟨hfits, rest, hstr⟩⟩
  · rw [hnull, hnone]
    rfl
  · rw [hfault, hconv]
    exact (if_pos hfills).symm
  · rw [hstr, hconv, Option.bind_some]
    exact (congrArg (Option.map some) (Mem.str_cstr conv.text rest)).trans (if_neg hfits).symm

theorem dgStr2code_eq_none_iff :
    dgStr2code iconv junk sbuf type code = none ↔ iconv.Overflows sbuf type code := by
  unfold Iconv.Overflows
  rw [dgStr2code_eq]
  cases iconv.taken sbuf type code with
  | none => exact ⟨nofun, fun ⟨_, h, _⟩ => absurd h nofun⟩
  | some conv => simp

/-- The result is a string, without a NUL inside. -/
theorem notMem_dgStr2code {str : Str} (h : dgStr2code iconv junk sbuf type code = some (some str)) :
    0 ∉ str := by
  rw [dgStr2code_eq] at h
  split at h
  · cases Option.some.inj h
  · split at h
    · cases h
    · obtain rfl := Option.some.inj (Option.some.inj h)
      exact notMem_before _ 0

end

/-! ## ISO-2022-JP -/

/-- A converter for ASCII and JIS X 0208, from EUC and back. -/
def japanese : Iconv
  | .euc, .jis => fun s => .ofText (iso2022OfEuc false s)
  | .jis, .euc => fun s => .ofText (eucOfIso2022 false s)
  | .jis, .jis => fun s => .ofText ((eucOfIso2022 false s).bind (iso2022OfEuc false))
  | .euc, .sjis => fun s => .ofText (sjisOfEuc s)
  | _, _ => fun _ => .ofText none

/-- With its NUL this text fills the array. -/
example : dgStr2code japanese 7 (List.replicate 1023 (ch 'a')) .euc .sjis = none := by
  rw [dgStr2code_eq]
  decide +kernel

end Messasy
