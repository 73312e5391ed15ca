import Mathlib.Algebra.Group.Nat.Defs
import Messasy.Lib.Base64
import Messasy.Lib.CString

/-!
# Base 64 (`libdgmail.c`)

`encode_b64` writes its text into an array of a size that it computes first, and `decode_b64` reads
characters one at a time. On its own text the reader gives the encoded string back, with white space
anywhere in between (`decodeB64_encodeB64`).
-/

namespace Messasy

open Lib

/-- The conversion table. -/
def base64 : Str := bytes "ABCDEFGHIJKLMNOPQRSTUVWXYZabcdefghijklmnopqrstuvwxyz0123456789+/"

/-- `base64[n]`. -/
def base64At (n : Nat) : Byte := base64.getD n 0

/-- `b64char2i`; `none` is `-1`. -/
def b64char2i (c : Byte) : Option Nat :=
  if ch 'A' ≤ c ∧ c ≤ ch 'Z' then some (c.toNat - (ch 'A').toNat + 0)
  else if ch 'a' ≤ c ∧ c ≤ ch 'z' then some (c.toNat - (ch 'a').toNat + 26)
  else if ch '0' ≤ c ∧ c ≤ ch '9' then some (c.toNat - (ch '0').toNat + 52)
  else if c = ch '+' then some 62
  else if c = ch '/' then some 63
  else none

/-- The size of the text, without its NUL; `none` when `rlen * 4` is no `int`. -/
def b64Length (rlen : Nat) : Option Nat :=
  if rlen * 4 < 2 ^ 31 then
    let blen := rlen * 4 / 3
    let blen := if rlen % 3 ≠ 0 then blen + 1 else blen
    some (blen + (4 - blen % 4))
  else none

/-- Fill up with `=`, from `bcnt` on. -/
def b64Fill : Nat → Nat → Mem → Option Mem
  | 0, _, bstr => some bstr
  | k + 1, bcnt, bstr => (bstr.store bcnt (ch '=')).bind (b64Fill k (bcnt + 1))

/-- The bytes from `bcnt` on. -/
def b64Put : Str → Nat → Mem → Option Mem
  | [], _, bstr => some bstr
  | c :: text, bcnt, bstr => (bstr.store bcnt c).bind (b64Put text (bcnt + 1))

/-- The loop of `encode_b64` at the rest of the string, and the NUL behind it. -/
def encodeB64Loop (blen : Nat) : Str → Nat → Mem → Option Mem
  | [], bcnt, bstr => bstr.store bcnt 0
  | [a], bcnt, bstr =>
    (b64Put [base64At (a.toNat >>> 2 &&& 0x3f), base64At ((a.toNat &&& 0x3) <<< 4)] bcnt bstr).bind
      fun bstr => (b64Fill (blen - (bcnt + 2)) (bcnt + 2) bstr).bind fun bstr =>
        bstr.store (max (bcnt + 2) blen) 0
  | [a, b], bcnt, bstr =>
    (b64Put [base64At (a.toNat >>> 2 &&& 0x3f),
      base64At (((a.toNat &&& 0x03) <<< 4) + (b.toNat >>> 4 &&& 0x0f)),
      base64At ((b.toNat &&& 0x0f) <<< 2)] bcnt bstr).bind
      fun bstr => (b64Fill (blen - (bcnt + 3)) (bcnt + 3) bstr).bind fun bstr =>
        bstr.store (max (bcnt + 3) blen) 0
  | a :: b :: c :: str, bcnt, bstr =>
    (b64Put [base64At (a.toNat >>> 2 &&& 0x3f),
      base64At (((a.toNat &&& 0x03) <<< 4) + (b.toNat >>> 4 &&& 0x0f)),
      base64At (((b.toNat &&& 0x0f) <<< 2) + (c.toNat >>> 6 &&& 0x03)),
      base64At (c.toNat &&& 0x3f)] bcnt bstr).bind (encodeB64Loop blen str (bcnt + 4))

/-- `encode_b64`: the array behind it. `junk` is what `malloc` finds. -/
def encodeB64 (junk : Byte) (str : Str) : Option Mem :=
  (b64Length str.length).bind fun blen =>
    encodeB64Loop blen str 0 (List.replicate (blen + 1) junk)

/-- The variables of `decode_b64`: what it has written, `i` and `d`. -/
structure DecodeB64 where
  dst : Str
  i : Nat
  d : Nat → Nat

/-- What is written behind the digit `i`. -/
def b64Emit (i : Nat) (d : Nat → Nat) : Str :=
  match i with
  | 1 => [UInt8.ofNat (d 0 <<< 2 ||| d 1 >>> 4)]
  | 2 => [UInt8.ofNat ((d 1 <<< 4 ||| d 2 >>> 2) &&& 0xff)]
  | 3 => [UInt8.ofNat ((d 2 <<< 6 ||| d 3) &&& 0xff)]
  | _ => []

/-- The loop of `decode_b64`; `none` is a decode error. -/
def decodeB64Loop : Str → DecodeB64 → Option Str
  | [], st => some st.dst
  | c :: src, st =>
    if c = ch '=' ∨ c = ch '?' then some st.dst
    else if isspace c then decodeB64Loop src st
    else match b64char2i c with
      | none => none
      | some n =>
        let d := Function.update st.d st.i n
        decodeB64Loop src ⟨st.dst ++ b64Emit st.i d, (st.i + 1) &&& 0x03, d⟩

/-- `decode_b64`: the bytes written in front of the NUL. -/
def decodeB64 (src : Str) : Option Str := decodeB64Loop src ⟨[], 0, fun _ => 0⟩

/-! ## The alphabet -/

def b64Alphabet : Alphabet where
  char x := base64At x.val
  index c := (b64char2i c).map sextet
  index_char := by decide +kernel

theorem b64char2i_lt : ∀ c n, b64char2i c = some n → n < 64 := by
  have hall : ∀ c, (b64char2i c).all (· < 64) = true := forall_byte (by decide +kernel)
  intro c n hc
  have := hall c
  rw [hc] at this
  simpa using this

/-- The characters of the table are no space, no `=` and no `?`. -/
theorem base64_solid (x : Sextet) : isspace (base64At x.val) = false ∧
    base64At x.val ≠ ch '=' ∧ base64At x.val ≠ ch '?' ∧ base64At x.val ≠ 0 := by
  revert x
  decide +kernel

/-! ## The writer -/

/-- The text of a string. -/
def b64Text (str : Str) : Str := b64Alphabet.encode (ch '=') str

/-- The characters of a text. -/
theorem b64Text_solid (str : Str) : ∀ c ∈ b64Text str, isspace c = false ∧ c ≠ ch '?' ∧ c ≠ 0 := by
  intro c hc
  rw [b64Text, Alphabet.encode, List.mem_append] at hc
  rcases hc with hc | hc
  · obtain ⟨x, -, rfl⟩ := List.mem_map.1 hc
    obtain ⟨hspace, -, hmark, hzero⟩ := base64_solid x
    exact ⟨hspace, hmark, hzero⟩
  · obtain rfl := List.eq_of_mem_replicate hc
    decide

theorem length_b64Text (str : Str) : (b64Text str).length = 4 * ((str.length + 2) / 3) :=
  b64Alphabet.length_encode (ch '=') str

theorem b64Put_append : ∀ (text done t r : Str), t.length = text.length →
    b64Put text done.length (done ++ (t ++ r)) = some (done ++ text ++ r)
  | [], done, t, r, h => by
    obtain rfl := List.length_eq_zero_iff.1 h
    rw [List.append_nil]
    rfl
  | c :: text, done, t, r, h => by
    cases t with
    | nil => cases h
    | cons d t =>
      have ih := b64Put_append text (done ++ [c]) t r (by simpa using h)
      rw [List.cons_append, b64Put, Mem.store_append, Option.bind_some]
      simpa using ih

/-- A text that fits is put in front of what is left of the array. -/
theorem b64Put_fits {text done r : Str} (h : text.length ≤ r.length) :
    b64Put text done.length (done ++ r) = some (done ++ text ++ r.drop text.length) := by
  have := b64Put_append text done (r.take text.length) (r.drop text.length)
    (List.length_take_of_le h)
  rwa [List.take_append_drop] at this

theorem b64Fill_eq : ∀ (k bcnt : Nat) (bstr : Mem),
    b64Fill k bcnt bstr = b64Put (List.replicate k (ch '=')) bcnt bstr
  | 0, _, _ => rfl
  | k + 1, bcnt, bstr => by
    rw [b64Fill, List.replicate_succ, b64Put]
    exact congrArg _ (funext fun bstr => b64Fill_eq k (bcnt + 1) bstr)

theorem store_fits {done r : Str} (c : Byte) (h : 0 < r.length) :
    Mem.store (done ++ r) done.length c = some (done ++ c :: r.drop 1) := by
  cases r with
  | nil => cases h
  | cons d r => exact Mem.store_append done r d c

theorem and_three (n : Nat) : n &&& 0x3 = n % 4 := Nat.and_two_pow_sub_one_eq_mod n 2

theorem and_fifteen (n : Nat) : n &&& 0xf = n % 16 := Nat.and_two_pow_sub_one_eq_mod n 4

theorem and_sixtyThree (n : Nat) : n &&& 0x3f = n % 64 := Nat.and_two_pow_sub_one_eq_mod n 6

/-- A group that is not full ends the text. -/
theorem encodeB64_last {text done r : Str} {k blen : Nat} (hk : text.length + k = 4)
    (hblen : blen = done.length + 4) (hr : 5 ≤ r.length) :
    (b64Put text done.length (done ++ r)).bind (fun bstr =>
      (b64Fill (blen - (done.length + text.length)) (done.length + text.length) bstr).bind
        fun bstr => bstr.store (max (done.length + text.length) blen) 0) =
      some (done ++ (text ++ List.replicate k (ch '=') ++ 0 :: r.drop 5)) := by
  have hcount : blen - (done ++ text).length = k := by
    rw [List.length_append]
    omega
  have hmax : max (done ++ text).length blen =
      (done ++ text ++ List.replicate k (ch '=')).length := by
    simp only [List.length_append, List.length_replicate]
    omega
  have hfill : (List.replicate k (ch '=')).length ≤ (r.drop text.length).length := by
    rw [List.length_replicate, List.length_drop]
    omega
  have hdrop : r.drop 5 = ((r.drop text.length).drop k).drop 1 := by
    rw [List.drop_drop, List.drop_drop]
    congr 1
    omega
  rw [b64Put_fits (by omega), Option.bind_some, ← List.length_append, b64Fill_eq, hcount,
    b64Put_fits hfill, Option.bind_some, hmax, store_fits, List.length_replicate, hdrop]
  · simp
  · simp only [List.length_drop, List.length_replicate]
    omega

/-- The characters of a group are those of its sextets. -/
theorem b64_chars (a b c : Byte) :
    base64At (a.toNat >>> 2 &&& 0x3f) = b64Alphabet.char (sextet (a.toNat / 4)) ∧
    base64At ((a.toNat &&& 0x3) <<< 4) = b64Alphabet.char (sextet (a.toNat % 4 * 16)) ∧
    base64At (((a.toNat &&& 0x03) <<< 4) + (b.toNat >>> 4 &&& 0x0f)) =
      b64Alphabet.char (sextet (a.toNat % 4 * 16 + b.toNat / 16)) ∧
    base64At ((b.toNat &&& 0x0f) <<< 2) = b64Alphabet.char (sextet (b.toNat % 16 * 4)) ∧
    base64At (((b.toNat &&& 0x0f) <<< 2) + (c.toNat >>> 6 &&& 0x03)) =
      b64Alphabet.char (sextet (b.toNat % 16 * 4 + c.toNat / 64)) ∧
    base64At (c.toNat &&& 0x3f) = b64Alphabet.char (sextet c.toNat) := by
  have ha := a.toNat_lt
  have hb := b.toNat_lt
  have hc := c.toNat_lt
  have hchar : ∀ {m n : Nat}, m = n % 64 → base64At m = b64Alphabet.char (sextet n) := by
    rintro m n rfl
    rfl
  simp only [and_three, and_fifteen, and_sixtyThree, Nat.shiftRight_eq_div_pow, Nat.shiftLeft_eq]
  exact ⟨hchar (by omega), hchar (by omega), hchar (by omega), hchar (by omega), hchar (by omega),
    hchar rfl⟩

theorem b64Text_group (a b c : Byte) (str : Str) :
    b64Text (a :: b :: c :: str) =
      [b64Alphabet.char (sextet (a.toNat / 4)),
        b64Alphabet.char (sextet (a.toNat % 4 * 16 + b.toNat / 16)),
        b64Alphabet.char (sextet (b.toNat % 16 * 4 + c.toNat / 64)),
        b64Alphabet.char (sextet c.toNat)] ++ b64Text str := by
  have hpad : (sextets (a :: b :: c :: str)).length % 4 = (sextets str).length % 4 := by
    rw [sextets]
    simp only [List.length_cons]
    omega
  rw [b64Text, b64Text, Alphabet.encode, Alphabet.encode, hpad, sextets]
  rfl

/-- The loop writes the text of the rest, and its NUL. -/
theorem encodeB64Loop_eq (blen : Nat) (str : Str) : ∀ done r : Str,
    (str.length % 3 ≠ 0 → blen = done.length + (b64Text str).length) →
    (b64Text str).length < r.length →
    encodeB64Loop blen str done.length (done ++ r) =
      some (done ++ (b64Text str ++ 0 :: r.drop ((b64Text str).length + 1))) := by
  induction str using sextets.induct with
  | case1 =>
    intro done r _ hr
    have hnil : b64Text [] = [] := rfl
    rw [hnil] at hr ⊢
    exact store_fits 0 hr
  | case2 a =>
    intro done r hblen hr
    have hlen : (b64Text [a]).length = 4 := by simp [length_b64Text]
    rw [hlen] at hblen hr ⊢
    obtain ⟨h1, h2, -⟩ := b64_chars a a a
    rw [encodeB64Loop, h1, h2]
    exact encodeB64_last (k := 2) rfl (hblen (by simp)) hr
  | case3 a b =>
    intro done r hblen hr
    have hlen : (b64Text [a, b]).length = 4 := by simp [length_b64Text]
    rw [hlen] at hblen hr ⊢
    obtain ⟨h1, -, h3, h4, -⟩ := b64_chars a b a
    rw [encodeB64Loop, h1, h3, h4]
    exact encodeB64_last (k := 1) rfl (hblen (by simp)) hr
  | case4 a b c str ih =>
    intro done r hblen hr
    obtain ⟨h1, -, h3, -, h5, h6⟩ := b64_chars a b c
    rw [b64Text_group] at hblen hr ⊢
    rw [encodeB64Loop, h1, h3, h5, h6]
    generalize htext : [b64Alphabet.char (sextet (a.toNat / 4)), _, _, _] = text at *
    have hfour : text.length = 4 := by rw [← htext]; rfl
    rw [List.length_append, hfour] at hblen hr ⊢
    rw [b64Put_fits (by omega), Option.bind_some, hfour,
      show done.length + 4 = (done ++ text).length by rw [List.length_append, hfour], ih]
    · rw [List.drop_drop, show 4 + ((b64Text str).length + 1) = 4 + (b64Text str).length + 1 by omega]
      simp
    · intro hmod
      rw [hblen (by rwa [List.length_cons, List.length_cons, List.length_cons, Nat.add_assoc,
        Nat.add_assoc, Nat.add_mod_right]), List.length_append, hfour]
      omega
    · rw [List.length_drop]
      omega

theorem encodeB64_eq (junk : Byte) {str : Str} (h : str.length < 2 ^ 29) :
    ∃ rest, encodeB64 junk str = some (b64Text str ++ 0 :: rest) := by
  have hlen := length_b64Text str
  obtain ⟨blen, hb, hroom, hblen⟩ : ∃ blen, b64Length str.length = some blen ∧
      (b64Text str).length < blen + 1 ∧
      (str.length % 3 ≠ 0 → blen = 0 + (b64Text str).length) := by
    unfold b64Length
    rw [if_pos (by omega), hlen]
    refine ⟨_, rfl, ?_, fun hmod => ?_⟩
    · split <;> omega
    · have hdiv := Nat.div_add_mod str.length 3
      have hlt := Nat.mod_lt str.length (by decide : 3 > 0)
      generalize str.length / 3 = e at hdiv
      obtain hk | hk : str.length % 3 = 1 ∨ str.length % 3 = 2 := by omega
      · rw [if_pos hmod, ← hdiv, hk]
        omega
      · rw [if_pos hmod, ← hdiv, hk]
        omega
  have heq := encodeB64Loop_eq blen str [] (List.replicate (blen + 1) junk) hblen
    (by rwa [List.length_replicate])
  rw [encodeB64, hb, Option.bind_some]
  exact ⟨_, heq⟩

/-! ## The reader -/

/-- The characters in front of the end. -/
def b64Inside (c : Byte) : Bool := !(c == ch '=' || c == ch '?')

/-- The digits that are read, unless there is another character among them. -/
def b64Digits (src : Str) : Option (List Sextet) :=
  ((src.takeWhile b64Inside).filter fun c => !isspace c).mapM
    b64Alphabet.index

/-- The digits one by one. -/
def b64Run : List Sextet → DecodeB64 → Str
  | [], st => st.dst
  | x :: l, st =>
    let d := Function.update st.d st.i x.val
    b64Run l ⟨st.dst ++ b64Emit st.i d, (st.i + 1) &&& 0x03, d⟩

theorem b64Digits_cons (c : Byte) (src : Str) : b64Digits (c :: src) =
    if c = ch '=' ∨ c = ch '?' then some []
    else if isspace c then b64Digits src
    else (b64Alphabet.index c).bind fun x => (b64Digits src).map (x :: ·) := by
  unfold b64Digits
  have hinside : b64Inside c = !decide (c = ch '=' ∨ c = ch '?') := by
    simp [b64Inside, Bool.decide_or, beq_eq_decide]
  rw [List.takeWhile_cons, hinside]
  by_cases hend : c = ch '=' ∨ c = ch '?'
  · simp [hend]
  · rw [if_neg hend, decide_eq_false hend, Bool.not_false, if_pos rfl, List.filter_cons]
    cases hs : isspace c with
    | true => rfl
    | false =>
      simp only [Bool.not_false, if_true, Bool.false_eq_true, if_false, List.mapM_cons]
      cases b64Alphabet.index c with
      | none => rfl
      | some x => cases List.mapM b64Alphabet.index _ <;> rfl

theorem decodeB64Loop_eq : ∀ (src : Str) (st : DecodeB64),
    decodeB64Loop src st = (b64Digits src).map fun l => b64Run l st
  | [], st => rfl
  | c :: src, st => by
    rw [decodeB64Loop, b64Digits_cons]
    split
    · rfl
    · split
      · exact decodeB64Loop_eq src st
      · have hindex : b64Alphabet.index c = (b64char2i c).map sextet := rfl
        rw [hindex]
        cases hc : b64char2i c with
        | none => rfl
        | some n =>
          have hn : (sextet n).val = n := Nat.mod_eq_of_lt (b64char2i_lt c n hc)
          dsimp only
          rw [decodeB64Loop_eq, Option.map_some, Option.bind_some, Option.map_map]
          refine congrArg (fun f => Option.map f (b64Digits src)) (funext fun l => ?_)
          rw [Function.comp_apply, b64Run, hn]

theorem b64Emit_octets : ∀ x y : Sextet,
    UInt8.ofNat (x.val <<< 2 ||| y.val >>> 4) = octet1 x y ∧
    UInt8.ofNat ((x.val <<< 4 ||| y.val >>> 2) &&& 0xff) = octet2 x y ∧
    UInt8.ofNat ((x.val <<< 6 ||| y.val) &&& 0xff) = octet3 x y := by decide +kernel

/-- From one full group to the next. -/
theorem b64Run_eq (l : List Sextet) : ∀ (dst : Str) (d : Nat → Nat),
    b64Run l ⟨dst, 0, d⟩ = dst ++ octets l := by
  have h1 := fun x y => (b64Emit_octets x y).1
  have h2 := fun x y => (b64Emit_octets x y).2.1
  have h3 := fun x y => (b64Emit_octets x y).2.2
  induction l using octets.induct with
  | case1 x y z w l ih =>
    intro dst d
    have hgroup : b64Run (x :: y :: z :: w :: l) ⟨dst, 0, d⟩ =
        b64Run l ⟨dst ++ [octet1 x y, octet2 y z, octet3 z w], 0, Function.update (Function.update
          (Function.update (Function.update d 0 x) 1 y) 2 z) 3 w⟩ := by
      simp [b64Run, b64Emit, h1, h2, h3]
    rw [hgroup, ih, octets, List.append_assoc]
    rfl
  | case2 x y z =>
    intro dst d
    simp [b64Run, b64Emit, h1, h2, octets]
  | case3 x y =>
    intro dst d
    simp [b64Run, b64Emit, h1, octets]
  | case4 x =>
    intro dst d
    simp [b64Run, b64Emit, octets]
  | case5 =>
    intro dst d
    simp [b64Run, octets]

theorem decodeB64_eq (src : Str) : decodeB64 src = (b64Digits src).map octets := by
  rw [decodeB64, decodeB64Loop_eq]
  refine congrArg (fun f => Option.map f (b64Digits src)) (funext fun l => ?_)
  rw [b64Run_eq, List.nil_append]

/-- The text of a string, with white space anywhere, has its digits. -/
theorem b64Digits_text {str src : Str} (h : (src.filter fun c => !isspace c) = b64Text str) :
    b64Digits src = some (sextets str) := by
  -- the white space may stand in front of the end as well as behind it
  have hpull : ∀ src : Str, (src.takeWhile b64Inside).filter (fun c => !isspace c) =
      (src.filter fun c => !isspace c).takeWhile b64Inside := by
    intro src
    induction src with
    | nil => rfl
    | cons c src ih =>
      have hspace : isspace c = true → b64Inside c = true :=
        (forall_byte (by decide +kernel) : ∀ c, isspace c = true → b64Inside c = true) c
      cases hs : isspace c with
      | true => simp [hs, hspace hs, ih]
      | false => cases hi : b64Inside c <;> simp [hs, hi, ih]
  have hinside : ∀ c ∈ (sextets str).map b64Alphabet.char, b64Inside c = true := by
    intro c hc
    obtain ⟨x, -, rfl⟩ := List.mem_map.1 hc
    obtain ⟨-, heq, hq, -⟩ := base64_solid x
    simpa [b64Inside, b64Alphabet] using ⟨heq, hq⟩
  have hpad : ∀ k, (List.replicate k (ch '=')).takeWhile b64Inside = [] := by
    intro k
    cases k with
    | zero => rfl
    | succ k => rfl
  rw [b64Digits, hpull, h, b64Text, Alphabet.encode, List.takeWhile_append_of_pos hinside, hpad,
    List.append_nil, Alphabet.mapM_index]

/-- **Round trip.** `encode_b64` stays within its array and leaves a text of four characters for
every three bytes begun; `decode_b64` reads it back, wherever white space has been put in. -/
theorem decodeB64_encodeB64 (junk : Byte) {str : Str} (h : str.length < 2 ^ 29) :
    ∃ bstr text, encodeB64 junk str = some bstr ∧ bstr.str 0 = some text ∧
      text.length = 4 * ((str.length + 2) / 3) ∧
      ∀ src : Str, (src.filter fun c => !isspace c) = text → decodeB64 src = some str := by
  obtain ⟨rest, heq⟩ := encodeB64_eq junk h
  have hzero : 0 ∉ b64Text str := fun hmem => (b64Text_solid str 0 hmem).2.2 rfl
  refine ⟨_, b64Text str, heq, Mem.str_append hzero [] rest, length_b64Text str, ?_⟩
  intro src hsrc
  rw [decodeB64_eq, b64Digits_text hsrc, Option.map_some, octets_sextets]

theorem decodeB64_encodeB64_hello : ∃ bstr, encodeB64 7 (bytes "hello") = some bstr ∧
    bstr.str 0 = some (bytes "aGVsbG8=") ∧
    decodeB64 (bytes "aGVs\n bG8=") = some (bytes "hello") := by
  obtain ⟨bstr, text, hb, ht, -, hdec⟩ := @decodeB64_encodeB64 7 (bytes "hello") (by decide)
  have htext : (encodeB64 7 (bytes "hello")).bind (fun m => m.str 0) = some (bytes "aGVsbG8=") := by
    decide +kernel
  rw [hb, Option.bind_some] at htext
  obtain rfl := Option.some.inj (ht.symm.trans htext)
  exact ⟨bstr, hb, ht, hdec _ (by decide)⟩

end Messasy
