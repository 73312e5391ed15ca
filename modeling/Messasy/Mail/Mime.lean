import Messasy.Lib.Strstr
import Messasy.Mail.Base64
import Messasy.Mail.QuotedPrintable
import Messasy.Module.Folder
import Messasy.Utils.Str2code

/-!
# Encoded words (`libdgmail.c`)

`decode_mime` copies a header value into an array that grows, and puts the text of an encoded word
in its place. Blanks between two encoded words do not count: they are copied, and when the second
word turns up the array is taken back to the end of the first one. `unfoldWords` says the same
without going back, from the words and characters that a value consists of (`MimeScan`); for every
value and every converter the array is never left, and its text is this one (`decodeMime_scan`). The
only access outside an array is the NUL of a translation that fills the array of `str2code`
(`MimeOverflow`, `FinishOverflow`).
-/

namespace Messasy

open Lib

/-! ## The parts of a word -/

/-- `BQ_B64` and `BQ_QP`. -/
inductive BqFlag
  | b64
  | qp
  deriving DecidableEq

/-- The `CODE_*` constants. -/
inductive CodeFlag
  | euc
  | jis
  | sjis
  | unknown
  | utf8
  deriving DecidableEq

/-- The beginnings of a word behind `=?` that are known, with what they set. -/
structure MimeName where
  str : Str
  bqflag : BqFlag
  codeflag : CodeFlag
  deriving DecidableEq

def MIME_JISB_STR : MimeName := ⟨bytes "ISO-2022-JP?B?", .b64, .jis⟩
def MIME_JISQ_STR : MimeName := ⟨bytes "ISO-2022-JP?Q?", .qp, .jis⟩
def MIME_SJISB_STR : MimeName := ⟨bytes "SHIFT_JIS?B?", .b64, .sjis⟩
def MIME_SJISQ_STR : MimeName := ⟨bytes "SHIFT_JIS?Q?", .qp, .sjis⟩
def MIME_EUCB_STR : MimeName := ⟨bytes "EUC-JP?B?", .b64, .euc⟩
def MIME_EUCQ_STR : MimeName := ⟨bytes "EUC-JP?Q?", .qp, .euc⟩
def MIME_UTF8B_STR : MimeName := ⟨bytes "UTF-8?B?", .b64, .utf8⟩
def MIME_UTF8Q_STR : MimeName := ⟨bytes "UTF-8?Q?", .qp, .utf8⟩

/-- In the order of the tests. -/
def mimeNames : List MimeName :=
  [MIME_JISB_STR, MIME_JISQ_STR, MIME_SJISB_STR, MIME_SJISQ_STR, MIME_EUCB_STR, MIME_EUCQ_STR,
    MIME_UTF8B_STR, MIME_UTF8Q_STR]

/-- What the tests of `decode_mime` set; `mimeend` is a place behind `subptr`. -/
structure MimePart where
  skiplen : Nat
  mimeend : Nat
  bqflag : BqFlag
  codeflag : CodeFlag

/-- The test for a name. -/
def MimeName.find (name : MimeName) (subptr : Str) : Option MimePart :=
  if ncaseEq name.str subptr then
    (strstr (bytes "?=") (subptr.drop name.str.length)).map fun i =>
      ⟨name.str.length, name.str.length + i, name.bqflag, name.codeflag⟩
  else none

/-- The tests for `?B?` and `?Q?` behind any name. The search for the end begins at this mark, and
may find its last character. -/
def findUnknown (mark : Str) (bqflag : BqFlag) (subptr : Str) : Option MimePart :=
  (strstr mark subptr).bind fun i =>
    (strstr (bytes "?=") (subptr.drop i)).map fun j => ⟨i + 3, i + j, bqflag, .unknown⟩

/-- All tests. -/
def mimePart (subptr : Str) : Option MimePart :=
  mimeNames.findSome? (·.find subptr) <|> findUnknown (bytes "?B?") .b64 subptr <|>
    findUnknown (bytes "?Q?") .qp subptr

/-- `subptr + skiplen`, after a NUL has been put at `mimeend`. -/
def MimePart.encoded (part : MimePart) (subptr : Str) : Str :=
  if part.skiplen ≤ part.mimeend then (subptr.take part.mimeend).drop part.skiplen
  else subptr.drop part.skiplen

/-- The bytes of a word, as the string that `decbuf` is. -/
def decodeBq (bqflag : BqFlag) (src : Str) : Option Str :=
  match bqflag with
  | .b64 => (decodeB64 src).map cstr
  | .qp => (decodeQp src).map cstr

/-- The text of the word behind `=?` in its own code, and what stands behind the word. -/
def mimeDecoded (subptr : Str) : Option (CodeFlag × Str × Str) :=
  (mimePart subptr).bind fun part =>
    (decodeBq part.bqflag (part.encoded subptr)).map fun decbuf =>
      (part.codeflag, decbuf, subptr.drop (part.mimeend + 2))

/-- The translation to JIS. The case of `CODE_SJIS` goes on into the next one, which overwrites
its result. -/
def toJis (iconv : Iconv) (junk : Byte) (codeflag : CodeFlag) (decbuf : Str) :
    Option (Option Str) :=
  if check7bit decbuf then
    match codeflag with
    | .jis | .unknown => dgStr2code iconv junk decbuf .jis .jis
    | .euc => dgStr2code iconv junk decbuf .euc .jis
    | .sjis => (dgStr2code iconv junk decbuf .sjis .jis).bind fun _ =>
        dgStr2code iconv junk decbuf .utf8 .jis
    | .utf8 => dgStr2code iconv junk decbuf .utf8 .jis
  else some (some decbuf)

/-- The word behind `=?`: `trbuf`, and what stands behind the word. -/
def mimeWord (iconv : Iconv) (junk : Byte) (subptr : Str) : Option (Option (Str × Str)) :=
  match mimeDecoded subptr with
  | none => some none
  | some (codeflag, decbuf, next) =>
    (toJis iconv junk codeflag decbuf).map fun trbuf => trbuf.map (·, next)

/-! ## The array -/

/-- `retbuf_addr`, with `retbuf` and `pretbuf` as places in it, and `emime_flag`. -/
structure RetBuf where
  addr : Mem
  retbuf : Nat
  pretbuf : Nat
  emimeFlag : Bool

namespace RetBuf

/-- The array has a byte more. -/
def rbsize (st : RetBuf) : Nat := st.addr.length - 1

/-- `ALLOC_RETBUF`. -/
def alloc (junk : Byte) (siz : Nat) (st : RetBuf) : RetBuf :=
  { st with addr := st.addr.realloc junk (st.rbsize + siz + 1) }

/-- `*retbuf++ = c`. -/
def put (junk c : Byte) (st : RetBuf) : Option RetBuf :=
  let st := if st.retbuf = st.rbsize then st.alloc junk BUFSIZE else st
  (st.addr.store st.retbuf c).map fun addr => { st with addr, retbuf := st.retbuf + 1 }

/-- The text of a word. -/
def strcpy (junk : Byte) (trbuf : Str) (st : RetBuf) : Option RetBuf :=
  let st := if st.emimeFlag then { st with retbuf := st.pretbuf } else st
  let st := if st.rbsize < st.retbuf + trbuf.length then st.alloc junk trbuf.length else st
  (st.addr.memcpy st.retbuf (trbuf ++ [0]) 0 (trbuf.length + 1)).map fun addr =>
    ⟨addr, st.retbuf + trbuf.length, st.retbuf + trbuf.length, true⟩

end RetBuf

/-- The loop of `decode_mime`, with a step for each word and each character. -/
def decodeMimeLoop (iconv : Iconv) (junk : Byte) : Nat → Str → RetBuf → Option RetBuf
  | 0, _, _ => none
  | _ + 1, [], st => some st
  | k + 1, c :: ptr, st =>
    if (bytes "=?").isPrefixOf (c :: ptr) then
      (mimeWord iconv junk (ptr.drop 1)).bind fun
      | some (trbuf, next) => (st.strcpy junk trbuf).bind (decodeMimeLoop iconv junk k next)
      | none => (st.put junk c).bind fun st =>
          decodeMimeLoop iconv junk k ptr { st with emimeFlag := false }
    else
      ({ st with emimeFlag := st.emimeFlag && isblank c }.put junk c).bind
        (decodeMimeLoop iconv junk k ptr)

/-- `euc2sjis_iconv`, whose result is kept when it succeeds. -/
def euc2sjis (iconv : Iconv) (junk : Byte) (str : Str) : Option Str :=
  (dgStr2code iconv junk str .euc .sjis).map (·.getD str)

/-- What becomes of the text at the end: every translation is kept when it succeeds. -/
def mimeFinish (iconv : Iconv) (junk : Byte) (str : Str) : Option Str :=
  if 0x1b ∈ str then
    (dgStr2code iconv junk str .jis .euc).bind fun trbuf => euc2sjis iconv junk (trbuf.getD str)
  else euc2sjis iconv junk str

/-- `decode_mime`. -/
def decodeMime (iconv : Iconv) (junk : Byte) (sstr : Str) : Option Str :=
  (decodeMimeLoop iconv junk (sstr.length + 1) sstr
    ⟨0 :: List.replicate sstr.length junk, 0, 0, false⟩).bind fun st =>
      (st.addr.store st.retbuf 0).bind fun addr => (addr.str 0).bind (mimeFinish iconv junk)

/-! ## What a value consists of -/

inductive MimeToken
  | word (text : Str)
  | char (c : Byte)

/-- The words and characters of a value, from the left. -/
inductive MimeScan (iconv : Iconv) (junk : Byte) : Str → List MimeToken → Prop
  | nil : MimeScan iconv junk [] []
  | word {subptr trbuf next : Str} {tokens : List MimeToken} :
      mimeWord iconv junk subptr = some (some (trbuf, next)) → MimeScan iconv junk next tokens →
      MimeScan iconv junk (bytes "=?" ++ subptr) (.word trbuf :: tokens)
  | char {c : Byte} {ptr : Str} {tokens : List MimeToken} :
      (∀ subptr, c :: ptr = bytes "=?" ++ subptr → mimeWord iconv junk subptr = some none) →
      MimeScan iconv junk ptr tokens → MimeScan iconv junk (c :: ptr) (.char c :: tokens)

/-- The codes that the text of a word is taken to be in. -/
def CodeFlag.charsets : CodeFlag → List Charset
  | .jis | .unknown => [.jis]
  | .euc => [.euc]
  | .sjis => [.sjis, .utf8]
  | .utf8 => [.utf8]

/-- The scan comes to a word whose translation leaves its array. -/
inductive MimeOverflow (iconv : Iconv) (junk : Byte) : Str → Prop
  | here {subptr decbuf next : Str} {codeflag : CodeFlag} {charset : Charset} :
      mimeDecoded subptr = some (codeflag, decbuf, next) → check7bit decbuf = true →
      charset ∈ codeflag.charsets → iconv.Overflows decbuf charset .jis →
      MimeOverflow iconv junk (bytes "=?" ++ subptr)
  | word {subptr trbuf next : Str} :
      mimeWord iconv junk subptr = some (some (trbuf, next)) → MimeOverflow iconv junk next →
      MimeOverflow iconv junk (bytes "=?" ++ subptr)
  | char {c : Byte} {ptr : Str} :
      (∀ subptr, c :: ptr = bytes "=?" ++ subptr → mimeWord iconv junk subptr = some none) →
      MimeOverflow iconv junk ptr → MimeOverflow iconv junk (c :: ptr)

/-- A translation of the text leaves its array. -/
def FinishOverflow (iconv : Iconv) (junk : Byte) (str : Str) : Prop :=
  if 0x1b ∈ str then
    iconv.Overflows str .jis .euc ∨ ∃ trbuf, dgStr2code iconv junk str .jis .euc = some trbuf ∧
      iconv.Overflows (trbuf.getD str) .euc .sjis
  else iconv.Overflows str .euc .sjis

/-- Only blanks stand in front of the next word. -/
def nextWord : List MimeToken → Bool
  | [] => false
  | .word _ :: _ => true
  | .char c :: tokens => isblank c && nextWord tokens

/-- The text of the tokens, without the blanks between two words. `behind` says whether there is a
word, and nothing but such blanks behind it. -/
def unfoldWords : Bool → List MimeToken → Str
  | _, [] => []
  | _, .word text :: tokens => text ++ unfoldWords true tokens
  | behind, .char c :: tokens =>
    if behind && nextWord (.char c :: tokens) then unfoldWords true tokens
    else c :: unfoldWords false tokens

section
variable {iconv : Iconv} {sstr ptr next trbuf out pre blanks : Str} {tokens : List MimeToken}
  {st : RetBuf} {junk c : Byte}

theorem unfoldWords_true (h : nextWord tokens = false) :
    unfoldWords true tokens = unfoldWords false tokens := by
  cases tokens with
  | nil => rfl
  | cons token tokens =>
    cases token with
    | word text => cases h
    | char c => simp [unfoldWords, h]

/-! ## Translations -/

theorem toJis_eq_none_iff {codeflag : CodeFlag} {decbuf : Str} :
    toJis iconv junk codeflag decbuf = none ↔ check7bit decbuf = true ∧
      ∃ charset ∈ codeflag.charsets, iconv.Overflows decbuf charset .jis := by
  have hbind : ∀ x y : Option (Option Str), (x.bind fun _ => y) = none ↔ x = none ∨ y = none := by
    intro x y
    cases x <;> simp
  unfold toJis
  split
  · rename_i hbits
    rw [and_iff_right hbits]
    cases codeflag <;> simp [CodeFlag.charsets, hbind, dgStr2code_eq_none_iff]
  · rename_i hbits
    exact ⟨nofun, fun h => absurd h.1 hbits⟩

theorem euc2sjis_eq_none_iff {str : Str} :
    euc2sjis iconv junk str = none ↔ iconv.Overflows str .euc .sjis := by
  rw [euc2sjis, Option.map_eq_none_iff, dgStr2code_eq_none_iff]

theorem mimeFinish_eq_none_iff {str : Str} :
    mimeFinish iconv junk str = none ↔ FinishOverflow iconv junk str := by
  unfold mimeFinish FinishOverflow
  split
  · rw [← dgStr2code_eq_none_iff]
    cases dgStr2code iconv junk str .jis .euc with
    | none => simp
    | some trbuf => simp [euc2sjis_eq_none_iff]
  · exact euc2sjis_eq_none_iff

/-- The translation of a word leaves its array, or the word has no text, or it has one. -/
theorem mimeWord_eq (iconv : Iconv) (junk : Byte) (subptr : Str) :
    (mimeWord iconv junk subptr = none ∧ MimeOverflow iconv junk (bytes "=?" ++ subptr)) ∨
    mimeWord iconv junk subptr = some none ∨
    ∃ codeflag decbuf next trbuf, mimeDecoded subptr = some (codeflag, decbuf, next) ∧
      toJis iconv junk codeflag decbuf = some (some trbuf) ∧
      mimeWord iconv junk subptr = some (some (trbuf, next)) := by
  unfold mimeWord
  cases hdec : mimeDecoded subptr with
  | none => exact .inr (.inl rfl)
  | some x =>
    obtain ⟨codeflag, decbuf, next⟩ := x
    dsimp only
    cases htr : toJis iconv junk codeflag decbuf with
    | none =>
      obtain ⟨hbits, charset, hmem, hover⟩ := toJis_eq_none_iff.1 htr
      exact .inl ⟨rfl, .here hdec hbits hmem hover⟩
    | some trbuf =>
      cases trbuf with
      | none => exact .inr (.inl rfl)
      | some trbuf => exact .inr (.inr ⟨_, _, _, _, rfl, htr, rfl⟩)

theorem mimeWord_some {subptr : Str} (h : mimeWord iconv junk subptr = some (some (trbuf, next))) :
    ∃ codeflag decbuf, mimeDecoded subptr = some (codeflag, decbuf, next) ∧
      toJis iconv junk codeflag decbuf = some (some trbuf) := by
  rcases mimeWord_eq iconv junk subptr with
    ⟨hw, -⟩ | hw | ⟨codeflag, decbuf, next', trbuf', hdec, htr, hw⟩
  · cases h.symm.trans hw
  · cases h.symm.trans hw
  · obtain ⟨rfl, rfl⟩ := Prod.mk.inj (Option.some.inj (Option.some.inj (h.symm.trans hw)))
    exact ⟨codeflag, decbuf, hdec, htr⟩

/-- The text of a word is a string, and the rest of the value a part of it. -/
theorem mimeDecoded_some {subptr decbuf : Str} {codeflag : CodeFlag}
    (h : mimeDecoded subptr = some (codeflag, decbuf, next)) :
    0 ∉ decbuf ∧ ∃ n, next = subptr.drop n := by
  obtain ⟨part, -, h⟩ := Option.bind_eq_some_iff.1 h
  obtain ⟨decbuf', hbq, h⟩ := Option.map_eq_some_iff.1 h
  obtain ⟨-, h⟩ := Prod.mk.inj h
  obtain ⟨rfl, rfl⟩ := Prod.mk.inj h
  have hcstr : ∀ {x : Option Str}, x.map cstr = some decbuf' → 0 ∉ decbuf' := by
    intro x hs
    obtain ⟨buf, -, rfl⟩ := Option.map_eq_some_iff.1 hs
    exact notMem_before buf 0
  refine ⟨?_, _, rfl⟩
  unfold decodeBq at hbq
  split at hbq <;> exact hcstr hbq

/-- A word takes its mark and its end with it. -/
theorem mimeWord_shorter {subptr : Str}
    (h : mimeWord iconv junk subptr = some (some (trbuf, next))) :
    next.length ≤ subptr.length := by
  obtain ⟨codeflag, decbuf, hdec, -⟩ := mimeWord_some h
  obtain ⟨-, n, rfl⟩ := mimeDecoded_some hdec
  rw [List.length_drop]
  exact Nat.sub_le ..

theorem notMem_toJis {codeflag : CodeFlag} {decbuf : Str} (h0 : 0 ∉ decbuf)
    (h : toJis iconv junk codeflag decbuf = some (some trbuf)) : 0 ∉ trbuf := by
  unfold toJis at h
  split at h
  · cases codeflag with
    | sjis =>
      obtain ⟨-, -, h⟩ := Option.bind_eq_some_iff.1 h
      exact notMem_dgStr2code h
    | euc => exact notMem_dgStr2code h
    | jis => exact notMem_dgStr2code h
    | unknown => exact notMem_dgStr2code h
    | utf8 => exact notMem_dgStr2code h
  · exact Option.some.inj (Option.some.inj h) ▸ h0

/-- Every value has its tokens, as far as its words have translations. -/
theorem MimeScan.total (iconv : Iconv) (junk : Byte) : ∀ (n : Nat) (sstr : Str), sstr.length < n →
    (∃ tokens, MimeScan iconv junk sstr tokens) ∨ MimeOverflow iconv junk sstr
  | 0, sstr, h => absurd h (Nat.not_lt_zero _)
  | n + 1, [], _ => .inl ⟨[], .nil⟩
  | n + 1, c :: ptr, h => by
    have hptr : ptr.length < n := Nat.lt_of_succ_lt_succ h
    by_cases hmark : ∃ subptr, c :: ptr = bytes "=?" ++ subptr ∧
        mimeWord iconv junk subptr ≠ some none
    · obtain ⟨subptr, hsub, hne⟩ := hmark
      have hlen := congrArg List.length hsub
      rw [List.length_append, List.length_cons] at hlen
      have hmark : (bytes "=?").length = 2 := rfl
      rw [hsub]
      rcases mimeWord_eq iconv junk subptr with
        ⟨-, hover⟩ | hnone | ⟨codeflag, decbuf, next, trbuf, -, -, hword⟩
      · exact .inr hover
      · exact absurd hnone hne
      · have hnext := mimeWord_shorter hword
        rcases MimeScan.total iconv junk n next (by omega) with ⟨tokens, htokens⟩ | hover
        · exact .inl ⟨.word trbuf :: tokens, .word hword htokens⟩
        · exact .inr (.word hword hover)
    · have hno : ∀ subptr, c :: ptr = bytes "=?" ++ subptr →
          mimeWord iconv junk subptr = some none := fun subptr hsub =>
        by_contra fun hne => hmark ⟨subptr, hsub, hne⟩
      rcases MimeScan.total iconv junk n ptr hptr with ⟨tokens, htokens⟩ | hover
      · exact .inl ⟨.char c :: tokens, .char hno htokens⟩
      · exact .inr (.char hno hover)

/-! ## The array holds the text -/

/-- The array begins with `out`; while `emime_flag` is set, `out` is what `pretbuf` points behind,
and blanks. -/
structure RetBuf.Holds (st : RetBuf) (pre blanks : Str) : Prop where
  addr : ∃ room, st.addr = pre ++ blanks ++ room ∧ room ≠ []
  retbuf : st.retbuf = (pre ++ blanks).length
  pretbuf : st.emimeFlag = true → st.pretbuf = pre.length

theorem RetBuf.Holds.room (h : st.Holds pre blanks) :
    (pre ++ blanks).length ≤ st.rbsize ∧ st.rbsize + 1 = st.addr.length := by
  obtain ⟨room, haddr, hroom⟩ := h.addr
  have hpos := List.length_pos_iff.2 hroom
  have hlen := congrArg List.length haddr
  rw [List.length_append] at hlen
  unfold RetBuf.rbsize
  omega

/-- `ALLOC_RETBUF` keeps what is there. -/
theorem RetBuf.Holds.alloc (h : st.Holds pre blanks) (junk : Byte) (siz : Nat) :
    (st.alloc junk siz).Holds pre blanks ∧ (st.alloc junk siz).rbsize = st.rbsize + siz := by
  obtain ⟨hle, hsize⟩ := h.room
  obtain ⟨room, haddr, hroom⟩ := h.addr
  have hrealloc : st.addr.realloc junk (st.rbsize + siz + 1) =
      pre ++ blanks ++ (room ++ List.replicate siz junk) := by
    unfold Mem.realloc
    rw [List.take_of_length_le (by omega), haddr, List.append_assoc]
    refine congrArg (fun n => pre ++ blanks ++ (room ++ List.replicate n junk)) ?_
    rw [← haddr]
    omega
  refine ⟨⟨⟨_, hrealloc, ?_⟩, h.retbuf, h.pretbuf⟩, ?_⟩
  · exact List.append_ne_nil_of_left_ne_nil hroom _
  · have hlen := congrArg List.length hrealloc
    have hold := congrArg List.length haddr
    simp only [List.length_append, List.length_replicate] at hlen hold
    show (st.addr.realloc junk (st.rbsize + siz + 1)).length - 1 = st.rbsize + siz
    simp only [hlen]
    omega

/-- A character is put behind what is there. -/
theorem RetBuf.Holds.put (h : st.Holds pre blanks) (junk c : Byte) :
    ∃ st', st.put junk c = some st' ∧ st'.Holds pre (blanks ++ [c]) ∧
      st'.emimeFlag = st.emimeFlag := by
  obtain ⟨st1, hst1, h1, hflag, hspace⟩ : ∃ st1,
      (if st.retbuf = st.rbsize then st.alloc junk BUFSIZE else st) = st1 ∧ st1.Holds pre blanks ∧
        st1.emimeFlag = st.emimeFlag ∧ st1.retbuf < st1.rbsize := by
    refine ⟨_, rfl, ?_⟩
    obtain ⟨hle, -⟩ := h.room
    obtain ⟨halloc, hsize⟩ := h.alloc junk BUFSIZE
    have hbuf : 0 < BUFSIZE := by decide
    have hoff := h.retbuf
    split
    · refine ⟨halloc, rfl, ?_⟩
      show st.retbuf < _
      omega
    · refine ⟨h, rfl, ?_⟩
      omega
  unfold RetBuf.put
  rw [hst1]
  dsimp only
  obtain ⟨room, haddr, -⟩ := h1.addr
  have hsize := h1.room.2
  have hoff := h1.retbuf
  cases room with
  | nil =>
    rw [List.append_nil] at haddr
    rw [haddr] at hsize
    omega
  | cons d room =>
    have hstore : st1.addr.store st1.retbuf c = some (pre ++ blanks ++ c :: room) := by
      rw [haddr, hoff, Mem.store_append]
    rw [hstore]
    refine ⟨_, rfl, ⟨⟨room, by simp, ?_⟩, ?_, h1.pretbuf⟩, hflag⟩
    · rintro rfl
      have hlen := congrArg List.length haddr
      rw [List.length_append] at hlen
      simp only [List.length_cons, List.length_nil] at hlen
      omega
    · show st1.retbuf + 1 = _
      rw [hoff, ← List.append_assoc, @List.length_append _ _ [c]]
      rfl

/-- A word is put behind what is there, or behind the word in front of it. -/
theorem RetBuf.Holds.strcpy (h : st.Holds pre blanks) (junk : Byte) (trbuf : Str) :
    ∃ st', st.strcpy junk trbuf = some st' ∧ st'.emimeFlag = true ∧
      st'.Holds ((if st.emimeFlag then pre else pre ++ blanks) ++ trbuf) [] := by
  obtain ⟨out, st1, hout, hst1, h1⟩ : ∃ out st1,
      (if st.emimeFlag then pre else pre ++ blanks) = out ∧
        (if st.emimeFlag then { st with retbuf := st.pretbuf } else st) = st1 ∧
        st1.Holds out [] := by
    refine ⟨_, _, rfl, rfl, ?_⟩
    obtain ⟨room, haddr, hroom⟩ := h.addr
    split
    · rename_i hflag
      refine ⟨⟨blanks ++ room, by simpa using haddr, ?_⟩, ?_, h.pretbuf⟩
      · exact List.append_ne_nil_of_right_ne_nil _ hroom
      · rw [List.append_nil]
        exact h.pretbuf hflag
    · rename_i hflag
      refine ⟨⟨room, by rw [haddr, List.append_nil], hroom⟩, ?_, fun hf => absurd hf hflag⟩
      rw [List.append_nil]
      exact h.retbuf
  obtain ⟨st2, hst2, h2, hspace⟩ : ∃ st2,
      (if st1.rbsize < st1.retbuf + trbuf.length then st1.alloc junk trbuf.length else st1) = st2 ∧
        st2.Holds out [] ∧ st2.retbuf + trbuf.length ≤ st2.rbsize := by
    refine ⟨_, rfl, ?_⟩
    obtain ⟨halloc, hsize⟩ := h1.alloc junk trbuf.length
    have hle := h1.room.1
    have hoff := h1.retbuf
    split
    · refine ⟨halloc, ?_⟩
      show st1.retbuf + _ ≤ _
      omega
    · refine ⟨h1, ?_⟩
      omega
  unfold RetBuf.strcpy
  rw [hst1]
  dsimp only
  rw [hst2, hout]
  obtain ⟨room, haddr, -⟩ := h2.addr
  have hsize := h2.room.2
  have hoff := h2.retbuf
  rw [List.append_nil] at haddr hoff
  have hlen := congrArg List.length haddr
  rw [List.length_append] at hlen
  have htake : (room.take (trbuf.length + 1)).length = (trbuf ++ [0]).length := by
    rw [List.length_take, List.length_append, List.length_singleton]
    omega
  have hcopy := Mem.memcpy_append htake [] [] (room.drop (trbuf.length + 1)) (s := out)
  have hcopied : st2.addr.memcpy st2.retbuf (trbuf ++ [0]) 0 (trbuf.length + 1) =
      some (out ++ (trbuf ++ [0]) ++ room.drop (trbuf.length + 1)) := by
    rw [haddr, hoff, ← List.take_append_drop (trbuf.length + 1) room, ← List.append_assoc]
    simpa using hcopy
  rw [hcopied]
  refine ⟨_, rfl, rfl, ⟨0 :: room.drop (trbuf.length + 1), by simp, List.cons_ne_nil _ _⟩, ?_, ?_⟩
  · show st2.retbuf + trbuf.length = _
    rw [hoff, List.append_nil, List.length_append]
  · intro _
    show st2.retbuf + trbuf.length = _
    rw [hoff, List.length_append]

/-- A round of the loop for a word. -/
theorem decodeMimeLoop_word {subptr : Str} (k : Nat) (hst : st.Holds pre blanks)
    (hword : mimeWord iconv junk subptr = some (some (trbuf, next))) :
    ∃ st1, st1.emimeFlag = true ∧
      st1.Holds ((if st.emimeFlag then pre else pre ++ blanks) ++ trbuf) [] ∧
      decodeMimeLoop iconv junk (k + 1) (bytes "=?" ++ subptr) st =
        decodeMimeLoop iconv junk k next st1 := by
  obtain ⟨st1, hcpy, hflag, h1⟩ := hst.strcpy junk trbuf
  have hmark : (bytes "=?").isPrefixOf (ch '=' :: ch '?' :: subptr) = true := rfl
  refine ⟨st1, hflag, h1, ?_⟩
  show decodeMimeLoop iconv junk (k + 1) (ch '=' :: ch '?' :: subptr) st = _
  rw [decodeMimeLoop, if_pos hmark, List.drop_one, List.tail_cons, hword, Option.bind_some]
  dsimp only
  rw [hcpy, Option.bind_some]

/-- A round of the loop for a character: `=` is no blank, so both ways to copy a character leave the
same flag. -/
theorem decodeMimeLoop_char (k : Nat) (hst : st.Holds pre blanks)
    (hno : ∀ subptr, c :: ptr = bytes "=?" ++ subptr → mimeWord iconv junk subptr = some none) :
    ∃ st1, st1.emimeFlag = (st.emimeFlag && isblank c) ∧ st1.Holds pre (blanks ++ [c]) ∧
      decodeMimeLoop iconv junk (k + 1) (c :: ptr) st = decodeMimeLoop iconv junk k ptr st1 := by
  rw [decodeMimeLoop]
  split
  · rename_i hmark
    obtain ⟨subptr, hsub⟩ := List.isPrefixOf_iff_prefix.1 hmark
    have hc : c = ch '=' := (List.cons.inj hsub).1.symm
    have hrest : ptr.drop 1 = subptr := by
      rw [← (List.cons.inj hsub).2]
      rfl
    obtain ⟨st1, hput, h1, -⟩ := hst.put junk c
    refine ⟨{ st1 with emimeFlag := false }, ?_, ⟨h1.addr, h1.retbuf, nofun⟩, ?_⟩
    · rw [hc]
      exact (Bool.and_false _).symm
    · rw [hrest, hno subptr hsub.symm, Option.bind_some]
      dsimp only
      rw [hput, Option.bind_some]
  · have hclear : ({ st with emimeFlag := st.emimeFlag && isblank c } : RetBuf).Holds pre
        blanks := by
      refine ⟨hst.addr, hst.retbuf, fun hf => hst.pretbuf ?_⟩
      exact (Bool.and_eq_true_iff.1 hf).1
    obtain ⟨st1, hput, h1, hflag⟩ := hclear.put junk c
    refine ⟨st1, hflag, h1, ?_⟩
    rw [hput, Option.bind_some]

/-- The loop leaves the text of the tokens. While `emime_flag` is set, the blanks in the array are
those of the tokens before, and a word behind them takes them away. -/
theorem decodeMimeLoop_scan (h : MimeScan iconv junk ptr tokens) :
    ∀ {k : Nat} {st : RetBuf} {pre blanks : Str}, ptr.length < k → st.Holds pre blanks →
      ∃ st' room, decodeMimeLoop iconv junk k ptr st = some st' ∧ room ≠ [] ∧
        st'.addr = (if st.emimeFlag && nextWord tokens then pre ++ unfoldWords true tokens
          else pre ++ blanks ++ unfoldWords false tokens) ++ room ∧
        st'.retbuf = (if st.emimeFlag && nextWord tokens then pre ++ unfoldWords true tokens
          else pre ++ blanks ++ unfoldWords false tokens).length := by
  induction h with
  | nil =>
    intro k st pre blanks hk hst
    obtain ⟨k, rfl⟩ := Nat.exists_eq_succ_of_ne_zero (Nat.ne_zero_of_lt hk)
    obtain ⟨room, haddr, hroom⟩ := hst.addr
    refine ⟨st, room, rfl, hroom, ?_, ?_⟩
    · simpa [nextWord, unfoldWords] using haddr
    · simpa [nextWord, unfoldWords] using hst.retbuf
  | @word subptr trbuf next tokens hword _ ih =>
    intro k st pre blanks hk hst
    obtain ⟨k, rfl⟩ := Nat.exists_eq_succ_of_ne_zero (Nat.ne_zero_of_lt hk)
    have hshort : next.length < k := by
      have hnext := mimeWord_shorter hword
      have hlen : (bytes "=?" ++ subptr).length = subptr.length + 2 := by
        rw [List.length_append]
        exact Nat.add_comm ..
      omega
    obtain ⟨st1, hflag, h1, hstep⟩ := decodeMimeLoop_word k hst hword
    obtain ⟨st', room, hloop, hroom, haddr, hoff⟩ := ih hshort h1
    refine ⟨st', room, hstep.trans hloop, hroom, ?_⟩
    have htext : (if st1.emimeFlag && nextWord tokens then
          (if st.emimeFlag then pre else pre ++ blanks) ++ trbuf ++ unfoldWords true tokens
        else (if st.emimeFlag then pre else pre ++ blanks) ++ trbuf ++ [] ++
          unfoldWords false tokens) =
        if st.emimeFlag && nextWord (.word trbuf :: tokens) then
          pre ++ unfoldWords true (.word trbuf :: tokens)
        else pre ++ blanks ++ unfoldWords false (.word trbuf :: tokens) := by
      rw [hflag, Bool.true_and]
      cases hn : nextWord tokens <;> cases st.emimeFlag <;>
        simp [nextWord, unfoldWords, unfoldWords_true, hn]
    rw [← htext]
    exact ⟨haddr, hoff⟩
  | @char c ptr tokens hno _ ih =>
    intro k st pre blanks hk hst
    obtain ⟨k, rfl⟩ := Nat.exists_eq_succ_of_ne_zero (Nat.ne_zero_of_lt hk)
    obtain ⟨st1, hflag, h1, hstep⟩ := decodeMimeLoop_char k hst hno
    obtain ⟨st', room, hloop, hroom, haddr, hoff⟩ := ih (Nat.lt_of_succ_lt_succ hk) h1
    refine ⟨st', room, hstep.trans hloop, hroom, ?_⟩
    have htext : (if st1.emimeFlag && nextWord tokens then pre ++ unfoldWords true tokens
          else pre ++ (blanks ++ [c]) ++ unfoldWords false tokens) =
        if st.emimeFlag && nextWord (.char c :: tokens) then
          pre ++ unfoldWords true (.char c :: tokens)
        else pre ++ blanks ++ unfoldWords false (.char c :: tokens) := by
      rw [hflag]
      cases hn : nextWord tokens <;> cases st.emimeFlag <;> cases hb : isblank c <;>
        simp [nextWord, unfoldWords, hn, hb]
    rw [← htext]
    exact ⟨haddr, hoff⟩

/-- The loop gets to the word whose translation leaves its array. -/
theorem decodeMimeLoop_overflow (h : MimeOverflow iconv junk ptr) :
    ∀ {k : Nat} {st : RetBuf} {pre blanks : Str}, st.Holds pre blanks →
      decodeMimeLoop iconv junk k ptr st = none := by
  induction h with
  | @here subptr decbuf next codeflag charset hdec hbits hmem hover =>
    intro k st pre blanks _
    cases k with
    | zero => rfl
    | succ k =>
      have hmark : (bytes "=?").isPrefixOf (ch '=' :: ch '?' :: subptr) = true := rfl
      have hword : mimeWord iconv junk subptr = none := by
        rw [mimeWord, hdec]
        dsimp only
        rw [toJis_eq_none_iff.2 ⟨hbits, charset, hmem, hover⟩, Option.map_none]
      show decodeMimeLoop iconv junk (k + 1) (ch '=' :: ch '?' :: subptr) st = _
      rw [decodeMimeLoop, if_pos hmark, List.drop_one, List.tail_cons, hword, Option.bind_none]
  | @word subptr trbuf next hword _ ih =>
    intro k st pre blanks hst
    cases k with
    | zero => rfl
    | succ k =>
      obtain ⟨st1, -, h1, hstep⟩ := decodeMimeLoop_word k hst hword
      exact hstep.trans (ih h1)
  | @char c ptr hno _ ih =>
    intro k st pre blanks hst
    cases k with
    | zero => rfl
    | succ k =>
      obtain ⟨st1, -, h1, hstep⟩ := decodeMimeLoop_char k hst hno
      exact hstep.trans (ih h1)

theorem mem_unfoldWords : ∀ {tokens : List MimeToken} {behind : Bool},
    c ∈ unfoldWords behind tokens → .char c ∈ tokens ∨ ∃ text, .word text ∈ tokens ∧ c ∈ text
  | .word text :: tokens, behind, h => by
    rcases List.mem_append.1 h with h | h
    · exact .inr ⟨text, List.mem_cons_self, h⟩
    · rcases mem_unfoldWords h with h | ⟨text', h, hc⟩
      · exact .inl (List.mem_cons_of_mem _ h)
      · exact .inr ⟨text', List.mem_cons_of_mem _ h, hc⟩
  | .char d :: tokens, behind, h => by
    have hor : c = d ∨ ∃ b, c ∈ unfoldWords b tokens := by
      unfold unfoldWords at h
      split at h
      · exact .inr ⟨_, h⟩
      · exact (List.mem_cons.1 h).imp_right fun h => ⟨_, h⟩
    rcases hor with rfl | ⟨b, h⟩
    · exact .inl List.mem_cons_self
    · rcases mem_unfoldWords h with h | ⟨text', h, hc⟩
      · exact .inl (List.mem_cons_of_mem _ h)
      · exact .inr ⟨text', List.mem_cons_of_mem _ h, hc⟩

/-- The tokens have no NUL. -/
theorem MimeScan.notMem_zero (h : MimeScan iconv junk sstr tokens) (h0 : 0 ∉ sstr) (behind : Bool) :
    0 ∉ unfoldWords behind tokens := by
  have hall : .char 0 ∉ tokens ∧ ∀ text, .word text ∈ tokens → 0 ∉ text := by
    induction h with
    | nil => exact ⟨List.not_mem_nil, fun _ hm => absurd hm List.not_mem_nil⟩
    | @word subptr trbuf next tokens hword _ ih =>
      obtain ⟨codeflag, decbuf, hdec, htr⟩ := mimeWord_some hword
      obtain ⟨hdec0, n, rfl⟩ := mimeDecoded_some hdec
      have htr0 := notMem_toJis hdec0 htr
      obtain ⟨hchar, hwords⟩ := ih fun hm =>
        h0 (List.mem_append_right _ (List.mem_of_mem_drop hm))
      refine ⟨by simpa using hchar, fun text hm => ?_⟩
      rcases List.mem_cons.1 hm with heq | hm
      · exact MimeToken.word.inj heq ▸ htr0
      · exact hwords text hm
    | @char c ptr tokens _ _ ih =>
      simp only [List.mem_cons, not_or] at h0
      obtain ⟨hchar, hwords⟩ := ih h0.2
      exact ⟨by simpa using ⟨h0.1, hchar⟩, fun text hm => hwords text (by simpa using hm)⟩
  intro hm
  rcases mem_unfoldWords hm with hm | ⟨text, hm, hc⟩
  · exact hall.1 hm
  · exact hall.2 text hm hc

theorem retBuf_start (sstr : Str) (junk : Byte) :
    (⟨0 :: List.replicate sstr.length junk, 0, 0, false⟩ : RetBuf).Holds [] [] :=
  ⟨⟨_, rfl, List.cons_ne_nil _ _⟩, rfl, nofun⟩

/-- The result, from any reading of the value. -/
theorem decodeMime_eq (h0 : 0 ∉ sstr) (h : MimeScan iconv junk sstr tokens) :
    decodeMime iconv junk sstr = mimeFinish iconv junk (unfoldWords false tokens) := by
  obtain ⟨st', room, hloop, hroom, haddr, hoff⟩ :=
    decodeMimeLoop_scan h (Nat.lt_succ_self _) (retBuf_start sstr junk)
  rw [Bool.false_and, if_neg Bool.false_ne_true, List.nil_append, List.nil_append] at haddr hoff
  obtain ⟨d, room, rfl⟩ := List.exists_cons_of_ne_nil hroom
  rw [decodeMime, hloop, Option.bind_some, haddr, hoff, Mem.store_append, Option.bind_some]
  have hstr := Mem.str_append (h.notMem_zero h0 false) [] room
  rw [List.nil_append, List.length_nil] at hstr
  rw [hstr, Option.bind_some]

theorem decodeMime_overflow (h : MimeOverflow iconv junk sstr) :
    decodeMime iconv junk sstr = none := by
  rw [decodeMime, decodeMimeLoop_overflow h (retBuf_start sstr junk), Option.bind_none]

end

/-- **Encoded words.** A value that has a reading as words and characters becomes its text, without
the blanks between two words. Every value has one, unless the translation of a word leaves its array;
no access leaves an array but those of such a translation, of a word or of the whole text. -/
theorem decodeMime_scan (iconv : Iconv) (junk : Byte) {sstr : Str} (h0 : 0 ∉ sstr) :
    ((∃ tokens, MimeScan iconv junk sstr tokens) ∨ MimeOverflow iconv junk sstr) ∧
    (∀ tokens, MimeScan iconv junk sstr tokens →
      decodeMime iconv junk sstr = mimeFinish iconv junk (unfoldWords false tokens)) ∧
    (decodeMime iconv junk sstr = none ↔ MimeOverflow iconv junk sstr ∨
      ∃ tokens, MimeScan iconv junk sstr tokens ∧
        FinishOverflow iconv junk (unfoldWords false tokens)) := by
  have htotal := MimeScan.total iconv junk _ sstr (Nat.lt_succ_self _)
  refine ⟨htotal, fun _ h => decodeMime_eq h0 h, fun hnone => ?_, ?_⟩
  · rcases htotal with ⟨tokens, htokens⟩ | hover
    · rw [decodeMime_eq h0 htokens, mimeFinish_eq_none_iff] at hnone
      exact .inr ⟨tokens, htokens, hnone⟩
    · exact .inl hover
  · rintro (hover | ⟨tokens, htokens, hover⟩)
    · exact decodeMime_overflow hover
    · rw [decodeMime_eq h0 htokens, mimeFinish_eq_none_iff]
      exact hover

/-- Two words next to each other, one behind a text, and the beginning of a word alone. -/
theorem decodeMime_scan_words : ∃ tokens,
    MimeScan japanese 7 (bytes "=?euc-jp?q?=A4=A2?= \t=?ISO-2022-JP?B?GyRCJCQbKEI=?= =?")
        tokens ∧
      mimeFinish japanese 7 (unfoldWords false tokens) =
        some ([0x82, 0xa0, 0x82, 0xa2] ++ bytes " =?") := by
  have hrun : decodeMime japanese 7
      (bytes "=?euc-jp?q?=A4=A2?= \t=?ISO-2022-JP?B?GyRCJCQbKEI=?= =?") =
        some ([0x82, 0xa0, 0x82, 0xa2] ++ bytes " =?") := by
    decide +kernel
  obtain ⟨htotal, hall, -⟩ := decodeMime_scan japanese 7 (by decide +kernel :
    0 ∉ bytes "=?euc-jp?q?=A4=A2?= \t=?ISO-2022-JP?B?GyRCJCQbKEI=?= =?")
  rcases htotal with ⟨tokens, htokens⟩ | hover
  · exact ⟨tokens, htokens, (hall tokens htokens).symm.trans hrun⟩
  · cases hrun.symm.trans (decodeMime_overflow hover)

end Messasy
