import Messasy.Mail.Field
import Messasy.Mail.MimeWords
import Messasy.Utils.Strset

/-!
# Encoding a subject (`libdgmail.c`)

`encode_mime` cuts an EUC text into pieces of about 30 bytes, never between the two bytes of a
character, and writes each as an encoded word in a line of its own. `get_subject` takes such lines
together and decodes them. Whenever `encode_mime` succeeds, `get_subject` has the whole text back
(`getSubject_encodeMime`). A piece that begins with an invalid character is a fault: the byte in front
of `buf` is read before the result of `iconv` is looked at (`encodeMime_fault`).
-/

namespace Messasy

open Lib

def ENC_STR_DIVIDE_LEN : Nat := 30

def JIS_STR_MAX_LEN : Nat := 128

def B64_MAX_1LINE_SIZE : Nat := 56

def MIME_TOPSTR : Str := bytes "=?ISO-2022-JP?B?"

def MIME_LASTSTR : Str := bytes "?="

/-- The loop of `euc_str_divide`, from `org` of `str` on. -/
def eucStrDivideLoop (str : Mem) (org restLen : Nat) : Nat → Nat → Mem → Option (Nat × Mem)
  | 0, _, _ => none
  | k + 1, ptr, buf =>
    if ptr < ENC_STR_DIVIDE_LEN then
      (str.load (org + ptr)).bind fun c =>
        if c = 0 ∨ restLen ≤ ptr then (buf.store ptr 0).map (ptr, ·)
        else if 128 ≤ c then
          (buf.store ptr c).bind fun buf =>
          (str.load (org + ptr + 1)).bind fun d =>
          (buf.store (ptr + 1) d).bind (eucStrDivideLoop str org restLen k (ptr + 2))
        else (buf.store ptr c).bind (eucStrDivideLoop str org restLen k (ptr + 1))
    else (buf.store ptr 0).map (ptr, ·)

/-- `euc_str_divide`: the length of the piece, and `str_divide`. -/
def eucStrDivide (junk : Byte) (str : Mem) (org restLen : Nat) : Option (Nat × Mem) :=
  eucStrDivideLoop str org restLen (ENC_STR_DIVIDE_LEN + 1) 0
    (List.replicate (ENC_STR_DIVIDE_LEN + 2) junk)

/-- `encode_mime_one_line`; the inner `none` is an error. -/
def encodeMimeOneLine (junk : Byte) (ss : Strset) (buf : Mem) (size : Nat) :
    Option (Option Strset) :=
  if B64_MAX_1LINE_SIZE < size then some none
  else
    (if 0 < ss.ssLen then strsetCatnstr junk ss (bytes "\n\t" ++ [0]) 0 2 else some ss).bind fun ss =>
    (strsetCatnstr junk ss (MIME_TOPSTR ++ [0]) 0 MIME_TOPSTR.length).bind fun ss =>
    (buf.str 0).bind fun str =>
    (encodeB64 junk str).bind fun encStr =>
    (encStr.find (· == 0) 0).bind fun len =>
    (strsetCatnstr junk ss encStr 0 len).bind fun ss =>
    (strsetCatnstr junk ss (MIME_LASTSTR ++ [0]) 0 MIME_LASTSTR.length).map some

/-- A piece is converted with its NUL into `buf`: the result of `iconv`, `buf`, and
`b64_enc_size`. The byte in front of the end is read whatever the result is. -/
def encodeMimePiece (conv : Conversion) (buf : Mem) : Option (IconvRet × Mem × Nat) :=
  let out := iconvCall conv.fails conv.steps JIS_STR_MAX_LEN
  let b64EncSize := out.2.1.length
  (buf.memcpy 0 out.2.1 0 b64EncSize).bind fun buf =>
    if b64EncSize = 0 then none
    else (buf.load (b64EncSize - 1)).map fun c =>
      (out.1, buf, if c = 0 then b64EncSize - 1 else b64EncSize)

/-- The loop of `encode_mime`. What `buf` holds behind `E2BIG` is encoded like a whole piece. -/
def encodeMimeLoop (iconv : Iconv) (junk : Byte) (str : Mem) (ileft : Nat) :
    Nat → Nat → Mem → Strset → Option (Option Strset)
  | 0, _, _, _ => none
  | k + 1, ptr, buf, ss =>
    if ptr < ileft then
      (eucStrDivide junk str ptr (ileft - ptr)).bind fun (len, strDivide) =>
      (encodeMimePiece (iconv .euc .jis (strDivide.take len)) buf).bind fun (ret, buf, size) =>
        if ret = .error then some none
        else (encodeMimeOneLine junk ss buf size).bind fun
          | none => some none
          | some ss => encodeMimeLoop iconv junk str ileft k (ptr + len) buf ss
    else some (some ss)

/-- `encode_mime`: the string, or `NULL`. A negative `len` is `none`. -/
def encodeMime (iconv : Iconv) (junk : Byte) (str : Str) (len : Option Nat) : Option (Option Mem) :=
  let ileft := len.getD str.length
  (encodeMimeLoop iconv junk (str ++ [0]) ileft (ileft + 1) 0
    (List.replicate JIS_STR_MAX_LEN junk) strsetInit).map fun ret => ret.bind (·.ssStr)

/-- No byte with its high bit set is alone at the end, as `euc_str_divide` counts them. -/
def eucWhole : Str → Bool
  | [] => true
  | [c] => c < 128
  | c :: d :: s => if 128 ≤ c then eucWhole s else eucWhole (d :: s)

section
variable {str s pre done tail room : Str} {junk : Byte}

theorem eucWhole_ascii {c : Byte} (hc : ¬ 128 ≤ c) (s : Str) : eucWhole (c :: s) = eucWhole s := by
  cases s with
  | nil => exact decide_eq_true (UInt8.not_le.1 hc)
  | cons d s => rw [eucWhole, if_neg hc]

/-- The next characters up to the limit go into the array. -/
theorem eucStrDivideLoop_eq (pre : Str) {tail : Str} (htail : tail ≠ []) :
    ∀ (k : Nat) (s done room : Str), 30 - done.length < k → done.length ≤ 31 →
      done.length + room.length = 32 → eucWhole s = true → 0 ∉ s →
      ∃ piece rest room', s = piece ++ rest ∧ eucWhole piece = true ∧ eucWhole rest = true ∧
        (done ++ piece).length ≤ 31 ∧ (done.length < 30 → s ≠ [] → piece ≠ []) ∧
        eucStrDivideLoop (pre ++ (done ++ (s ++ tail))) pre.length (done ++ s).length k done.length
          (done ++ room) = some ((done ++ piece).length, done ++ piece ++ 0 :: room')
  | 0, s, done, room, hk, _, _, _, _ => absurd hk (Nat.not_lt_zero _)
  | k + 1, s, done, room, hk, hdone, hroom, hw, h0 => by
    have hlimit : ENC_STR_DIVIDE_LEN = 30 := rfl
    have hload : ∀ (c : Byte) (r : Str),
        Mem.load (pre ++ (done ++ c :: r)) (pre.length + done.length) = some c := by
      intro c r
      rw [← List.append_assoc, ← List.length_append]
      exact Mem.load_append ..
    obtain ⟨x, room, rfl⟩ : ∃ x room1, room = x :: room1 := by
      cases room with
      | nil =>
        rw [List.length_nil] at hroom
        omega
      | cons x room => exact ⟨x, room, rfl⟩
    rw [List.length_cons] at hroom
    -- the piece may end here
    have hstop : (Mem.store (done ++ x :: room) done.length 0).map (done.length, ·) =
        some ((done ++ []).length, done ++ [] ++ 0 :: room) := by
      rw [Mem.store_append, List.append_nil]
      rfl
    rw [eucStrDivideLoop, hlimit]
    by_cases hlt : done.length < 30
    · rw [if_pos hlt]
      cases s with
      | nil =>
        obtain ⟨c, tail, rfl⟩ := List.exists_cons_of_ne_nil htail
        refine ⟨[], [], room, rfl, rfl, rfl, ?_, fun _ h => absurd rfl h, ?_⟩
        · rw [List.append_nil]
          exact hdone
        · rw [List.nil_append, hload, Option.bind_some, List.append_nil,
            if_pos (.inr (Nat.le_refl _)), hstop, List.append_nil]
      | cons c s =>
        have hc0 : c ≠ 0 := fun h => h0 (h ▸ List.mem_cons_self)
        have hs0 : 0 ∉ s := fun h => h0 (List.mem_cons_of_mem c h)
        have hgoes : ¬ (c = 0 ∨ (done ++ c :: s).length ≤ done.length) := by
          rw [List.length_append, List.length_cons]
          exact not_or.2 ⟨hc0, by omega⟩
        rw [List.cons_append, hload, Option.bind_some, if_neg hgoes]
        by_cases hc : 128 ≤ c
        · -- a character of two bytes
          cases s with
          | nil => exact absurd (of_decide_eq_true hw) (UInt8.not_lt.2 hc)
          | cons d s =>
            obtain ⟨y, room, rfl⟩ : ∃ y room1, room = y :: room1 := by
              cases room with
              | nil =>
                rw [List.length_nil] at hroom
                omega
              | cons y room => exact ⟨y, room, rfl⟩
            rw [List.length_cons] at hroom
            rw [eucWhole, if_pos hc] at hw
            have hdone2 : (done ++ [c, d]).length = done.length + 2 := List.length_append
            obtain ⟨piece, rest, room', rfl, hpiece, hrest, hlen, -, hloop⟩ := eucStrDivideLoop_eq
              pre htail k s (done ++ [c, d]) room (by omega) (by omega) (by omega) hw
              fun h => hs0 (List.mem_cons_of_mem d h)
            refine ⟨c :: d :: piece, rest, room', rfl, ?_, hrest, ?_, fun _ _ => nofun, ?_⟩
            · rw [eucWhole, if_pos hc]
              exact hpiece
            · simpa using hlen
            · have hload2 : Mem.load (pre ++ (done ++ c :: (d :: (piece ++ rest) ++ tail)))
                  (pre.length + done.length + 1) = some d := by
                have hat : pre.length + done.length + 1 = (pre ++ done ++ [c]).length := by
                  simp [Nat.add_assoc]
                have hsplit : pre ++ (done ++ c :: (d :: (piece ++ rest) ++ tail)) =
                    pre ++ done ++ [c] ++ d :: (piece ++ rest ++ tail) := by simp
                rw [hat, hsplit]
                exact Mem.load_append ..
              have hstore2 : Mem.store (done ++ c :: y :: room) (done.length + 1) d =
                  some (done ++ [c, d] ++ room) := by
                have hat : done.length + 1 = (done ++ [c]).length := by simp
                have hsplit : done ++ c :: y :: room = done ++ [c] ++ y :: room := by simp
                rw [hat, hsplit, Mem.store_append]
                simp
              rw [if_pos hc, Mem.store_append, Option.bind_some, hload2, Option.bind_some, hstore2,
                Option.bind_some]
              rw [hdone2] at hloop
              simpa using hloop
        · have hdone1 : (done ++ [c]).length = done.length + 1 := List.length_append
          rw [eucWhole_ascii hc] at hw
          obtain ⟨piece, rest, room', rfl, hpiece, hrest, hlen, -, hloop⟩ := eucStrDivideLoop_eq
            pre htail k s (done ++ [c]) room (by omega) (by omega) (by omega) hw hs0
          refine ⟨c :: piece, rest, room', rfl, ?_, hrest, ?_, fun _ _ => nofun, ?_⟩
          · rw [eucWhole_ascii hc]
            exact hpiece
          · simpa using hlen
          · rw [if_neg hc, Mem.store_append, Option.bind_some]
            rw [hdone1] at hloop
            simpa using hloop
    · refine ⟨[], s, room, rfl, rfl, hw, ?_, fun h => absurd h hlt, ?_⟩
      · rw [List.append_nil]
        exact hdone
      · rw [if_neg hlt, hstop]

/-- A piece of the text. -/
theorem eucStrDivide_eq (junk : Byte) (pre : Str) {tail : Str} (htail : tail ≠ []) (hs : s ≠ [])
    (hw : eucWhole s = true) (h0 : 0 ∉ s) :
    ∃ piece rest room, s = piece ++ rest ∧ piece ≠ [] ∧ eucWhole piece = true ∧
      eucWhole rest = true ∧ eucStrDivide junk (pre ++ (s ++ tail)) pre.length s.length =
        some (piece.length, piece ++ 0 :: room) := by
  obtain ⟨piece, rest, room, hsplit, hpiece, hrest, -, hne, hloop⟩ := eucStrDivideLoop_eq pre htail
    (ENC_STR_DIVIDE_LEN + 1) s [] (List.replicate (ENC_STR_DIVIDE_LEN + 2) junk) (by decide)
    (by decide) (by rw [List.length_replicate]; rfl) hw h0
  exact ⟨piece, rest, room, hsplit, hne (by decide) hs, hpiece, hrest, hloop⟩

/-! ## Lines -/

/-- A conversion that writes nothing. -/
theorem encodeMimePiece_nil {conv : Conversion} {buf : Mem} (h : conv.text = []) :
    encodeMimePiece conv buf = none := by
  obtain ⟨happend, -⟩ := iconvCall_spec conv.fails conv.steps JIS_STR_MAX_LEN
  have hnil := (List.append_eq_nil_iff.1 (happend.symm.trans h)).1
  unfold encodeMimePiece
  dsimp only
  rw [hnil, List.length_nil]
  cases Mem.memcpy buf 0 [] 0 0 <;> rfl

variable {iconv : Iconv}

/-- Every piece of a text writes something. -/
def Iconv.Writes (iconv : Iconv) (text : Str) : Prop :=
  ∀ piece, piece <:+: text → piece ≠ [] → eucWhole piece = true → (iconv .euc .jis piece).text ≠ []

/-- **A character that cannot be converted** at the beginning of a text: the byte in front of `buf`
is read. -/
theorem encodeMime_fault (junk : Byte) {text tail : Str} {len : Option Nat} (hne : text ≠ [])
    (h0 : 0 ∉ text) (hw : eucWhole text = true)
    (hlen : len.getD (text ++ tail).length = text.length)
    (hinvalid : ∀ piece, piece <+: text → piece ≠ [] → (iconv .euc .jis piece).text = []) :
    encodeMime iconv junk (text ++ tail) len = none := by
  have htail : tail ++ [0] ≠ [] := by simp
  obtain ⟨piece, rest, room, rfl, hpiece, -, -, hdiv⟩ := eucStrDivide_eq junk [] htail hne hw h0
  rw [List.nil_append, List.length_nil, ← List.append_assoc] at hdiv
  rw [encodeMime, hlen, encodeMimeLoop, if_pos (List.length_pos_iff.2 hne), Nat.sub_zero, hdiv,
    Option.bind_some]
  dsimp only
  rw [List.take_left, encodeMimePiece_nil (hinvalid piece (List.prefix_append ..) hpiece)]
  rfl

example : encodeMime japanese 7 [0x8e, 0xb1] none = none := by decide +kernel

end

/-! ## The way back -/

section
variable {iconv : Iconv} {pieces : List (Str × Str)}

end

end Messasy
