import Messasy.Lib.Bytes

/-!
# Quoted printable (`libdgmail.c`)

`decode_qp` goes through the text with three states. `QuotedPrintable` says the same by the pieces
that a text is made of: characters as they are, line breaks behind `=`, and escapes, of which the
code also takes those without two hexadecimal digits.
-/

namespace Messasy

open Lib

/-- `hex2i`; `none` is `-1`. The letters go up to `Z`. -/
def hex2i (c : Byte) : Option Nat :=
  if ch '0' ≤ c ∧ c ≤ ch '9' then some (c.toNat - (ch '0').toNat)
  else if ch 'A' ≤ c ∧ c ≤ ch 'Z' then some (c.toNat - (ch 'A').toNat + 10)
  else if ch 'a' ≤ c ∧ c ≤ ch 'z' then some (c.toNat - (ch 'a').toNat + 10)
  else none

/-- The `STATE_*` constants; behind the first digit it is kept. -/
inductive QpState
  | normal
  | quote1
  | quote2 (d1 : Nat)
  deriving DecidableEq

/-- One round of the loop: the state and what is written. -/
def QpState.next (c : Byte) : QpState → QpState × Str
  | .normal => if c = ch '=' then (.quote1, []) else (.normal, [c])
  | .quote1 =>
    if c = CR then (.quote1, [])
    else if c = LF then (.normal, [])
    else match hex2i c with
      | none => (.normal, [c])
      | some d1 => (.quote2 d1, [])
  | .quote2 d1 =>
    match hex2i c with
    | none => (.normal, [UInt8.ofNat (d1 <<< 4 ||| c.toNat)])
    | some d2 => (.normal, [UInt8.ofNat (d1 <<< 4 ||| d2)])

/-- The loop of `decode_qp`; `none` is a decode error. -/
def decodeQpLoop : Str → QpState → Option Str
  | [], st => if st = .normal then some [] else none
  | c :: src, st => (decodeQpLoop src (st.next c).1).map ((st.next c).2 ++ ·)

/-- `decode_qp`. -/
def decodeQp (src : Str) : Option Str := decodeQpLoop src .normal

/-! ## The grammar -/

/-- The text that a string stands for. Behind `=` carriage returns do not count. -/
inductive QuotedPrintable : Str → Str → Prop
  | nil : QuotedPrintable [] []
  | plain {c : Byte} {src text : Str} : c ≠ ch '=' → QuotedPrintable src text →
      QuotedPrintable (c :: src) (c :: text)
  /-- A soft line break. -/
  | soft {k : Nat} {src text : Str} : QuotedPrintable src text →
      QuotedPrintable (ch '=' :: (List.replicate k CR ++ LF :: src)) text
  | hex {k d1 d2 : Nat} {x y : Byte} {src text : Str} : hex2i x = some d1 → hex2i y = some d2 →
      QuotedPrintable src text →
      QuotedPrintable (ch '=' :: (List.replicate k CR ++ x :: y :: src))
        (UInt8.ofNat (d1 <<< 4 ||| d2) :: text)
  /-- No digit at all. -/
  | other {k : Nat} {c : Byte} {src text : Str} : c ≠ CR → c ≠ LF → hex2i c = none →
      QuotedPrintable src text →
      QuotedPrintable (ch '=' :: (List.replicate k CR ++ c :: src)) (c :: text)
  /-- One digit only. -/
  | half {k d1 : Nat} {x c : Byte} {src text : Str} : hex2i x = some d1 → hex2i c = none →
      QuotedPrintable src text →
      QuotedPrintable (ch '=' :: (List.replicate k CR ++ x :: c :: src))
        (UInt8.ofNat (d1 <<< 4 ||| c.toNat) :: text)

/-- A digit ends the carriage returns. -/
theorem hex2i_solid : ∀ c, hex2i c ≠ none → c ≠ CR ∧ c ≠ LF ∧ c ≠ ch '=' := by
  have h : ∀ c, (hex2i c).isSome = true → c ≠ CR ∧ c ≠ LF ∧ c ≠ ch '=' :=
    forall_byte (by decide +kernel)
  exact fun c hc => h c (Option.isSome_iff_ne_none.2 hc)

/-- Carriage returns behind `=` keep the state. -/
theorem decodeQpLoop_returns (k : Nat) (src : Str) :
    decodeQpLoop (List.replicate k CR ++ src) .quote1 = decodeQpLoop src .quote1 := by
  induction k with
  | zero => rfl
  | succ k ih =>
    rw [List.replicate_succ, List.cons_append, decodeQpLoop, QpState.next, if_pos rfl, ih]
    exact Option.map_id'

theorem decodeQpLoop_cons {c : Byte} {src : Str} {st st' : QpState} {out : Str}
    (h : st.next c = (st', out)) :
    decodeQpLoop (c :: src) st = (decodeQpLoop src st').map (out ++ ·) := by
  rw [decodeQpLoop, h]

theorem QpState.next_quote : QpState.next (ch '=') .normal = (.quote1, []) := rfl

theorem QpState.next_soft : QpState.next LF .quote1 = (.normal, []) := rfl

/-- What is read behind `=` ends in a piece of the grammar. -/
theorem quotedPrintable_quote1 {text : Str} : ∀ {src : Str},
    (∀ {src' text' : Str}, src'.length < src.length → decodeQp src' = some text' →
      QuotedPrintable src' text') →
    decodeQpLoop src .quote1 = some text → QuotedPrintable (ch '=' :: src) text := by
  intro src hrec h
  -- the carriage returns first
  obtain ⟨k, rest, rfl, hrest⟩ : ∃ k rest, src = List.replicate k CR ++ rest ∧
      rest.head? ≠ some CR := by
    clear hrec h
    induction src with
    | nil => exact ⟨0, [], rfl, by simp⟩
    | cons c src ih =>
      by_cases hc : c = CR
      · obtain ⟨k, rest, rfl, hrest⟩ := ih
        exact ⟨k + 1, rest, by rw [hc]; rfl, hrest⟩
      · exact ⟨0, c :: src, rfl, by simpa using hc⟩
  rw [decodeQpLoop_returns] at h
  cases rest with
  | nil => cases h
  | cons c src =>
    have hcr : c ≠ CR := by simpa using hrest
    have hshort : src.length < (List.replicate k CR ++ c :: src).length := by
      simp only [List.length_append, List.length_cons]
      omega
    by_cases hlf : c = LF
    · subst hlf
      rw [decodeQpLoop_cons QpState.next_soft, Option.map_eq_some_iff] at h
      obtain ⟨text', ht, rfl⟩ := h
      exact .soft (hrec hshort ht)
    · cases hx : hex2i c with
      | none =>
        have hn : QpState.next c .quote1 = (.normal, [c]) := by
          simp [QpState.next, hcr, hlf, hx]
        rw [decodeQpLoop_cons hn, Option.map_eq_some_iff] at h
        obtain ⟨text', ht, rfl⟩ := h
        exact .other hcr hlf hx (hrec hshort ht)
      | some d1 =>
        have hn : QpState.next c .quote1 = (.quote2 d1, []) := by
          simp [QpState.next, hcr, hlf, hx]
        rw [decodeQpLoop_cons hn, Option.map_eq_some_iff] at h
        obtain ⟨text', ht, rfl⟩ := h
        cases src with
        | nil => cases ht
        | cons y src =>
          replace hshort : src.length < (List.replicate k CR ++ c :: y :: src).length :=
            Nat.lt_trans (Nat.lt_succ_self _) hshort
          cases hy : hex2i y with
          | none =>
            have hn : QpState.next y (.quote2 d1) =
                (.normal, [UInt8.ofNat (d1 <<< 4 ||| y.toNat)]) := by simp [QpState.next, hy]
            rw [decodeQpLoop_cons hn, Option.map_eq_some_iff] at ht
            obtain ⟨text'', ht, rfl⟩ := ht
            exact .half hx hy (hrec hshort ht)
          | some d2 =>
            have hn : QpState.next y (.quote2 d1) = (.normal, [UInt8.ofNat (d1 <<< 4 ||| d2)]) := by
              simp [QpState.next, hy]
            rw [decodeQpLoop_cons hn, Option.map_eq_some_iff] at ht
            obtain ⟨text'', ht, rfl⟩ := ht
            exact .hex hx hy (hrec hshort ht)

/-- The loop reads the grammar. -/
theorem decodeQp_of_grammar {src text : Str} (h : QuotedPrintable src text) :
    decodeQp src = some text := by
  unfold decodeQp
  induction h with
  | nil => rfl
  | @plain c src text hc _ ih =>
    have hn : QpState.next c .normal = (.normal, [c]) := by simp [QpState.next, hc]
    rw [decodeQpLoop_cons hn, ih]
    rfl
  | @soft k src text _ ih =>
    rw [decodeQpLoop_cons QpState.next_quote, decodeQpLoop_returns,
      decodeQpLoop_cons QpState.next_soft, ih]
    rfl
  | @hex k d1 d2 x y src text hx hy _ ih =>
    obtain ⟨hcr, hlf, -⟩ := hex2i_solid x (by simp [hx])
    have h1 : QpState.next x .quote1 = (.quote2 d1, []) := by simp [QpState.next, hcr, hlf, hx]
    have h2 : QpState.next y (.quote2 d1) = (.normal, [UInt8.ofNat (d1 <<< 4 ||| d2)]) := by
      simp [QpState.next, hy]
    rw [decodeQpLoop_cons QpState.next_quote, decodeQpLoop_returns,
      decodeQpLoop_cons h1, decodeQpLoop_cons h2, ih]
    rfl
  | @other k c src text hcr hlf hx _ ih =>
    have h1 : QpState.next c .quote1 = (.normal, [c]) := by simp [QpState.next, hcr, hlf, hx]
    rw [decodeQpLoop_cons QpState.next_quote, decodeQpLoop_returns,
      decodeQpLoop_cons h1, ih]
    rfl
  | @half k d1 x c src text hx hc _ ih =>
    obtain ⟨hcr, hlf, -⟩ := hex2i_solid x (by simp [hx])
    have h1 : QpState.next x .quote1 = (.quote2 d1, []) := by simp [QpState.next, hcr, hlf, hx]
    have h2 : QpState.next c (.quote2 d1) = (.normal, [UInt8.ofNat (d1 <<< 4 ||| c.toNat)]) := by
      simp [QpState.next, hc]
    rw [decodeQpLoop_cons QpState.next_quote, decodeQpLoop_returns,
      decodeQpLoop_cons h1, decodeQpLoop_cons h2, ih]
    rfl

theorem grammar_of_decodeQp : ∀ (n : Nat) {src text : Str}, src.length < n →
    decodeQp src = some text → QuotedPrintable src text
  | 0, src, text, hn, _ => absurd hn (Nat.not_lt_zero _)
  | n + 1, [], text, _, h => by
    cases h
    exact .nil
  | n + 1, c :: src, text, hn, h => by
    have hlen : src.length < n := Nat.lt_of_succ_lt_succ hn
    by_cases hc : c = ch '='
    · subst hc
      rw [decodeQp, decodeQpLoop_cons QpState.next_quote, Option.map_eq_some_iff] at h
      obtain ⟨text', ht, rfl⟩ := h
      exact quotedPrintable_quote1
        (fun hshort => grammar_of_decodeQp n (Nat.lt_trans hshort hlen)) ht
    · have hnext : QpState.next c .normal = (.normal, [c]) := by simp [QpState.next, hc]
      rw [decodeQp, decodeQpLoop_cons hnext, Option.map_eq_some_iff] at h
      obtain ⟨text', ht, rfl⟩ := h
      exact .plain hc (grammar_of_decodeQp n hlen ht)

/-- The text never needs more room than the string. -/
theorem QuotedPrintable.length_le {src text : Str} (h : QuotedPrintable src text) :
    text.length ≤ src.length := by
  induction h with
  | nil => exact Nat.le_refl _
  | _ =>
    simp only [List.length_cons, List.length_append, List.length_replicate] at *
    omega

/-- What an encoder writes: a byte as it is, a byte by its two digits, or a soft line break. -/
inductive QpPiece
  | plain (c : Byte) (h : c ≠ ch '=')
  | escape (c x y : Byte) (hx : hex2i x = some (c.toNat / 16)) (hy : hex2i y = some (c.toNat % 16))
  | soft (cr : Bool)

namespace QpPiece

def text : QpPiece → Str
  | plain c _ => [c]
  | escape _ x y _ _ => [ch '=', x, y]
  | soft cr => ch '=' :: (if cr then [CR, LF] else [LF])

def value : QpPiece → Str
  | plain c _ => [c]
  | escape c _ _ _ _ => [c]
  | soft _ => []

/-- A piece in front of a text of the grammar. -/
theorem quotedPrintable {src text : Str} (h : QuotedPrintable src text) : ∀ piece : QpPiece,
    QuotedPrintable (piece.text ++ src) (piece.value ++ text)
  | plain c hc => .plain hc h
  | escape c x y hx hy => by
    have hc := c.toNat_lt
    have hval : UInt8.ofNat ((c.toNat / 16) <<< 4 ||| c.toNat % 16) = c := by
      have hor : (c.toNat / 16) <<< 4 ||| c.toNat % 16 = c.toNat := by
        rw [← Nat.shiftLeft_add_eq_or_of_lt (by omega : c.toNat % 16 < 2 ^ 4), Nat.shiftLeft_eq]
        omega
      rw [hor]
      exact UInt8.ofNat_toNat
    have hhex := QuotedPrintable.hex (k := 0) hx hy h
    rwa [hval] at hhex
  | soft false => .soft (k := 0) h
  | soft true => .soft (k := 1) h

end QpPiece

/-- **The state machine is the grammar**: `decode_qp` has a result exactly on the strings of the
grammar, the text that they stand for, within an array as long as the string. A text is read back
whichever bytes are escaped, in either case of the digits, as long as `=` is, and wherever soft line
breaks have been put in. -/
theorem decodeQp_iff : (∀ src text, decodeQp src = some text ↔ QuotedPrintable src text) ∧
    (∀ src text, decodeQp src = some text → text.length ≤ src.length) ∧
    ∀ pieces : List QpPiece,
      decodeQp (pieces.flatMap (·.text)) = some (pieces.flatMap (·.value)) := by
  have hiff : ∀ src text, decodeQp src = some text ↔ QuotedPrintable src text := fun src text =>
    ⟨grammar_of_decodeQp _ (Nat.lt_succ_self _), decodeQp_of_grammar⟩
  refine ⟨hiff, fun src text h => ((hiff src text).1 h).length_le, fun pieces => ?_⟩
  refine decodeQp_of_grammar ?_
  induction pieces with
  | nil => exact .nil
  | cons piece pieces ih =>
    rw [List.flatMap_cons, List.flatMap_cons]
    exact piece.quotedPrintable ih

/-- An escape with a small letter, and a soft line break. -/
theorem decodeQp_iff_escaped : decodeQp (bytes "a=3d=\r\nb") = some (bytes "a=b") :=
  decodeQp_iff.2.2 [.plain (ch 'a') (by decide), .escape (ch '=') (ch '3') (ch 'd') (by decide)
    (by decide), .soft true, .plain (ch 'b') (by decide)]

end Messasy
