import Messasy.Mail.Addrpart
import Mathlib.Data.List.Basic

/-!
# RFC 5321 mailboxes and the scan of `get_addrpart`

A `Mailbox` is a local part and a domain of the RFC's grammar. Inside a quoted string the scan
treats the second backslash of a quoted `\\` as an escape of its own, outside the quotes (`MODE_QS`
goes to `MODE_S`): it finds the closing quote only when nothing but further backslashes or a quoted
`"` follows (`closes`). `getAddrpart_bracket` says what `get_addrpart` makes of `<mailbox>`.
-/

namespace Messasy

open Lib

/-- `atext`, and the dot between atoms. -/
def isDotText (c : Byte) : Bool :=
  (48 ≤ c && c ≤ 57) || (65 ≤ c && c ≤ 90) || (97 ≤ c && c ≤ 122) ||
    (bytes "!#$%&'*+-/=?^_`\x7b|\x7d~.").contains c

/-- `qtextSMTP`: the graphic characters and the blank, but for the quote and the backslash. -/
def isQtext (c : Byte) : Bool := 32 ≤ c && c ≤ 126 && c != ch '"' && c != ch '\\'

/-- What a backslash may quote (`quoted-pairSMTP`). -/
def isQuotable (c : Byte) : Bool := 32 ≤ c && c ≤ 126

/-- A domain or an address literal; `IPv6` is the only literal tag that is registered. -/
def isDomainText (c : Byte) : Bool :=
  (48 ≤ c && c ≤ 57) || (65 ≤ c && c ≤ 90) || (97 ≤ c && c ≤ 122) ||
    (bytes "-.[]:").contains c

/-- `QcontentSMTP`. -/
inductive Qcontent
  | qtext (c : Byte) (h : isQtext c = true)
  | quotedPair (c : Byte) (h : isQuotable c = true)

/-- `Local-part`. -/
inductive LocalPart
  | dotString (s : Str) (hne : s ≠ []) (h : ∀ c ∈ s, isDotText c = true)
  | quotedString (q : List Qcontent)

structure Mailbox where
  localPart : LocalPart
  domain : Str
  hdomain : ∀ c ∈ domain, isDomainText c = true

def Qcontent.text : Qcontent → Str
  | .qtext c _ => [c]
  | .quotedPair c _ => [ch '\\', c]

def LocalPart.text : LocalPart → Str
  | .dotString s _ _ => s
  | .quotedString q => ch '"' :: (q.flatMap Qcontent.text ++ [ch '"'])

def Mailbox.text (m : Mailbox) : Str := m.localPart.text ++ ch '@' :: m.domain

/-- The argument of `MAIL` and `RCPT`. -/
def bracket (s : Str) : Str := ch '<' :: (s ++ [ch '>'])

/-- Every quoted backslash is followed by the closing quote or by a quoted backslash or quote; the
flag says that the item before was a quoted backslash. -/
def closes : Bool → List Qcontent → Bool
  | _, [] => true
  | false, .qtext _ _ :: q => closes false q
  | false, .quotedPair c _ :: q => closes (c == ch '\\') q
  | true, .qtext _ _ :: _ => false
  | true, .quotedPair c _ :: q =>
    if c = ch '\\' then closes true q else if c = ch '"' then closes false q else false

/-- The local parts that the scan reads to their end. -/
def LocalPart.closes : LocalPart → Bool
  | .dotString _ _ _ => true
  | .quotedString q => Messasy.closes false q

/-! ## One character -/

theorem Scan.char_of_ne {sc : Scan} (h : sc.mode ≠ .zero) (i : Nat) (c : Byte) :
    sc.char i c = sc.textChar i c := if_neg h

/-- A character that the scan does not look at in normal mode. -/
def isPlain (c : Byte) : Bool := !(bytes "\"<>()\\").contains c

theorem Scan.char_plain {sc : Scan} {c : Byte} (h : isPlain c = true) (hm : sc.mode = .n) (i : Nat) :
    sc.char i c = sc := by
  rw [Scan.char_of_ne (by rw [hm]; decide)]
  simp only [isPlain, bytes, String.toList, Bool.not_eq_true', List.contains_eq_mem,
    decide_eq_false_iff_not] at h
  have hne : ∀ d ∈ (bytes "\"<>()\\"), c ≠ d := fun d hd e => h (e ▸ hd)
  have h1 : c ≠ ch '\\' := hne _ (by decide)
  have h2 : c ≠ ch '"' := hne _ (by decide)
  have h3 : c ≠ ch '<' := hne _ (by decide)
  have h4 : c ≠ ch '>' := hne _ (by decide)
  have h5 : c ≠ ch '(' := hne _ (by decide)
  have h6 : c ≠ ch ')' := hne _ (by decide)
  simp [Scan.textChar, Scan.normalChar, hm, h1, h2, h3, h4, h5, h6]

theorem scanLoop_append : ∀ (s t : Str) (i : Nat) (sc : Scan),
    scanLoop i (s ++ t) sc = scanLoop (i + s.length) t (scanLoop i s sc)
  | [], _, _, _ => rfl
  | c :: s, t, i, sc => by
    rw [List.cons_append, scanLoop, scanLoop_append s t, scanLoop, List.length_cons,
      show i + 1 + s.length = i + (s.length + 1) by omega]

theorem scanLoop_plain : ∀ {s : Str} (_ : ∀ c ∈ s, isPlain c = true) {sc : Scan}
    (_ : sc.mode = .n) (i : Nat), scanLoop i s sc = sc
  | [], _, _, _, _ => rfl
  | c :: s, h, sc, hm, i => by
    rw [scanLoop, Scan.char_plain (h c List.mem_cons_self) hm,
      scanLoop_plain (fun d hd => h d (List.mem_cons_of_mem _ hd)) hm]

/-! ## A quoted string -/

section
variable {sc : Scan} {c : Byte} (i : Nat)

theorem Scan.char_q (h : isQtext c = true) (hm : sc.mode = .q) : sc.char i c = sc := by
  simp only [isQtext, Bool.and_eq_true, bne_iff_ne] at h
  rw [Scan.char_of_ne (by simp [hm])]
  simp [Scan.textChar, hm, h.1.2, h.2]

/-- A quoted pair, read inside the quotes. -/
theorem Scan.pair_q (hm : sc.mode = .q) :
    (sc.char i (ch '\\')).char (i + 1) c =
      { sc with mode := if c = ch '\\' then .s else .q } := by
  have h1 : sc.char i (ch '\\') = { sc with mode := .qs } := by
    rw [Scan.char_of_ne (by simp [hm])]; simp [Scan.textChar, hm]
  rw [h1, Scan.char_of_ne (by simp)]
  by_cases hc : c = ch '\\' <;> simp [Scan.textChar, hc]

/-- A quoted pair behind a quoted backslash: the two backslashes cancel, and `c` is read outside
the quotes. -/
theorem Scan.pair_s (hm : sc.mode = .s) :
    (sc.char i (ch '\\')).char (i + 1) c = { sc with mode := .n }.textChar (i + 1) c := by
  have h1 : sc.char i (ch '\\') = { sc with mode := .n } := by
    rw [Scan.char_of_ne (by simp [hm])]; simp [Scan.textChar, hm]
  rw [h1, Scan.char_of_ne (by simp)]

theorem Scan.mode_normalChar (hm : sc.mode = .n) (hc : c ≠ ch '"') :
    (sc.normalChar i c).mode = .n := by
  unfold Scan.normalChar
  rw [if_neg hc]
  repeat' split
  all_goals exact hm

/-- Outside the quotes an item of the string leaves the scan outside. -/
theorem Scan.mode_item (hm : sc.mode = .n) : ∀ x : Qcontent, (scanLoop i x.text sc).mode = .n
  | .qtext c h => by
    simp only [isQtext, Bool.and_eq_true, bne_iff_ne] at h
    have : sc.char i c = sc.normalChar i c := by
      rw [Scan.char_of_ne (by simp [hm])]; simp [Scan.textChar, hm, h.2]
    simp only [Qcontent.text, scanLoop, this]
    exact Scan.mode_normalChar i hm h.1.2
  | .quotedPair c _ => by
    have h1 : sc.char i (ch '\\') = { sc with mode := .s } := by
      rw [Scan.char_of_ne (by simp [hm])]; simp [Scan.textChar, hm]
    simp only [Qcontent.text, scanLoop, h1]
    rw [Scan.char_of_ne (by simp)]
    by_cases hc : c = ch '\\' <;> simp [Scan.textChar, hc]

end

/-- A quote read in normal mode opens quotes. -/
theorem Scan.char_quote (sc : Scan) (hm : sc.mode = .n) (i : Nat) :
    sc.char i (ch '"') = { sc with mode := .q } := by
  rw [Scan.char_of_ne (by simp [hm])]
  have : ch '"' ≠ ch '\\' := by decide
  simp [Scan.textChar, Scan.normalChar, hm, this]

/-- Once outside, the scan takes the closing quote for an opening one. -/
theorem scanLoop_outside : ∀ (q : List Qcontent) {sc : Scan} (_ : sc.mode = .n) (i : Nat),
    (scanLoop i (q.flatMap Qcontent.text ++ [ch '"']) sc).mode = .q
  | [], sc, hm, i => by
    simp only [List.flatMap_nil, List.nil_append, scanLoop, sc.char_quote hm]
  | x :: q, sc, hm, i => by
    rw [List.flatMap_cons, List.append_assoc, scanLoop_append]
    exact scanLoop_outside q (Scan.mode_item i hm x) _

/-- The mode in front of an item. -/
def quotedMode (b : Bool) : Mode := if b then .s else .q

/-- **The scan of a quoted string's text and closing quote**: it ends in normal mode with nothing
recorded, or takes the closing quote for an opening one. -/
theorem scanLoop_quoted : ∀ (q : List Qcontent) (b : Bool) (sc : Scan)
    (_ : sc.mode = quotedMode b) (i : Nat),
    if closes b q then
      scanLoop i (q.flatMap Qcontent.text ++ [ch '"']) sc = { sc with mode := .n }
    else (scanLoop i (q.flatMap Qcontent.text ++ [ch '"']) sc).mode = .q
  | [], b, sc, hm, i => by
    have : ch '"' ≠ ch '\\' := by decide
    simp only [closes, if_true, List.flatMap_nil, List.nil_append, scanLoop]
    cases b <;> rw [Scan.char_of_ne (by simp [hm, quotedMode])] <;>
      simp [Scan.textChar, hm, quotedMode, this]
  | .qtext c h :: q, false, sc, hm, i => by
    have ih := scanLoop_quoted q false sc hm (i + 1)
    simp only [List.flatMap_cons, Qcontent.text, List.cons_append, List.nil_append, scanLoop,
      Scan.char_q i h hm, closes]
    exact ih
  | .quotedPair c h :: q, false, sc, hm, i => by
    have ih := scanLoop_quoted q (c == ch '\\')
      { sc with mode := if c = ch '\\' then .s else .q } (by simp [quotedMode]) (i + 1 + 1)
    simp only [List.flatMap_cons, Qcontent.text, List.cons_append, List.nil_append, scanLoop,
      Scan.pair_q i hm, closes]
    exact ih
  | .qtext c h :: q, true, sc, hm, i => by
    simp only [isQtext, Bool.and_eq_true, bne_iff_ne] at h
    have : sc.char i c = { sc with mode := .n } := by
      rw [Scan.char_of_ne (by simp [hm, quotedMode])]
      simp [Scan.textChar, hm, quotedMode, h.2]
    simp only [List.flatMap_cons, Qcontent.text, List.cons_append, List.nil_append, scanLoop, this,
      closes, Bool.false_eq_true, if_false]
    exact scanLoop_outside q rfl _
  | .quotedPair c h :: q, true, sc, hm, i => by
    simp only [List.flatMap_cons, Qcontent.text, List.cons_append, List.nil_append, scanLoop,
      Scan.pair_s i hm, closes]
    by_cases hb : c = ch '\\'
    · have ih := scanLoop_quoted q true { sc with mode := .s } rfl (i + 1 + 1)
      simpa only [Scan.textChar, hb, if_true] using ih
    by_cases hq : c = ch '"'
    · have ih := scanLoop_quoted q false { sc with mode := .q } rfl (i + 1 + 1)
      have hne : ch '"' ≠ ch '\\' := by decide
      simpa only [Scan.textChar, Scan.normalChar, hq, hne, if_true, if_false] using ih
    · simp only [Scan.textChar, hb, hq, if_false, Bool.false_eq_true]
      exact scanLoop_outside q (Scan.mode_normalChar _ rfl hq) _

/-! ## A mailbox in angle brackets -/

theorem isPlain_of_isDotText : ∀ c, isDotText c = true → isPlain c = true :=
  forall_byte (by decide +kernel)

theorem isPlain_of_isDomainText : ∀ c, isDomainText c = true → isPlain c = true :=
  forall_byte (by decide +kernel)

theorem isQtext_of_isDomainText : ∀ c, isDomainText c = true → isQtext c = true :=
  forall_byte (by decide +kernel)

theorem not_isspace_of_isDotText : ∀ c, isDotText c = true → isspace c = false :=
  forall_byte (by decide +kernel)

theorem not_isspace_of_isDomainText : ∀ c, isDomainText c = true → isspace c = false :=
  forall_byte (by decide +kernel)

theorem scanLoop_q : ∀ {s : Str} (_ : ∀ c ∈ s, isQtext c = true) {sc : Scan} (_ : sc.mode = .q)
    (i : Nat), scanLoop i s sc = sc
  | [], _, _, _, _ => rfl
  | c :: s, h, sc, hm, i => by
    rw [scanLoop, Scan.char_q i (h c List.mem_cons_self) hm,
      scanLoop_q (fun d hd => h d (List.mem_cons_of_mem _ hd)) hm]

/-- The scan behind the opening bracket. -/
def bracketScan : Scan := ⟨.n, some 0, none, none, none, some 0⟩

theorem LocalPart.scan (l : LocalPart) :
    if l.closes then scanLoop 1 l.text bracketScan = bracketScan
    else (scanLoop 1 l.text bracketScan).mode = .q := by
  cases l with
  | dotString s hne h =>
    exact scanLoop_plain (fun c hc => isPlain_of_isDotText c (h c hc)) rfl 1
  | quotedString q =>
    have := scanLoop_quoted q false { bracketScan with mode := .q } rfl 2
    simp only [LocalPart.closes, LocalPart.text, scanLoop, bracketScan.char_quote rfl]
    exact this

/-- The first character of a mailbox is no blank. -/
theorem Mailbox.text_head (m : Mailbox) : ∃ c t, m.text = c :: t ∧ isspace c = false := by
  obtain ⟨l, d, hd⟩ := m
  cases l with
  | dotString s hne h =>
    obtain ⟨c, t, rfl⟩ := List.exists_cons_of_ne_nil hne
    exact ⟨c, _, rfl, not_isspace_of_isDotText c (h c List.mem_cons_self)⟩
  | quotedString q => exact ⟨_, _, rfl, by decide⟩

/-- The last character of a mailbox is no blank. -/
theorem Mailbox.text_last (m : Mailbox) : ∃ t c, m.text = t ++ [c] ∧ isspace c = false := by
  obtain ⟨l, d, hd⟩ := m
  rcases List.eq_nil_or_concat' d with rfl | ⟨d, c, rfl⟩
  · exact ⟨l.text, ch '@', rfl, by decide⟩
  · exact ⟨l.text ++ ch '@' :: d, c, by simp [Mailbox.text],
      not_isspace_of_isDomainText c (hd c (by simp))⟩

/-- **The scan of `<mailbox>`.** -/
theorem Mailbox.scan (m : Mailbox) :
    if m.localPart.closes then
      scanLoop 0 (bracket m.text) .init =
        { bracketScan with aend := some (m.text.length + 1) }
    else (scanLoop 0 (bracket m.text) .init).mode = .q := by
  obtain ⟨l, d, hd⟩ := m
  have hsplit : scanLoop 0 (bracket (Mailbox.text ⟨l, d, hd⟩)) .init =
      scanLoop (1 + l.text.length) (ch '@' :: d ++ [ch '>']) (scanLoop 1 l.text bracketScan) := by
    have h0 : Scan.init.char 0 (ch '<') = bracketScan := by decide
    rw [bracket, scanLoop, h0, Mailbox.text, List.append_assoc, scanLoop_append]
  have hl := l.scan
  rw [hsplit]
  by_cases hc : l.closes = true
  · rw [if_pos hc] at hl ⊢
    have hplain : ∀ c ∈ ch '@' :: d, isPlain c = true := fun c hm => by
      rcases List.mem_cons.1 hm with rfl | hm
      · decide
      · exact isPlain_of_isDomainText c (hd c hm)
    have hlen : 1 + l.text.length + (ch '@' :: d).length =
        (Mailbox.text ⟨l, d, hd⟩).length + 1 := by
      simp [Mailbox.text]; omega
    rw [hl, scanLoop_append, scanLoop_plain hplain rfl, hlen]
    rfl
  · rw [if_neg hc] at hl ⊢
    have hq : ∀ c ∈ ch '@' :: d ++ [ch '>'], isQtext c = true := fun c hm => by
      rcases List.mem_append.1 hm with hm | hm
      · rcases List.mem_cons.1 hm with rfl | hm
        · decide
        · exact isQtext_of_isDomainText c (hd c hm)
      · rw [List.mem_singleton.1 hm]; decide
    rw [scanLoop_q hq hl]
    exact hl

theorem Scan.bstart_textChar (sc : Scan) (i : Nat) (c : Byte) :
    (sc.textChar i c).bstart = sc.bstart := by
  unfold Scan.textChar Scan.normalChar
  repeat' split
  all_goals rfl

/-- Once the scan has found the first character it keeps its position. -/
theorem scanLoop_bstart : ∀ (s : Str) {sc : Scan} (_ : sc.bstart ≠ none) (i : Nat),
    sc.mode ≠ .zero → (scanLoop i s sc).bstart = sc.bstart
  | [], _, _, _, _ => rfl
  | c :: s, sc, hb, i, hm => by
    have hstep := sc.bstart_textChar i c
    have hmode : (sc.textChar i c).mode ≠ .zero := by
      unfold Scan.textChar Scan.normalChar
      repeat' split
      all_goals first
        | exact hm
        | simp
    rw [scanLoop, Scan.char_of_ne hm, scanLoop_bstart s (by rw [hstep]; exact hb) _ hmode, hstep]

theorem skipBlanks_of_text {str : Str} {i : Nat} (h : isspace (str.getD i 0) = false) (k : Nat) :
    skipBlanks str k i = i := by
  cases k <;> simp only [skipBlanks, h, Bool.false_eq_true, if_false]

theorem dropBlanks_of_text {str : Str} {i : Nat} (h : isspace (str.getD i 0) = false) (k : Nat) :
    dropBlanks str k i = i := by
  cases k <;> simp only [dropBlanks, h, Bool.false_eq_true, if_false]

/-- **What `get_addrpart` makes of `<mailbox>`**: the lower-cased mailbox when the scan finds the
end of its local part, else the argument with its brackets. -/
theorem getAddrpart_bracket (m : Mailbox) :
    getAddrpart (bracket m.text) =
      if m.localPart.closes then lower m.text else lower (bracket m.text) := by
  have hscan := m.scan
  obtain ⟨t, c, ht, hcs⟩ := m.text_last
  have hlen : (bracket m.text).length = m.text.length + 2 := by simp [bracket]
  by_cases hc : m.localPart.closes = true
  · rw [if_pos hc] at hscan ⊢
    obtain ⟨a, u, hu, has⟩ := m.text_head
    have hfirst : isspace ((bracket m.text).getD 1 0) = false := by
      rw [hu]; exact has
    have hlast : isspace ((bracket m.text).getD m.text.length 0) = false := by
      have hget : (bracket m.text).getD m.text.length 0 = c := by
        rw [ht]; simp [bracket]
      rw [hget]; exact hcs
    have hpos : 0 < m.text.length := by rw [hu]; simp
    have hamode : (Scan.mk .n (some 0) (some (m.text.length + 1)) none none (some 0)).amode
        (bracket m.text) 0 = some .bra := by
      have h1 : ¬ 0 + 1 = m.text.length + 1 := by omega
      simp only [Scan.amode, hlen, ne_eq, not_true, if_false, h1,
        show m.text.length + 2 - (m.text.length + 1 + 1) = 0 by omega, skipBlanks]
    simp only [getAddrpart, hscan, bracketScan, hamode, Option.getD_some]
    rw [skipBlanks_of_text hfirst, if_neg (by omega), Nat.add_sub_cancel,
      dropBlanks_of_text hlast, copyLower, Nat.add_sub_cancel]
    simp [bracket]
  · rw [if_neg hc] at hscan ⊢
    have hb : (scanLoop 0 (bracket m.text) .init).bstart = some 0 := by
      have h0 : Scan.init.char 0 (ch '<') = bracketScan := by decide
      rw [bracket, scanLoop, h0]
      exact scanLoop_bstart _ (by simp [bracketScan]) _ (by simp [bracketScan])
    have hlast : isspace ((bracket m.text).getD (m.text.length + 1) 0) = false := by
      have hget : (bracket m.text).getD (m.text.length + 1) 0 = ch '>' := by simp [bracket]
      rw [hget]; decide
    have hamode : (scanLoop 0 (bracket m.text) .init).amode (bracket m.text) 0 = some .asis := by
      simp only [Scan.amode, hscan, ne_eq, reduceCtorEq, not_false_eq_true, if_true]
    simp only [getAddrpart, hb, hamode]
    rw [hlen, show m.text.length + 2 - 1 = m.text.length + 1 by omega,
      dropBlanks_of_text hlast, copyLower, List.drop_zero, Nat.sub_zero,
      List.take_of_length_le (by omega)]

end Messasy
