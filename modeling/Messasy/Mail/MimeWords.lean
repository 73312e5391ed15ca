import Messasy.Mail.Mime

/-!
# Written headers

A header is written as plain texts with encoded words between them. `decode_mime` finds these words
and no others, whatever the case of their names, and gives each text its place
(`decodeMime_written`): a plain text is kept, except that nothing is left of one between two words
that consists of blanks. The translations at the end may leave their arrays, as for every text.
-/

namespace Messasy

open Lib

/-- A word, with its name as it is spelled. -/
structure EncodedWord where
  mime : MimeName
  name : Str
  text : Str

def EncodedWord.bytes (word : EncodedWord) : Str :=
  Lib.bytes "=?" ++ (word.name ++ (word.text ++ Lib.bytes "?="))

/-- The word has a known name, no `?` in its text, and a value whose translation has room for its
NUL. -/
structure EncodedWord.Fine (iconv : Iconv) (junk : Byte) (word : EncodedWord) (value : Str) :
    Prop where
  known : word.mime ∈ mimeNames
  name : lower word.name = lower word.mime.str
  text : ch '?' ∉ word.text
  value : ∃ decbuf, decodeBq word.mime.bqflag word.text = some decbuf ∧
    toJis iconv junk word.mime.codeflag decbuf = some (some value)

/-- A text without the beginning of a word, and the word behind it. -/
structure MimePiece where
  plain : Str
  word : EncodedWord
  value : Str

/-- The text of a header. -/
def writeMime : List MimePiece → Str → Str
  | [], tail => tail
  | p :: ps, tail => p.plain ++ (p.word.bytes ++ writeMime ps tail)

/-- What the header says. -/
def mimeText : Bool → List MimePiece → Str → Str
  | _, [], tail => tail
  | behind, p :: ps, tail =>
    (if behind && p.plain.all isblank then [] else p.plain) ++ (p.value ++ mimeText true ps tail)

/-- Its words and characters. -/
def mimeTokens : List MimePiece → Str → List MimeToken
  | [], tail => tail.map .char
  | p :: ps, tail => p.plain.map .char ++ .word p.value :: mimeTokens ps tail

section
variable {iconv : Iconv} {junk : Byte} {word : EncodedWord} {value rest : Str}
  {tokens : List MimeToken}

/-! ## One word -/

theorem findSome?_unique {α β : Type} {f : α → Option β} {x : α} {b : β} (hf : f x = some b) :
    ∀ {l : List α}, x ∈ l → (∀ y ∈ l, f y ≠ none → y = x) → l.findSome? f = some b
  | y :: l, hx, hother => by
    rw [List.findSome?_cons]
    cases hy : f y with
    | some b' =>
      obtain rfl := hother y List.mem_cons_self (by simp [hy])
      exact hy.symm.trans hf
    | none =>
      apply findSome?_unique hf
      · rcases List.mem_cons.1 hx with rfl | hx
        · cases hy.symm.trans hf
        · exact hx
      · exact fun z hz => hother z (List.mem_cons_of_mem y hz)

/-- No name begins like another one. -/
theorem mimeNames_unique : ∀ x ∈ mimeNames, ∀ y ∈ mimeNames,
    lower x.str <+: lower y.str → x = y := by
  decide

theorem MimeName.prefix_of_find {name : MimeName} {subptr : Str} (h : name.find subptr ≠ none) :
    lower name.str <+: lower subptr := by
  unfold MimeName.find at h
  split at h
  · rename_i hname
    obtain ⟨w, t, rfl, hw⟩ := ncaseEq_iff.1 hname
    rw [lower_append, hw]
    exact List.prefix_append ..
  · exact absurd rfl h

/-- The tests find the word. -/
theorem EncodedWord.Fine.mimePart_eq (h : word.Fine iconv junk value) (rest : Str) :
    mimePart (word.name ++ (word.text ++ (Lib.bytes "?=" ++ rest))) =
      some ⟨word.name.length, word.name.length + word.text.length, word.mime.bqflag,
        word.mime.codeflag⟩ := by
  have hlen : word.mime.str.length = word.name.length := by
    rw [← length_lower, ← h.name, length_lower]
  have hname : ncaseEq word.mime.str (word.name ++ (word.text ++ (Lib.bytes "?=" ++ rest))) = true :=
    ncaseEq_iff.2 ⟨_, _, rfl, h.name⟩
  have hend : strstr (Lib.bytes "?=") (word.text ++ (Lib.bytes "?=" ++ rest)) =
      some word.text.length := strstr_behind h.text rest
  have hfind : word.mime.find (word.name ++ (word.text ++ (Lib.bytes "?=" ++ rest))) =
      some ⟨word.name.length, word.name.length + word.text.length, word.mime.bqflag,
        word.mime.codeflag⟩ := by
    rw [MimeName.find, if_pos hname, hlen, List.drop_left, hend, Option.map_some]
  have hnames : mimeNames.findSome? (fun name => name.find
      (word.name ++ (word.text ++ (Lib.bytes "?=" ++ rest)))) =
        some ⟨word.name.length, word.name.length + word.text.length, word.mime.bqflag,
          word.mime.codeflag⟩ := by
    refine findSome?_unique (f := fun name => MimeName.find name _) hfind h.known fun y hy hne => ?_
    have hprefix := MimeName.prefix_of_find hne
    have hown := MimeName.prefix_of_find fun hnone => by cases hfind.symm.trans hnone
    rcases List.prefix_or_prefix_of_prefix hprefix hown with hxy | hyx
    · exact mimeNames_unique y hy _ h.known hxy
    · exact (mimeNames_unique _ h.known y hy hyx).symm
  rw [mimePart, hnames]
  rfl

/-- The word is decoded, and the scan goes on behind it. -/
theorem EncodedWord.Fine.mimeWord_eq (h : word.Fine iconv junk value) (rest : Str) :
    mimeWord iconv junk (word.name ++ (word.text ++ (Lib.bytes "?=" ++ rest))) =
      some (some (value, rest)) := by
  obtain ⟨decbuf, hdec, htr⟩ := h.value
  have hencoded : ((word.name ++ (word.text ++ (Lib.bytes "?=" ++ rest))).take
      (word.name.length + word.text.length)).drop word.name.length = word.text := by
    rw [List.take_length_add_append, List.drop_left, List.take_left]
  have hbehind : (word.name ++ (word.text ++ (Lib.bytes "?=" ++ rest))).drop
      (word.name.length + word.text.length + 2) = rest := by
    rw [Nat.add_assoc, List.drop_length_add_append, List.drop_length_add_append]
    rfl
  have hdecoded : mimeDecoded (word.name ++ (word.text ++ (Lib.bytes "?=" ++ rest))) =
      some (word.mime.codeflag, decbuf, rest) := by
    rw [mimeDecoded, h.mimePart_eq, Option.bind_some, MimePart.encoded,
      if_pos (Nat.le_add_right _ _), hencoded, hdec, Option.map_some, hbehind]
  rw [mimeWord, hdecoded]
  dsimp only
  rw [htr, Option.map_some, Option.map_some]

/-! ## The header -/

/-- A plain text is no word, if what follows does not complete one. -/
theorem MimeScan.append_plain (hrest : rest.head? ≠ some (ch '?'))
    (h : MimeScan iconv junk rest tokens) :
    ∀ {plain : Str}, ¬ Lib.bytes "=?" <:+: plain →
      MimeScan iconv junk (plain ++ rest) (plain.map .char ++ tokens)
  | [], _ => h
  | c :: plain, hplain => by
    have htail : ¬ Lib.bytes "=?" <:+: plain := fun hin =>
      hplain (hin.trans (List.suffix_cons c plain).isInfix)
    refine .char (fun subptr hsub => ?_) (MimeScan.append_plain hrest h htail)
    have hmark : Lib.bytes "=?" = [ch '=', ch '?'] := rfl
    simp only [hmark, List.cons_append, List.nil_append, List.cons.injEq] at hsub
    obtain ⟨rfl, hsub⟩ := hsub
    exfalso
    cases plain with
    | nil =>
      have hhead : rest = ch '?' :: subptr := hsub
      exact hrest (hhead ▸ rfl)
    | cons d plain =>
      obtain ⟨rfl, -⟩ := List.cons.inj hsub
      apply hplain
      rw [hmark]
      exact (List.prefix_append [ch '=', ch '?'] plain).isInfix

theorem MimeScan.written (iconv : Iconv) (junk : Byte) {tail : Str}
    (htail : ¬ Lib.bytes "=?" <:+: tail) :
    ∀ {ps : List MimePiece}, (∀ p ∈ ps, ¬ Lib.bytes "=?" <:+: p.plain ∧
      p.word.Fine iconv junk p.value) → MimeScan iconv junk (writeMime ps tail) (mimeTokens ps tail)
  | [], _ => by
    have h := MimeScan.append_plain (by simp) (@MimeScan.nil iconv junk) htail
    rwa [List.append_nil, List.append_nil] at h
  | p :: ps, hps => by
    obtain ⟨hplain, hword⟩ := hps p List.mem_cons_self
    have ih := MimeScan.written iconv junk htail fun q hq => hps q (List.mem_cons_of_mem p hq)
    unfold writeMime mimeTokens
    refine MimeScan.append_plain ?_ ?_ hplain
    · rw [EncodedWord.bytes, List.append_assoc]
      exact fun h => absurd (Option.some.inj h) (by decide)
    · have hscan := MimeScan.word (hword.mimeWord_eq (writeMime ps tail)) ih
      unfold EncodedWord.bytes
      simpa only [List.append_assoc] using hscan

theorem nextWord_plain (v : Str) (tokens : List MimeToken) : ∀ plain : Str,
    nextWord (plain.map .char ++ .word v :: tokens) = plain.all isblank
  | [] => rfl
  | c :: plain => by
    rw [List.map_cons, List.cons_append, nextWord, nextWord_plain v tokens plain, List.all_cons]

/-- A plain text in front of a word. -/
theorem unfoldWords_plain (v : Str) (tokens : List MimeToken) : ∀ (plain : Str) (behind : Bool),
    unfoldWords behind (plain.map .char ++ .word v :: tokens) =
      (if behind && plain.all isblank then [] else plain) ++ (v ++ unfoldWords true tokens)
  | [], behind => by simp [unfoldWords]
  | c :: plain, behind => by
    have hnext := nextWord_plain v tokens (c :: plain)
    rw [List.map_cons, List.cons_append] at hnext ⊢
    rw [unfoldWords, hnext]
    split
    · rename_i hdrop
      obtain ⟨-, hall⟩ := Bool.and_eq_true_iff.1 hdrop
      rw [List.all_cons, Bool.and_eq_true] at hall
      rw [unfoldWords_plain v tokens plain true, hall.2]
      rfl
    · rw [unfoldWords_plain v tokens plain false]
      rfl

theorem unfoldWords_chars : ∀ (tail : Str) (behind : Bool),
    unfoldWords behind (tail.map .char) = tail
  | [], _ => rfl
  | c :: tail, behind => by
    have hnext : ∀ s : Str, nextWord (s.map .char) = false := fun s => by
      induction s with
      | nil => rfl
      | cons d s ih => rw [List.map_cons, nextWord, ih, Bool.and_false]
    have hc := hnext (c :: tail)
    rw [List.map_cons] at hc ⊢
    rw [unfoldWords, hc, Bool.and_false, if_neg Bool.false_ne_true, unfoldWords_chars tail false]

theorem unfoldWords_written (tail : Str) : ∀ (ps : List MimePiece) (behind : Bool),
    unfoldWords behind (mimeTokens ps tail) = mimeText behind ps tail
  | [], behind => unfoldWords_chars tail behind
  | p :: ps, behind => by
    rw [mimeTokens, unfoldWords_plain, unfoldWords_written tail ps true, mimeText]

/-- The result for a written header. -/
theorem decodeMime_write {ps : List MimePiece} {tail : Str}
    (hps : ∀ p ∈ ps, ¬ Lib.bytes "=?" <:+: p.plain ∧ p.word.Fine iconv junk p.value)
    (htail : ¬ Lib.bytes "=?" <:+: tail) (h0 : 0 ∉ writeMime ps tail) :
    decodeMime iconv junk (writeMime ps tail) = mimeFinish iconv junk (mimeText false ps tail) := by
  rw [decodeMime_eq h0 (MimeScan.written iconv junk htail hps), unfoldWords_written]

end

/-- **A written header.** `decode_mime` puts the value of every encoded word in its place and keeps
the plain texts, but of those that stand between two words and are blank nothing is left. The text is
translated at the end, and an array is left exactly when this translation leaves its own. -/
theorem decodeMime_written (iconv : Iconv) (junk : Byte) {ps : List MimePiece} {tail : Str}
    (hps : ∀ p ∈ ps, ¬ Lib.bytes "=?" <:+: p.plain ∧ p.word.Fine iconv junk p.value)
    (htail : ¬ Lib.bytes "=?" <:+: tail) (h0 : 0 ∉ writeMime ps tail) :
    decodeMime iconv junk (writeMime ps tail) =
        mimeFinish iconv junk (mimeText false ps tail) ∧
      (decodeMime iconv junk (writeMime ps tail) = none ↔
        FinishOverflow iconv junk (mimeText false ps tail)) := by
  have hresult := decodeMime_write hps htail h0
  refine ⟨hresult, ?_⟩
  rw [hresult, mimeFinish_eq_none_iff]

/-- `Re: `, two words with a blank between them, and a text behind them. -/
theorem decodeMime_written_reply :
    decodeMime japanese 7 (Lib.bytes "Re: =?ISO-2022-JP?B?GyRCJCIbKEI=?= =?euc-jp?q?=A4=A4?= x") =
      some (Lib.bytes "Re: " ++ [0x82, 0xa0, 0x82, 0xa2] ++ Lib.bytes " x") := by
  have hfirst : EncodedWord.Fine japanese 7
      ⟨MIME_JISB_STR, Lib.bytes "ISO-2022-JP?B?", Lib.bytes "GyRCJCIbKEI="⟩
      (toSecond ++ Lib.bytes "$\"" ++ toAscii) :=
    ⟨by decide, by decide, by decide, toSecond ++ Lib.bytes "$\"" ++ toAscii, by decide +kernel,
      by decide +kernel⟩
  have hsecond : EncodedWord.Fine japanese 7
      ⟨MIME_EUCQ_STR, Lib.bytes "euc-jp?q?", Lib.bytes "=A4=A4"⟩
      (toSecond ++ Lib.bytes "$$" ++ toAscii) :=
    ⟨by decide, by decide, by decide, [0xa4, 0xa4], by decide +kernel, by decide +kernel⟩
  obtain ⟨h, -⟩ := @decodeMime_written japanese 7 [⟨Lib.bytes "Re: ", _, _⟩, ⟨Lib.bytes " ", _, _⟩]
    (Lib.bytes " x")
    (List.forall_mem_cons.2 ⟨⟨strstr_eq_none.1 (by decide), hfirst⟩,
      List.forall_mem_singleton.2 ⟨strstr_eq_none.1 (by decide), hsecond⟩⟩)
    (strstr_eq_none.1 (by decide)) (by decide +kernel)
  exact h.trans (by decide +kernel)

end Messasy
