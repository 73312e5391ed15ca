import Messasy.Lib.CString
import Messasy.Mail.Addrpart

/-!
# The indices of `get_addrpart` (`libdgmail.c`)

`get_addrpart` on the blocks of memory it works on, every index checked: the reads of the argument
and the stores into the copy. The scan leaves its markers in the text in a fixed order
(`Scan.Inside`), so that no index leaves a block (`getAddrpartBuf_eq`), and what is copied is a
slice of the argument without blanks at its ends (`getAddrpartBuf_slice`). `malloc` succeeds.
-/

namespace Messasy

open Lib

/-- A read at an `int` index. -/
def loadAt (m : Mem) (i : Int) : Option Byte := if 0 ≤ i then m.load i.toNat else none

/-- The scan loop from `i` on, for `k` more characters. -/
def scanBuf (str : Mem) : Nat → Nat → Scan → Option Scan
  | 0, _, sc => some sc
  | k + 1, i, sc => (str.load i).bind fun c => scanBuf str k (i + 1) (sc.char i c)

/-- `for (; i < bound; i ++)` over blanks: `k` is `bound - i`. -/
def skipBlanksBuf (str : Mem) : Nat → Nat → Option Nat
  | 0, i => some i
  | k + 1, i => (str.load i).bind fun c => if isspace c then skipBlanksBuf str k (i + 1) else some i

/-- `for (; i > bound; i --)` over blanks: `k` is `i - bound`. -/
def dropBlanksBuf (str : Mem) : Nat → Int → Option Int
  | 0, i => some i
  | k + 1, i => (loadAt str i).bind fun c => if isspace c then dropBlanksBuf str k (i - 1) else some i

/-- What to copy, with the reads behind the last marker; see `Scan.amode`. -/
def Scan.amodeBuf (sc : Scan) (str : Mem) (len bstart : Nat) : Option (Option Amode) :=
  if sc.mode ≠ .n then some (some .asis)
  else
    match sc.astart, sc.aend, sc.nstart, sc.nend with
    | some _, _, some _, _ => some (some .asis)
    | some astart, some aend, _, _ =>
      (skipBlanksBuf str (len - (aend + 1)) (aend + 1)).map fun i =>
        if i ≠ len then some .asis
        else if astart + 1 = aend then none
        else some .bra
    | _, _, some nstart, some nend =>
      if nstart = bstart then some (some .asis)
      else
        (skipBlanksBuf str (len - (nend + 1)) (nend + 1)).map fun i =>
          if i ≠ len then some .asis else some .name
    | _, _, _, _ => some (some .asis)

/-- The copy loop from `i` on, for `k` more characters, and the NUL. -/
def copyLoop (str : Mem) (start : Nat) : Nat → Nat → Mem → Option Mem
  | 0, i, addr => addr.store i 0
  | k + 1, i, addr =>
    (str.load (start + i)).bind fun c =>
    (addr.store i (tolower c)).bind fun addr => copyLoop str start k (i + 1) addr

/-- The copy of the text from `start` to `end`: `nlen` is `end - start + 1`. -/
def copyBuf (str : Mem) (addr : Mem) (start : Nat) (last : Int) : Option Mem :=
  copyLoop str start (last - start + 1).toNat 0 addr

/-- `get_addrpart`: the copy it returns; `junk` stands for what is in it before. -/
def getAddrpartBuf (junk : Byte) (str : Mem) : Option Mem :=
  (str.find (· == 0) 0).bind fun len =>
  let addr := Mem.realloc [] junk (len + 1)
  (scanBuf str len 0 .init).bind fun sc =>
  match sc.bstart with
  | none => addr.store 0 0
  | some bstart =>
    (sc.amodeBuf str len bstart).bind fun
    | none => addr.store 0 0
    | some .asis =>
      (dropBlanksBuf str (len - 1 - bstart : Int).toNat (len - 1)).bind fun last =>
      copyBuf str addr bstart last
    | some .bra =>
      let astart := sc.astart.getD 0
      let aend := sc.aend.getD 0
      (skipBlanksBuf str (aend - (astart + 1)) (astart + 1)).bind fun start =>
      if start = aend then addr.store 0 0
      else
        (dropBlanksBuf str (aend - 1 - start : Int).toNat (aend - 1)).bind fun last =>
        copyBuf str addr start last
    | some .name =>
      (dropBlanksBuf str (sc.nstart.getD 0 - 1 - bstart : Int).toNat (sc.nstart.getD 0 - 1)).bind
        fun last => copyBuf str addr bstart last

example : getAddrpartBuf 7 (bytes " Taro < Ta@B > " ++ [0]) =
    some (bytes "ta@b" ++ 0 :: List.replicate 11 7) := by decide +kernel

/-! ## The markers -/

/-- A byte of the text that is not white space. -/
def Solid (str : Str) (i : Nat) : Prop := ∃ c, str[i]? = some c ∧ isspace c = false

/-- Where the markers stand after `i` characters. -/
structure Scan.Inside (sc : Scan) (str : Str) (i : Nat) : Prop where
  begun : sc = .init ∨ sc.mode ≠ .zero ∧ sc.bstart ≠ none
  bstart : ∀ b, sc.bstart = some b → b ≤ i ∧ Solid str b
  astart : ∀ a, sc.astart = some a → a < i
  aend : ∀ e, sc.aend = some e → e < i ∧ ∃ a, sc.astart = some a ∧ a < e
  nstart : ∀ n, sc.nstart = some n → n < i ∧ ∃ b, sc.bstart = some b ∧ b ≤ n
  nend : ∀ e, sc.nend = some e → e < i

section
variable {sc : Scan} {str : Str} {i : Nat} {c : Byte}

theorem Scan.init_inside (str : Str) : Scan.init.Inside str 0 :=
  ⟨.inl rfl, nofun, nofun, nofun, nofun, nofun⟩

theorem Scan.Inside.succ (h : sc.Inside str i) : sc.Inside str (i + 1) where
  begun := h.begun
  bstart b hb := (h.bstart b hb).imp_left Nat.le_succ_of_le
  astart a ha := Nat.lt_succ_of_lt (h.astart a ha)
  aend e he := (h.aend e he).imp_left Nat.lt_succ_of_lt
  nstart n hn := (h.nstart n hn).imp_left Nat.lt_succ_of_lt
  nend e he := Nat.lt_succ_of_lt (h.nend e he)

/-- A character that moves no marker. -/
theorem Scan.Inside.setMode (h : sc.Inside str i) (hb : sc.bstart ≠ none) {m : Mode}
    (hm : m ≠ .zero) : { sc with mode := m }.Inside str (i + 1) :=
  { h.succ with begun := .inr ⟨hm, hb⟩ }

theorem Scan.Inside.normalChar (h : sc.Inside str i) (hm : sc.mode ≠ .zero)
    (hb : sc.bstart ≠ none) (c : Byte) :
    (sc.normalChar i c).Inside str (i + 1) := by
  have hsame := h.succ
  obtain ⟨b, hsome⟩ := Option.ne_none_iff_exists'.1 hb
  unfold Scan.normalChar
  split
  · exact h.setMode hb nofun
  split
  · split
    · exact hsame
    · rename_i hnone
      have hnone : sc.astart = none := not_not.1 hnone
      refine { hsame with begun := .inr ⟨hm, hb⟩, astart := ?_, aend := fun e he => ?_ }
      · rintro a ⟨⟩
        exact Nat.lt_succ_self i
      · obtain ⟨-, a, ha, -⟩ := h.aend e he
        rw [hnone] at ha
        cases ha
  split
  · split
    · exact hsame
    · rename_i hstart
      obtain ⟨a, ha⟩ := Option.ne_none_iff_exists'.1 hstart
      refine { hsame with begun := .inr ⟨hm, hb⟩, aend := ?_ }
      rintro e ⟨⟩
      exact ⟨Nat.lt_succ_self i, a, ha, h.astart a ha⟩
  split
  · split
    · exact hsame
    · refine { hsame with begun := .inr ⟨hm, hb⟩, nstart := ?_ }
      rintro n ⟨⟩
      exact ⟨Nat.lt_succ_self i, b, hsome, (h.bstart b hsome).1⟩
  split
  · split
    · exact hsame
    · refine { hsame with begun := .inr ⟨hm, hb⟩, nend := ?_ }
      rintro e ⟨⟩
      exact Nat.lt_succ_self i
  · exact hsame

theorem Scan.Inside.textChar (h : sc.Inside str i) (hm : sc.mode ≠ .zero)
    (hb : sc.bstart ≠ none) (c : Byte) :
    (sc.textChar i c).Inside str (i + 1) := by
  unfold Scan.textChar
  split
  · split <;> exact h.setMode hb nofun
  · split
    · exact h.setMode hb nofun
    · exact h.setMode hb nofun
    · split
      · exact h.setMode hb nofun
      · exact h.succ
    · exact h.normalChar hm hb c

/-- The scan at the first byte that is not blank. -/
theorem Scan.start_inside (hs : Solid str i) :
    Scan.Inside ⟨.n, none, none, none, none, some i⟩ str i := by
  refine ⟨.inr ⟨nofun, nofun⟩, ?_, nofun, nofun, nofun, nofun⟩
  rintro b ⟨⟩
  exact ⟨Nat.le_refl i, hs⟩

/-- One round of the scan keeps the markers in order. -/
theorem Scan.Inside.char (h : sc.Inside str i) (hc : str[i]? = some c) :
    (sc.char i c).Inside str (i + 1) := by
  unfold Scan.char
  rcases h.begun with rfl | ⟨hmode, hb⟩
  · rw [if_pos (show Scan.init.mode = .zero from rfl)]
    split
    · exact h.succ
    · rename_i hspace
      exact (start_inside ⟨c, hc, Bool.eq_false_iff.2 hspace⟩).textChar nofun nofun c
  · rw [if_neg hmode]
    exact h.textChar hmode hb c

/-- The scan reads the text only, and leaves the markers in it. -/
theorem scanBuf_eq (str tail : Str) : ∀ (k i : Nat) (sc : Scan), i + k = str.length →
    sc.Inside str i → scanBuf (str ++ tail) k i sc = some (scanLoop i (str.drop i) sc) ∧
      (scanLoop i (str.drop i) sc).Inside str str.length
  | 0, i, sc, hk, h => by
    obtain rfl : i = str.length := hk
    rw [List.drop_length]
    exact ⟨rfl, h⟩
  | k + 1, i, sc, hk, h => by
    have hi : i < str.length := by omega
    have hread : Mem.load (str ++ tail) i = some str[i] := by
      rw [Mem.load, List.getElem?_append_left hi, List.getElem?_eq_getElem hi]
    rw [scanBuf, hread, Option.bind_some, List.drop_eq_getElem_cons hi, scanLoop]
    exact scanBuf_eq str tail k (i + 1) _ (by omega) (h.char (List.getElem?_eq_getElem hi))

end

/-! ## The loops over blanks -/

section
variable {str tail : Str}

theorem getElem?_text {i : Nat} (hi : i < str.length) : str[i]? = some (str.getD i 0) := by
  rw [List.getD_eq_getElem?_getD, List.getElem?_eq_getElem hi, Option.getD_some]

theorem load_text {i : Nat} (hi : i < str.length) :
    Mem.load (str ++ tail) i = some (str.getD i 0) := by
  rw [Mem.load, List.getElem?_append_left hi, getElem?_text hi]

/-- Forwards to a byte that is not blank, or to the end. -/
theorem skipBlanksBuf_eq (tail : Str) : ∀ k i : Nat, i + k ≤ str.length →
    skipBlanksBuf (str ++ tail) k i = some (skipBlanks str k i) ∧ i ≤ skipBlanks str k i ∧
      (skipBlanks str k i = i + k ∨ skipBlanks str k i < i + k ∧ Solid str (skipBlanks str k i))
  | 0, i, _ => ⟨rfl, Nat.le_refl i, .inl rfl⟩
  | k + 1, i, hk => by
    have hi : i < str.length := by omega
    rw [skipBlanksBuf, skipBlanks, load_text hi, Option.bind_some]
    cases hs : isspace (str.getD i 0) with
    | true =>
      obtain ⟨heq, hle, hend⟩ := skipBlanksBuf_eq tail k (i + 1) (by omega)
      rw [Nat.add_right_comm, Nat.add_assoc] at hend
      exact ⟨heq, by simp only [if_true]; omega, hend⟩
    | false =>
      refine ⟨rfl, Nat.le_refl i, .inr ⟨by simp, str.getD i 0, ?_, hs⟩⟩
      rw [if_neg Bool.false_ne_true, getElem?_text hi]

/-- Backwards to a byte that is not blank; the one at the bound is not. -/
theorem dropBlanksBuf_eq (tail : Str) {first : Nat} (hfirst : Solid str first) :
    ∀ k i : Nat, first + k = i → i < str.length →
      dropBlanksBuf (str ++ tail) k i = some (dropBlanks str k i : Int) ∧
        first ≤ dropBlanks str k i ∧ dropBlanks str k i ≤ i ∧ Solid str (dropBlanks str k i)
  | 0, i, hk, _ => by
    obtain rfl : first = i := hk
    exact ⟨rfl, Nat.le_refl _, Nat.le_refl _, hfirst⟩
  | k + 1, i, hk, hi => by
    have hread : loadAt (str ++ tail) i = some (str.getD i 0) := by
      rw [loadAt, if_pos (Int.natCast_nonneg i), Int.toNat_natCast, load_text hi]
    rw [dropBlanksBuf, dropBlanks, hread, Option.bind_some]
    cases hs : isspace (str.getD i 0) with
    | true =>
      have hpred : (i : Int) - 1 = (i - 1 : Nat) := by omega
      obtain ⟨heq, hle, hlast, hsolid⟩ :=
        dropBlanksBuf_eq tail hfirst k (i - 1) (by omega) (by omega)
      rw [if_pos rfl, if_pos rfl, hpred]
      exact ⟨heq, hle, by omega, hsolid⟩
    | false =>
      rw [if_neg Bool.false_ne_true, if_neg Bool.false_ne_true]
      exact ⟨rfl, by omega, Nat.le_refl i, str.getD i 0, getElem?_text hi, hs⟩

theorem Solid.lt {i : Nat} (h : Solid str i) : i < str.length := by
  obtain ⟨c, hc, -⟩ := h
  exact (List.getElem?_eq_some_iff.1 hc).1

/-! ## The copy -/

/-- The copy behind what was copied before; there is room for the NUL. -/
theorem copyLoop_eq (tail : Str) (start : Nat) : ∀ (k : Nat) (done t : Str),
    start + done.length + k ≤ str.length → k < t.length →
    copyLoop (str ++ tail) start k done.length (done ++ t) =
      some (done ++ lower ((str.drop (start + done.length)).take k) ++ 0 :: t.drop (k + 1))
  | _, _, [], _, hk => absurd hk (Nat.not_lt_zero _)
  | 0, done, c :: t, _, _ => by
    rw [copyLoop, Mem.store_append, List.take_zero, lower_nil, List.append_nil]
    rfl
  | k + 1, done, c :: t, hlen, hk => by
    have hi : start + done.length < str.length := by omega
    have hread : Mem.load (str ++ tail) (start + done.length) = some str[start + done.length] := by
      rw [Mem.load, List.getElem?_append_left hi, List.getElem?_eq_getElem hi]
    have hput : done ++ tolower str[start + done.length] :: t =
        (done ++ [tolower str[start + done.length]]) ++ t := by simp
    have hnext : done.length + 1 = (done ++ [tolower str[start + done.length]]).length := by simp
    rw [copyLoop, hread, Option.bind_some, Mem.store_append, Option.bind_some, hput, hnext,
      copyLoop_eq tail start k _ t (by rw [← hnext]; omega) (by simpa using hk), ← hnext,
      List.drop_eq_getElem_cons hi, List.take_succ_cons, lower_cons]
    simp [Nat.add_assoc]

/-- The copy is a block that holds `r`, and `r` is empty or a slice without blanks at its ends. -/
structure Copied (junk : Byte) (str : Str) (addr : Option Mem) (r : Str) : Prop where
  block : addr = some (r ++ 0 :: List.replicate (str.length - r.length) junk)
  slice : r = [] ∨ ∃ first last, first ≤ last ∧ Solid str first ∧ Solid str last ∧
    r = copyLower str first last

theorem copied_nil (junk : Byte) (str : Str) :
    Copied junk str (Mem.store (Mem.realloc [] junk (str.length + 1)) 0 0) [] := by
  refine ⟨?_, .inl rfl⟩
  simp [Mem.realloc, Mem.store, List.replicate_succ]

theorem copied_slice (junk : Byte) (tail : Str) {first last : Nat} (hle : first ≤ last)
    (hfirst : Solid str first) (hlast : Solid str last) :
    Copied junk str
      (copyBuf (str ++ tail) (Mem.realloc [] junk (str.length + 1)) first (last : Int))
      (copyLower str first last) := by
  have hlt := hlast.lt
  refine ⟨?_, .inr ⟨first, last, hle, hfirst, hlast, rfl⟩⟩
  have hnlen : ((last : Int) - first + 1).toNat = last + 1 - first := by omega
  have hcopy := copyLoop_eq tail first (last + 1 - first) []
    (List.replicate (str.length + 1) junk)
    (show first + 0 + (last + 1 - first) ≤ str.length by omega)
    (by rw [List.length_replicate]; omega)
  have haddr : Mem.realloc [] junk (str.length + 1) = List.replicate (str.length + 1) junk := by
    simp [Mem.realloc]
  have hlen : (copyLower str first last).length = last + 1 - first := by
    rw [copyLower, length_lower, List.length_take, List.length_drop]
    omega
  rw [copyBuf, hnlen, haddr, hlen]
  rw [List.length_nil, List.nil_append, List.nil_append, Nat.add_zero, List.drop_replicate,
    Nat.add_sub_add_right] at hcopy
  exact hcopy

/-- The copy from `first` on, without the blanks in front of `stop`. -/
theorem copied_trimmed (junk : Byte) (tail : Str) {first stop : Nat} (hfirst : Solid str first)
    (hlt : first < stop) (hstop : stop ≤ str.length) :
    Copied junk str
      ((dropBlanksBuf (str ++ tail) ((stop : Int) - 1 - first).toNat ((stop : Int) - 1)).bind
        fun last => copyBuf (str ++ tail) (Mem.realloc [] junk (str.length + 1)) first last)
      (copyLower str first (dropBlanks str (stop - 1 - first) (stop - 1))) := by
  obtain ⟨hback, hle, -, hlast⟩ := dropBlanksBuf_eq tail hfirst (stop - 1 - first) (stop - 1)
    (by omega) (by omega)
  have hpred : (stop : Int) - 1 = (stop - 1 : Nat) := by omega
  have hk : (((stop - 1 : Nat) : Int) - first).toNat = stop - 1 - first := by omega
  rw [hpred, hk, hback, Option.bind_some]
  exact copied_slice junk tail hle hfirst hlast

end

/-! ## What is copied -/

section
variable {sc : Scan} {str : Str} {b : Nat}

theorem Scan.Inside.amodeBuf_eq (h : sc.Inside str str.length) (tail : Str) (b : Nat) :
    sc.amodeBuf (str ++ tail) str.length b = some (sc.amode str b) := by
  have hskip : ∀ i, i < str.length →
      skipBlanksBuf (str ++ tail) (str.length - (i + 1)) (i + 1) =
        some (skipBlanks str (str.length - (i + 1)) (i + 1)) := fun i hi =>
    (skipBlanksBuf_eq tail _ _ (by omega)).1
  unfold Scan.amodeBuf Scan.amode
  by_cases hmode : sc.mode = .n
  · rw [if_neg (not_not.2 hmode), if_neg (not_not.2 hmode)]
    cases ha : sc.astart with
    | some a =>
      cases hn : sc.nstart with
      | some n => rfl
      | none =>
        cases he : sc.aend with
        | none => rfl
        | some e =>
          simp only [hskip e (h.aend e he).1, Option.map_some]
    | none =>
      cases hn : sc.nstart with
      | none => rfl
      | some n =>
        cases he : sc.nend with
        | none => rfl
        | some e =>
          simp only [hskip e (h.nend e he), Option.map_some]
          split <;> rfl
  · rw [if_pos hmode, if_pos hmode]

/-- An address in brackets is not empty. -/
theorem Scan.amode_bra (h : sc.amode str b = some .bra) :
    ∃ a e, sc.astart = some a ∧ sc.aend = some e ∧ a + 1 ≠ e := by
  unfold Scan.amode at h
  split at h
  · cases h
  · split at h
    · cases h
    · rename_i a e ha he _
      split at h
      · cases h
      · split at h
        · cases h
        · rename_i hne
          exact ⟨a, e, ha, he, hne⟩
    · split at h
      · cases h
      · split at h <;> cases h
    · cases h

/-- A comment does not start at the first byte. -/
theorem Scan.amode_name (h : sc.amode str b = some .name) : ∃ n, sc.nstart = some n ∧ n ≠ b := by
  unfold Scan.amode at h
  split at h
  · cases h
  · split at h
    · cases h
    · split at h
      · cases h
      · split at h <;> cases h
    · rename_i hn _ _
      split at h
      · cases h
      · rename_i hne
        exact ⟨_, hn, hne⟩
    · cases h

end

/-- `get_addrpart` reads and stores inside its blocks, and copies what the string model says. -/
theorem getAddrpartBuf_copied (junk : Byte) {str : Str} (h0 : 0 ∉ str) :
    Copied junk str (getAddrpartBuf junk (str ++ [0])) (getAddrpart str) := by
  have hlen : Mem.find (str ++ [0]) (· == 0) 0 = some str.length := by
    have hzero : ∀ x ∈ str, (x == 0) = false := fun x hx => by
      rw [beq_eq_false_iff_ne]
      rintro rfl
      exact h0 hx
    have hfind := Mem.find_append hzero (beq_self_eq_true 0) [] []
    rwa [List.nil_append, List.length_nil, Nat.zero_add] at hfind
  obtain ⟨hscan, hin⟩ := scanBuf_eq str [0] str.length 0 .init (Nat.zero_add _)
    (Scan.init_inside str)
  rw [List.drop_zero] at hscan hin
  unfold getAddrpartBuf getAddrpart
  simp only [hlen, hscan, Option.bind_some]
  generalize scanLoop 0 str .init = sc at hin
  cases hb : sc.bstart with
  | none => exact copied_nil junk str
  | some b =>
    have hsolid := (hin.bstart b hb).2
    have hblt := hsolid.lt
    simp only [hin.amodeBuf_eq [0] b, Option.bind_some]
    cases hmode : sc.amode str b with
    | none => exact copied_nil junk str
    | some amode =>
      cases amode with
      | asis => exact copied_trimmed junk [0] hsolid hblt (Nat.le_refl _)
      | bra =>
        obtain ⟨a, e, ha, he, hne⟩ := Scan.amode_bra hmode
        obtain ⟨helt, a', ha', hae⟩ := hin.aend e he
        obtain rfl : a = a' := Option.some.inj (ha.symm.trans ha')
        obtain ⟨hskip, -, hend⟩ := skipBlanksBuf_eq [0] (e - (a + 1)) (a + 1)
          (show a + 1 + (e - (a + 1)) ≤ str.length by omega)
        simp only [ha, he, Option.getD_some, hskip, Option.bind_some]
        by_cases hempty : skipBlanks str (e - (a + 1)) (a + 1) = e
        · rw [if_pos hempty, if_pos hempty]
          exact copied_nil junk str
        · rw [if_neg hempty, if_neg hempty]
          obtain ⟨hlt, hstart⟩ := hend.resolve_left (by omega)
          exact copied_trimmed junk [0] hstart (by omega) (Nat.le_of_lt helt)
      | name =>
        obtain ⟨n, hn, hne⟩ := Scan.amode_name hmode
        obtain ⟨hnlt, b', hb', hbn⟩ := hin.nstart n hn
        obtain rfl : b = b' := Option.some.inj (hb.symm.trans hb')
        simp only [hn, Option.getD_some]
        exact copied_trimmed junk [0] hsolid (by omega) (Nat.le_of_lt hnlt)

/-- The slice between two bytes, and what is at its ends. -/
theorem slice_ends {str : Str} {first last : Nat} (hle : first ≤ last) (hlt : last < str.length) :
    ∃ a s b : Str, str = a ++ s ++ b ∧ copyLower str first last = lower s ∧
      s.head? = str[first]? ∧ s.getLast? = str[last]? := by
  refine ⟨str.take first, (str.drop first).take (last + 1 - first),
    (str.drop first).drop (last + 1 - first), ?_, rfl, ?_, ?_⟩
  · rw [List.append_assoc, List.take_append_drop, List.take_append_drop]
  · rw [List.head?_take, if_neg (by omega), List.head?_drop]
  · have hlen : ((str.drop first).take (last + 1 - first)).length = last + 1 - first := by
      rw [List.length_take, List.length_drop]
      omega
    have hlast : first + (last + 1 - first - 1) = last := by omega
    rw [List.getLast?_eq_getElem?, hlen, List.getElem?_take_of_lt (by omega), List.getElem?_drop,
      hlast]

/-- **The address `get_addrpart` returns.** For every argument the copy that is returned has room
for the argument and its NUL, and it holds a string that is empty or the lower-cased slice of the
argument between two bytes that are not white space. -/
theorem getAddrpartBuf_slice (junk : Byte) {str : Str} (h0 : 0 ∉ str) :
    ∃ (addr : Mem) (r : Str), getAddrpartBuf junk (str ++ [0]) = some addr ∧
      addr.length = str.length + 1 ∧ addr.str 0 = some r ∧
      (r = [] ∨ ∃ a s b : Str, str = a ++ s ++ b ∧ r = lower s ∧
        (∃ c, s.head? = some c ∧ isspace c = false) ∧
        ∃ c, s.getLast? = some c ∧ isspace c = false) := by
  obtain ⟨hblock, hslice⟩ := getAddrpartBuf_copied junk h0
  obtain ⟨s, hs, hr⟩ := getAddrpart_infix str
  have hr0 : 0 ∉ getAddrpart str := by
    rw [hr]
    exact fun h => h0 (hs.subset (zero_mem_lower h))
  have hlen : (getAddrpart str).length ≤ str.length := by
    rw [hr, length_lower]
    exact hs.length_le
  refine ⟨_, getAddrpart str, hblock, ?_, Mem.str_append hr0 [] _, hslice.imp_right ?_⟩
  · simp only [List.length_append, List.length_cons, List.length_replicate]
    omega
  · rintro ⟨first, last, hle, ⟨c, hc, hcs⟩, ⟨d, hd, hds⟩, heq⟩
    obtain ⟨a, s, b, hsplit, hcopy, hhead, hlast⟩ := slice_ends hle
      (List.getElem?_eq_some_iff.1 hd).1
    exact ⟨a, s, b, hsplit, heq.trans hcopy, ⟨c, hhead.trans hc, hcs⟩, ⟨d, hlast.trans hd, hds⟩⟩

/-- A quoted bracket, an open comment and blanks at both ends. -/
theorem getAddrpartBuf_slice_open :
    ∃ (addr : Mem) (r : Str), getAddrpartBuf 7 (bytes " \"<\" A (b \\ " ++ [0]) = some addr ∧
      addr.length = (bytes " \"<\" A (b \\ ").length + 1 ∧ addr.str 0 = some r ∧
      (r = [] ∨ ∃ a s b : Str, bytes " \"<\" A (b \\ " = a ++ s ++ b ∧ r = lower s ∧
        (∃ c, s.head? = some c ∧ isspace c = false) ∧
        ∃ c, s.getLast? = some c ∧ isspace c = false) :=
  getAddrpartBuf_slice 7 (by decide +kernel)

end Messasy
