import Messasy.Filter.Spec
import Messasy.Lib.CString
import Messasy.Mail.Addrpart
import Messasy.Module.Folder
import Messasy.Module.Header

/-!
# The address array of `md_makedirlist` (`libmaildrop.c`)

`md_makedirlist` copies an address into `mailaddr[MAX_ADDRESS_LEN + 1]` with `strncpy`, and
`check_7bit`, `replace_delimiter` and the search for the `@` read the array up to its NUL. Here they
work on the array itself, every access checked: they stay inside exactly for the addresses of
`FitsMailaddr` (`mdMailaddr_isSome_iff`).
-/

namespace Messasy

open Lib

/-- `check_7bit` on the array. -/
def check7bitBuf (str : Mem) : Option Bool :=
  (str.find (fun c => c == 0 || decide (128 ≤ c)) 0).bind fun i =>
  (str.load i).map fun c => decide (128 ≤ c)

/-- `replace_delimiter` from `p` on. Every round passes a delimiter, so that the block's length
bounds the rounds. -/
def replaceDelimiterBuf (oldDelim newDelim : Byte) : Nat → Nat → Mem → Option Mem
  | 0, _, _ => none
  | k + 1, p, str =>
    (str.strchr p oldDelim).bind fun
    | none => some str
    | some p => (str.store p newDelim).bind (replaceDelimiterBuf oldDelim newDelim k (p + 1))

/-- What `md_makedirlist` does with the array: the array, and `addr_p` and `domain_p` as places in
it; `none` is `UNKNOWN`. -/
def mailaddrFormat (md : Md) (mailaddr : Mem) : Option (Mem × Option Nat × Option Nat) :=
  (check7bitBuf mailaddr).bind fun ret =>
  if ret then some (mailaddr, none, none)
  else
    (replaceDelimiterBuf DOT md.mdDotdelimiter (mailaddr.length + 1) 0 mailaddr).bind fun mailaddr =>
    (replaceDelimiterBuf SLASH md.mdSlashdelimiter (mailaddr.length + 1) 0 mailaddr).bind
      fun mailaddr =>
    (mailaddr.strchr 0 (ch '@')).map fun
    | none => (mailaddr, some 0, none)
    | some domainP => (mailaddr, some 0, some (domainP + 1))

/-- One address, with what is in the array before. -/
def mdMailaddr (md : Md) (mailaddr address : Mem) : Option (Mem × Option Nat × Option Nat) :=
  (Mem.strncpy address (MAX_ADDRESS_LEN + 1) 0 0 mailaddr).bind (mailaddrFormat md)

/-! ## An array with a NUL -/

section
variable {m : Mem} {j : Nat}

/-- `replace_delimiter` leaves the NUL where it is. -/
theorem replaceDelimiterBuf_inside {oldDelim : Byte} (hold : oldDelim ≠ 0) (newDelim : Byte) :
    ∀ (k p : Nat) (m : Mem), m[j]? = some 0 → p ≤ j → j < p + k →
      ∃ m', replaceDelimiterBuf oldDelim newDelim k p m = some m' ∧ m'[j]? = some 0 ∧
        m'.length = m.length
  | 0, p, m, _, hp, hk => by omega
  | k + 1, p, m, hj, hp, hk => by
    rw [replaceDelimiterBuf]
    rcases Mem.strchr_le hj hp hold with hnone | ⟨i, hfound, hpi, hij, -⟩
    · rw [hnone]
      exact ⟨m, rfl, hj, rfl⟩
    · have hi : i < m.length := by
        have := (List.getElem?_eq_some_iff.1 hj).1
        omega
      have hset : (m.set i newDelim)[j]? = some 0 := by
        rw [List.getElem?_set_ne (by omega), hj]
      obtain ⟨m', hrest, hj', hlen⟩ := replaceDelimiterBuf_inside hold newDelim k (i + 1)
        (m.set i newDelim) hset (by omega) (by omega)
      refine ⟨m', ?_, hj', hlen.trans List.length_set⟩
      rw [hfound, Option.bind_some]
      simp only [Mem.store, if_pos hi, Option.bind_some, hrest]

/-- `check_7bit` stops at the NUL at the latest. -/
theorem check7bitBuf_inside (hj : m[j]? = some 0) : ∃ ret, check7bitBuf m = some ret := by
  obtain ⟨k, c, hfind, -, -, hk, -⟩ :=
    Mem.find_le (p := fun c => c == 0 || decide (128 ≤ c)) hj (by decide) (Nat.zero_le j)
  refine ⟨decide (128 ≤ c), ?_⟩
  rw [check7bitBuf, hfind, Option.bind_some, Mem.load, hk, Option.map_some]

/-- An eighth bit in front of every NUL ends the loop. -/
theorem check7bitBuf_true {d : Byte} (hj : m[j]? = some d) (hd : 128 ≤ d)
    (h0 : ∀ k ≤ j, m[k]? ≠ some 0) : check7bitBuf m = some true := by
  obtain ⟨k, c, hfind, -, hkj, hk, hc⟩ := Mem.find_le
    (p := fun c => c == 0 || decide (128 ≤ c)) hj (by simp [hd]) (Nat.zero_le j)
  have hc0 : c ≠ 0 := by
    rintro rfl
    exact h0 k hkj hk
  rw [check7bitBuf, hfind, Option.bind_some, Mem.load, hk, Option.map_some]
  simpa [hc0] using hc

/-- `check_7bit` on a text, whatever stands behind it. -/
theorem check7bitBuf_append {copy : Str} (h0 : 0 ∉ copy) (hbit : check7bit copy = true) (r : Str) :
    check7bitBuf (copy ++ r) = some true := by
  obtain ⟨d, hd, hd7⟩ := List.any_eq_true.1 hbit
  obtain ⟨j, hj⟩ := List.getElem?_of_mem hd
  have hlt : j < copy.length := (List.getElem?_eq_some_iff.1 hj).1
  refine check7bitBuf_true ((List.getElem?_append_left hlt).trans hj) (by simpa using hd7) ?_
  intro k hk hzero
  rw [List.getElem?_append_left (Nat.lt_of_le_of_lt hk hlt)] at hzero
  exact h0 (List.mem_of_getElem? hzero)

theorem check7bitBuf_false {copy : Str} (h0 : 0 ∉ copy) (hbit : check7bit copy = false) (r : Str) :
    check7bitBuf (copy ++ 0 :: r) = some false := by
  have hbefore : ∀ c ∈ copy, (c == 0 || decide (128 ≤ c)) = false := fun c hc => by
    have hc7 := List.any_eq_false.1 hbit c hc
    have hc0 : c ≠ 0 := fun h => h0 (h ▸ hc)
    simpa [hc0] using hc7
  have hfind := Mem.find_append (p := fun c => c == 0 || decide (128 ≤ c)) (c := 0) hbefore
    (by decide) [] r
  rw [List.nil_append, List.length_nil, Nat.zero_add] at hfind
  rw [check7bitBuf, hfind, Option.bind_some, Mem.load_append, Option.map_some]
  rfl

/-- With a NUL in the array nothing runs out of it. -/
theorem mailaddrFormat_inside (md : Md) (hj : m[j]? = some 0) : (mailaddrFormat md m).isSome := by
  have hlt : j < m.length := (List.getElem?_eq_some_iff.1 hj).1
  obtain ⟨ret, hret⟩ := check7bitBuf_inside hj
  rw [mailaddrFormat, hret, Option.bind_some]
  cases ret with
  | true => rfl
  | false =>
    obtain ⟨m1, hdot, hj1, hlen1⟩ := replaceDelimiterBuf_inside (show DOT ≠ 0 by decide)
      md.mdDotdelimiter (m.length + 1) 0 m hj (Nat.zero_le j) (by omega)
    obtain ⟨m2, hslash, hj2, -⟩ := replaceDelimiterBuf_inside (show SLASH ≠ 0 by decide)
      md.mdSlashdelimiter (m1.length + 1) 0 m1 hj1 (Nat.zero_le j) (by omega)
    rw [if_neg Bool.false_ne_true, hdot, Option.bind_some, hslash, Option.bind_some]
    rcases Mem.strchr_le hj2 (Nat.zero_le j) (show ch '@' ≠ 0 by decide) with hnone | ⟨k, hfound, -⟩
    · rw [hnone]
      rfl
    · rw [hfound]
      rfl

end

/-! ## The address -/

section
variable {md : Md} {mailaddr : Mem} {address : Str}

/-- **Which addresses stay in the array.** -/
theorem mdMailaddr_isSome_iff (md : Md) (hsize : mailaddr.length = MAX_ADDRESS_LEN + 1)
    (h0 : 0 ∉ address) :
    (mdMailaddr md mailaddr (address ++ [0])).isSome ↔ FitsMailaddr address := by
  have hcopy := Mem.strncpy_append (MAX_ADDRESS_LEN + 1) [] address [] [] mailaddr h0
    (Nat.le_of_eq hsize.symm)
  rw [List.drop_of_length_le (Nat.le_of_eq hsize), List.append_nil] at hcopy
  simp only [List.nil_append, List.length_nil] at hcopy
  rw [mdMailaddr, hcopy, Option.bind_some, FitsMailaddr]
  by_cases hlen : address.length ≤ MAX_ADDRESS_LEN
  · have hall : address.take (MAX_ADDRESS_LEN + 1) = address :=
      List.take_of_length_le (Nat.le_succ_of_le hlen)
    refine iff_of_true (mailaddrFormat_inside (j := address.length) md ?_) (.inl hlen)
    rw [hall, List.getElem?_append_right (Nat.le_refl _), Nat.sub_self, List.getElem?_replicate,
      if_pos (by omega)]
  · have hzeros : MAX_ADDRESS_LEN + 1 - address.length = 0 := by omega
    rw [hzeros, List.replicate_zero, List.append_nil, or_iff_right hlen]
    have hcopy0 : 0 ∉ address.take (MAX_ADDRESS_LEN + 1) := fun h => h0 (List.mem_of_mem_take h)
    generalize address.take (MAX_ADDRESS_LEN + 1) = copy at hcopy0
    -- no NUL in the array: only an eighth bit stops the loop of `check_7bit`
    cases hbit : check7bit copy with
    | true =>
      refine iff_of_true ?_ rfl
      have hret := check7bitBuf_append hcopy0 hbit []
      rw [List.append_nil] at hret
      rw [mailaddrFormat, hret]
      rfl
    | false =>
      have hnone : check7bitBuf copy = none := by
        rw [check7bitBuf, Mem.find_eq_none (fun c hc => ?_) 0, Option.bind_none]
        have hc7 := List.any_eq_false.1 hbit c hc
        have hc0 : c ≠ 0 := fun h => hcopy0 (h ▸ hc)
        simpa [hc0] using hc7
      refine iff_of_false ?_ Bool.false_ne_true
      rw [mailaddrFormat, hnone]
      exact Bool.false_ne_true

theorem replaceDelimiter_of_notMem {s : Str} {old : Byte} (h : old ∉ s) (new : Byte) :
    replaceDelimiter s old new = s := by
  refine (List.map_congr_left fun c hc => ?_).trans (List.map_id s)
  have hne : c ≠ old := by
    rintro rfl
    exact h hc
  rw [if_neg hne]
  rfl

/-- The text up to its first delimiter is kept. -/
theorem replaceDelimiter_append {u : Str} {oldDelim : Byte} (h : oldDelim ∉ u) (newDelim : Byte)
    (t : Str) :
    replaceDelimiter (u ++ oldDelim :: t) oldDelim newDelim =
      u ++ newDelim :: replaceDelimiter t oldDelim newDelim := by
  have hkept := replaceDelimiter_of_notMem h newDelim
  unfold replaceDelimiter at hkept ⊢
  rw [List.map_append, hkept, List.map_cons, if_pos rfl]

/-- A round of `replace_delimiter`, up to the first delimiter. -/
theorem replaceDelimiterBuf_round {u : Str} {oldDelim : Byte} (hu0 : 0 ∉ u) (hu : oldDelim ∉ u)
    (newDelim : Byte) (k : Nat) (pre b : Str) :
    replaceDelimiterBuf oldDelim newDelim (k + 1) pre.length (pre ++ (u ++ oldDelim :: b)) =
      replaceDelimiterBuf oldDelim newDelim k (pre ++ u ++ [newDelim]).length
        (pre ++ u ++ [newDelim] ++ b) := by
  have hstore : Mem.store (pre ++ (u ++ oldDelim :: b)) (pre.length + u.length) newDelim =
      some (pre ++ u ++ [newDelim] ++ b) := by
    rw [← List.length_append, ← List.append_assoc, Mem.store_append, List.append_assoc _ [newDelim],
      List.singleton_append]
  have hnext : pre.length + u.length + 1 = (pre ++ u ++ [newDelim]).length := by
    simp [Nat.add_assoc]
  rw [replaceDelimiterBuf, Mem.strchr_found hu0 hu, Option.bind_some]
  simp only [hstore, Option.bind_some, hnext]

/-- `replace_delimiter` on a string is the replacement in the text. -/
theorem replaceDelimiterBuf_eq {oldDelim : Byte} (hold : oldDelim ≠ 0) (newDelim : Byte) (r : Str) :
    ∀ (k : Nat) (pre s : Str), 0 ∉ s → s.length < k →
      replaceDelimiterBuf oldDelim newDelim k pre.length (pre ++ (s ++ 0 :: r)) =
        some (pre ++ (replaceDelimiter s oldDelim newDelim ++ 0 :: r))
  | 0, pre, s, _, hk => absurd hk (Nat.not_lt_zero _)
  | k + 1, pre, s, h0, hk => by
    by_cases hmem : oldDelim ∈ s
    · obtain ⟨u, t, rfl, hu⟩ := List.eq_append_cons_of_mem hmem
      simp only [List.mem_append, List.mem_cons, not_or] at h0
      obtain ⟨hu0, -, ht0⟩ := h0
      simp only [List.length_append, List.length_cons] at hk
      rw [List.append_assoc u, List.cons_append, replaceDelimiterBuf_round hu0 hu newDelim k pre,
        replaceDelimiterBuf_eq hold newDelim r k _ t ht0 (by omega),
        replaceDelimiter_append hu newDelim]
      simp only [List.append_assoc, List.cons_append, List.nil_append]
    · rw [replaceDelimiterBuf, Mem.strchr_absent h0 hmem hold, Option.bind_some,
        replaceDelimiter_of_notMem hmem newDelim]

/-- A text that the pointers of the replacement table stand for. -/
def pointerText (mailaddr : Mem) : Option Nat → Option Str
  | none => some UNKNOWN
  | some p => mailaddr.str p

theorem notMem_replaceDelimiter_of {s : Str} {c new : Byte} (h : c ∉ s) (old : Byte)
    (hnew : new ≠ c) :
    c ∉ replaceDelimiter s old new := by
  intro hm
  obtain ⟨d, hd, hc⟩ := List.mem_map.1 hm
  split at hc
  · exact hnew hc
  · exact h (hc ▸ hd)

/-- The pointer behind the `@` of the array. -/
theorem pointerText_domain {name : Str} (h0 : 0 ∉ name) (r : Str) :
    ∃ domainP, Mem.strchr (name ++ 0 :: r) 0 (ch '@') = some domainP ∧
      pointerText (name ++ 0 :: r) (domainP.map (· + 1)) =
        some (((strchr name (ch '@')).map List.tail).getD UNKNOWN) := by
  by_cases hmem : ch '@' ∈ name
  · obtain ⟨u, t, rfl, hu⟩ := List.eq_append_cons_of_mem hmem
    simp only [List.mem_append, List.mem_cons, not_or] at h0
    obtain ⟨hu0, -, ht0⟩ := h0
    have hblock : u ++ ch '@' :: t ++ 0 :: r = u ++ [ch '@'] ++ (t ++ 0 :: r) := by simp
    refine ⟨some u.length, ?_, ?_⟩
    · have hfound := Mem.strchr_found hu0 hu [] (t ++ 0 :: r)
      rwa [List.nil_append, List.length_nil, Nat.zero_add, ← List.cons_append,
        ← List.append_assoc] at hfound
    · have hlen : u.length + 1 = (u ++ [ch '@']).length := by simp
      rw [Option.map_some, pointerText, hblock, hlen, Mem.str_append ht0,
        strchr_append_of_notMem t hu, Option.map_some, List.tail_cons, Option.getD_some]
  · refine ⟨none, Mem.strchr_absent h0 hmem (by decide) [] r, ?_⟩
    rw [strchr_eq_none.2 hmem]
    rfl

/-- The array gives the replacement table of the string model. -/
theorem mailaddrFormat_eq {md : Md} (hdot : md.mdDotdelimiter ≠ 0) (hslash : md.mdSlashdelimiter ≠ 0)
    {copy : Str} (h0 : 0 ∉ copy) (r : Str) (lt : Tm) :
    ∃ (m : Mem) (addrP domainP : Option Nat) (addr domain : Str),
      mailaddrFormat md (copy ++ 0 :: r) = some (m, addrP, domainP) ∧
      pointerText m addrP = some addr ∧ pointerText m domainP = some domain ∧
      folderFormat md lt copy = [⟨ch 'y', lt.year⟩, ⟨ch 'm', lt.month⟩, ⟨ch 'd', lt.day⟩,
        ⟨ch 'D', domain⟩, ⟨ch 'M', addr⟩, ⟨ch 'f', addr⟩] := by
  cases hbit : check7bit copy with
  | true =>
    refine ⟨copy ++ 0 :: r, none, none, UNKNOWN, UNKNOWN, ?_, rfl, rfl, ?_⟩
    · rw [mailaddrFormat, check7bitBuf_append h0 hbit, Option.bind_some, if_pos rfl]
    · simp only [folderFormat, hbit, if_true]
  | false =>
    have hfirst := replaceDelimiterBuf_eq (show DOT ≠ 0 by decide) md.mdDotdelimiter r
      ((copy ++ 0 :: r).length + 1) [] copy h0
      (by rw [List.length_append]; omega)
    rw [List.nil_append, List.nil_append, List.length_nil] at hfirst
    have h1 := notMem_replaceDelimiter_of h0 DOT hdot
    generalize hdotted : replaceDelimiter copy DOT md.mdDotdelimiter = dotted at hfirst h1
    have hsecond := replaceDelimiterBuf_eq (show SLASH ≠ 0 by decide) md.mdSlashdelimiter r
      ((dotted ++ 0 :: r).length + 1) [] dotted h1
      (by rw [List.length_append]; omega)
    rw [List.nil_append, List.nil_append, List.length_nil] at hsecond
    have h2 := notMem_replaceDelimiter_of h1 SLASH hslash
    generalize hname : replaceDelimiter dotted SLASH md.mdSlashdelimiter = name at hsecond h2
    obtain ⟨domainP, hat, hdomain⟩ := pointerText_domain h2 r
    refine ⟨name ++ 0 :: r, some 0, domainP.map (· + 1), name, _, ?_, Mem.str_append h2 [] r,
      hdomain, ?_⟩
    · rw [mailaddrFormat, check7bitBuf_false h0 hbit r, Option.bind_some,
        if_neg Bool.false_ne_true, hfirst, Option.bind_some, hsecond, Option.bind_some, hat]
      cases domainP <;> rfl
    · simp only [folderFormat, hbit, Bool.false_eq_true, if_false, hdotted, hname]
      cases strchr name (ch '@') <;> rfl

end

/-! ## Completed addresses -/

/-- The address with a domain. -/
def completed (address defaultdomain : Str) : Str :=
  if ch '@' ∈ address then address else address ++ ch '@' :: defaultdomain

theorem complementAddress_eq (address : Str) (cfg : Settings) :
    complementAddress address cfg = completed address cfg.cfDefaultdomain := by
  unfold complementAddress completed
  by_cases hmem : ch '@' ∈ address
  · obtain ⟨t, ht⟩ := strchr_isSome hmem
    rw [if_pos hmem, ht]
  · rw [if_neg hmem, strchr_eq_none.2 hmem, List.append_assoc, List.singleton_append]

/-- **Long addresses.** What reads `mailaddr` behind the copy of a completed address stays in the
array exactly when the copy has its NUL or an eighth bit that ends `check_7bit`. -/
theorem mdMailaddr_complemented_iff (md : Md) {mailaddr : Mem}
    (hsize : mailaddr.length = MAX_ADDRESS_LEN + 1) {address : Str} {cfg : Settings}
    (h0 : 0 ∉ address) (hdomain : 0 ∉ cfg.cfDefaultdomain) :
    (mdMailaddr md mailaddr (complementAddress address cfg ++ [0])).isSome ↔
      (completed address cfg.cfDefaultdomain).length ≤ MAX_ADDRESS_LEN ∨
      ∃ c ∈ (completed address cfg.cfDefaultdomain).take (MAX_ADDRESS_LEN + 1), 128 ≤ c := by
  have hcompleted : 0 ∉ completed address cfg.cfDefaultdomain := by
    unfold completed
    split
    · exact h0
    · simp only [List.mem_append, List.mem_cons, not_or]
      exact ⟨h0, by decide, hdomain⟩
  rw [complementAddress_eq, mdMailaddr_isSome_iff md hsize hcompleted, FitsMailaddr, check7bit,
    List.any_eq_true]
  simp only [decide_eq_true_eq]

/-- An address without a domain. -/
theorem mdMailaddr_complemented_iff_short :
    (mdMailaddr headerMd (List.replicate (MAX_ADDRESS_LEN + 1) 0)
      (complementAddress (bytes "b") exampleConfig ++ [0])).isSome ↔
      (completed (bytes "b") exampleConfig.cfDefaultdomain).length ≤ MAX_ADDRESS_LEN ∨
      ∃ c ∈ (completed (bytes "b") exampleConfig.cfDefaultdomain).take (MAX_ADDRESS_LEN + 1),
        128 ≤ c :=
  mdMailaddr_complemented_iff headerMd List.length_replicate (by decide +kernel)
    (by decide +kernel)

/-- The argument of `RCPT TO` with an address of 257 bytes. -/
def longArgument : Str := bytes "<" ++ List.replicate 245 (ch 'a') ++ bytes "@example.com>"

/-- `check_7bit` runs out of the array for an address that goes to the save list. -/
theorem not_mdMailaddr_long :
    route exampleConfig (complementAddress (getAddrpart longArgument) exampleConfig) = .save ∧
    ¬ (mdMailaddr headerMd (List.replicate (MAX_ADDRESS_LEN + 1) 0)
      (complementAddress (getAddrpart longArgument) exampleConfig ++ [0])).isSome := by
  have haddress : complementAddress (getAddrpart longArgument) exampleConfig =
      List.replicate 245 (ch 'a') ++ bytes "@example.com" := by decide +kernel
  rw [haddress]
  refine ⟨by decide +kernel, fun h => ?_⟩
  have hfits := (mdMailaddr_isSome_iff headerMd List.length_replicate (by decide +kernel)).1 h
  exact absurd hfits (by decide +kernel)

end Messasy
