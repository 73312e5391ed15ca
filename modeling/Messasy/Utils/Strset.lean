import Messasy.Lib.CString
import Messasy.Utils.Format

/-!
# Text replacement in memory (`libdgstr.c`, `utils.c`)

`struct strset` with its block, and `str_replace_format` with its two pointers into the text. After
every call that appends, the block is the text so far and its NUL (`Strset.Holds`), so that the
result is the expansion of the text (`strReplaceFormatBuf_expands`). `realloc` succeeds.
-/

namespace Messasy

open Lib

/-- `struct strset`; `none` is `NULL`. -/
structure Strset where
  ssStr : Option Mem
  ssLen : Nat

def strsetInit : Strset := ⟨none, 0⟩

section
variable (junk : Byte)

/-- `strset_catstrset`; the second set is `len` bytes of the block `src` from `i` on. -/
def strsetCatstrset (ss : Strset) (src : Mem) (i len : Nat) : Option Strset :=
  let tmp := Mem.realloc (ss.ssStr.getD []) junk (ss.ssLen + len + 1)
  (tmp.memcpy ss.ssLen src i len).bind fun tmp =>
  (tmp.store (ss.ssLen + len) 0).map fun tmp => ⟨some tmp, ss.ssLen + len⟩

/-- `strset_catstr`, with the `strlen` of `strset_set`. -/
def strsetCatstr (ss : Strset) (src : Mem) (i : Nat) : Option Strset :=
  (src.find (· == 0) i).bind fun j => strsetCatstrset junk ss src i (j - i)

/-- `strset_catnstr`. -/
def strsetCatnstr (ss : Strset) (src : Mem) (i len : Nat) : Option Strset :=
  strsetCatstrset junk ss src i len

/-- The search for the format character `c` behind `leader`. -/
def catFormat (str : Mem) (leader : Nat) (c : Byte) (ss : Strset) : List Strformat → Option Strset
  | [] => strsetCatnstr junk ss str leader 2
  | e :: sf =>
    if e.sfFormatchar ≠ c then catFormat str leader c ss sf
    else strsetCatstr junk ss (e.sfReplacestr ++ [0]) 0

/-- The loop, for at most `k` rounds: the last `chaser` and the text so far. -/
def formatLoop (str : Mem) (sf : List Strformat) : Nat → Nat → Strset → Option (Nat × Strset)
  | 0, _, _ => none
  | k + 1, chaser, ss =>
    (str.strchr chaser (ch '%')).bind fun
    | none => some (chaser, ss)
    | some leader =>
      (strsetCatnstr junk ss str chaser (leader - chaser)).bind fun ss =>
      (str.load (leader + 1)).bind fun c =>
      if c = 0 then some (leader, ss)
      else
        (if c = ch '%' then strsetCatstr junk ss (bytes "%" ++ [0]) 0
          else catFormat junk str leader c ss sf).bind fun ss =>
        formatLoop str sf k (leader + 2) ss

/-- `str_replace_format`: the block that is returned. Every round passes a `%`, so that the length
of the text bounds the rounds. -/
def strReplaceFormatBuf (str : Mem) (sf : List Strformat) : Option (Option Mem) :=
  (formatLoop junk str sf str.length 0 strsetInit).bind fun (chaser, ss) =>
  (strsetCatstr junk ss str chaser).map (·.ssStr)

end

example : strReplaceFormatBuf 7 (bytes "%M:%%%x%" ++ [0]) [⟨ch 'M', bytes "a%M"⟩] =
    some (some (bytes "a%M:%%x%" ++ [0])) := by decide +kernel

/-- The set of a text: the block is the text and its NUL. -/
def Strset.ofStr (s : Str) : Strset := ⟨some (s ++ [0]), s.length⟩

/-- The set holds a text: nothing was appended yet, or it is the set of this text. -/
def Strset.Holds (ss : Strset) (s : Str) : Prop := ss = strsetInit ∧ s = [] ∨ ss = .ofStr s

section
variable {junk : Byte} {ss : Strset} {s piece : Str}

theorem strsetInit_holds : strsetInit.Holds [] := .inl ⟨rfl, rfl⟩

theorem Strset.holds_ofStr (s : Str) : (Strset.ofStr s).Holds s := .inr rfl

theorem Strset.Holds.len (h : ss.Holds s) : ss.ssLen = s.length := by
  rcases h with ⟨rfl, rfl⟩ | rfl <;> rfl

/-- The text stays in front of the bytes that `realloc` adds. -/
theorem Strset.Holds.realloc (h : ss.Holds s) (junk : Byte) (n : Nat) : ∃ t last, t.length = n ∧
    Mem.realloc (ss.ssStr.getD []) junk (ss.ssLen + n + 1) = s ++ t ++ [last] := by
  obtain ⟨u, hu, hlen⟩ : ∃ u, Mem.realloc (ss.ssStr.getD []) junk (ss.ssLen + n + 1) = s ++ u ∧
      u.length = n + 1 := by
    rcases h with ⟨rfl, rfl⟩ | rfl
    · exact ⟨List.replicate (n + 1) junk, by simp [Mem.realloc, strsetInit], List.length_replicate⟩
    · refine ⟨0 :: List.replicate n junk, ?_, by simp⟩
      have htake : (s ++ [0]).take (s.length + n + 1) = s ++ [0] :=
        List.take_of_length_le (by simp [Nat.add_assoc])
      have hnew : s.length + n + 1 - (s ++ [0]).length = n := by
        rw [List.length_append, List.length_singleton]
        omega
      simp only [ofStr, Option.getD_some, Mem.realloc, htake, hnew, List.append_assoc,
        List.singleton_append]
  have hne : u ≠ [] := by
    rintro rfl
    cases hlen
  refine ⟨u.dropLast, u.getLast hne, by rw [List.length_dropLast, hlen]; rfl, ?_⟩
  rw [hu, List.append_assoc, List.dropLast_concat_getLast]

/-- **Appending a piece** of another block. -/
theorem Strset.Holds.cat (h : ss.Holds s) (junk : Byte) (a b piece : Str) :
    strsetCatstrset junk ss (a ++ (piece ++ b)) a.length piece.length =
      some (.ofStr (s ++ piece)) := by
  obtain ⟨t, last, ht, hrealloc⟩ := h.realloc junk piece.length
  have hstore : Mem.store (s ++ piece ++ [last]) (s.length + piece.length) 0 =
      some (s ++ piece ++ [0]) := by
    rw [← List.length_append]
    exact Mem.store_append _ _ _ _
  rw [h.len] at hrealloc
  simp only [strsetCatstrset, h.len, hrealloc, Mem.memcpy_append ht, Option.bind_some, hstore,
    Option.map_some, ofStr, List.length_append]

/-- `strset_catstr` appends a whole string. -/
theorem Strset.Holds.catstr (h : ss.Holds s) (junk : Byte) (a b : Str) (hp : 0 ∉ piece) :
    strsetCatstr junk ss (a ++ (piece ++ 0 :: b)) a.length = some (.ofStr (s ++ piece)) := by
  have hend : Mem.find (a ++ (piece ++ 0 :: b)) (· == 0) a.length =
      some (a.length + piece.length) := by
    refine Mem.find_append (fun x hx => ?_) rfl a b
    rw [beq_eq_false_iff_ne]
    rintro rfl
    exact hp hx
  rw [strsetCatstr, hend, Option.bind_some, Nat.add_sub_cancel_left]
  exact h.cat junk a (0 :: b) piece

/-! ## The replacement -/

/-- The pair behind `leader` appends its replacement, or itself. -/
theorem Strset.Holds.catFormat (h : ss.Holds s) (junk : Byte) (a b : Str) (c : Byte) :
    ∀ sf : List Strformat, (∀ e ∈ sf, 0 ∉ e.sfReplacestr) →
      Messasy.catFormat junk (a ++ ch '%' :: c :: b) a.length c ss sf =
        some (.ofStr (s ++ (searchFormat sf c).getD [ch '%', c]))
  | [], _ => h.cat junk a b [ch '%', c]
  | e :: sf, hsf => by
    rw [Messasy.catFormat, searchFormat_cons]
    by_cases he : c = e.sfFormatchar
    · rw [if_neg (not_not.2 he.symm), if_pos he]
      exact h.catstr junk [] [] (hsf e List.mem_cons_self)
    · rw [if_pos (Ne.symm he), if_neg he]
      exact h.catFormat junk a b c sf fun e' he' => hsf e' (List.mem_cons_of_mem e he')

/-- The pair behind `leader`, whatever it is. -/
theorem Strset.Holds.catPair (h : ss.Holds s) (junk : Byte) (a b : Str) (c : Byte)
    {sf : List Strformat} (hsf : ∀ e ∈ sf, 0 ∉ e.sfReplacestr) :
    (if c = ch '%' then strsetCatstr junk ss (bytes "%" ++ [0]) 0
      else Messasy.catFormat junk (a ++ ch '%' :: c :: b) a.length c ss sf) =
    some (.ofStr (s ++ if c = ch '%' then [ch '%'] else (searchFormat sf c).getD [ch '%', c])) := by
  by_cases hc : c = ch '%'
  · simp only [if_pos hc]
    have hp : 0 ∉ bytes "%" := by decide
    exact h.catstr junk [] [] hp
  · simp only [if_neg hc]
    exact h.catFormat junk a b c sf hsf

/-- A round up to the byte behind its `%`: the text between the pointers goes over as it is. -/
theorem Strset.Holds.flush (h : ss.Holds s) (junk : Byte) (sf : List Strformat) (k : Nat)
    (pre : Str) {u : Str} (hu0 : 0 ∉ u) (hu : ch '%' ∉ u) (c : Byte) (b : Str) :
    formatLoop junk (pre ++ (u ++ ch '%' :: c :: b)) sf (k + 1) pre.length ss =
      if c = 0 then some ((pre ++ u).length, .ofStr (s ++ u))
      else
        (if c = ch '%' then strsetCatstr junk (.ofStr (s ++ u)) (bytes "%" ++ [0]) 0
          else Messasy.catFormat junk (pre ++ u ++ ch '%' :: c :: b) (pre ++ u).length c
            (.ofStr (s ++ u)) sf).bind
          (formatLoop junk (pre ++ u ++ ch '%' :: c :: b) sf k ((pre ++ u).length + 2)) := by
  have hcat := h.cat junk pre (ch '%' :: c :: b) u
  have hassoc : pre ++ (u ++ ch '%' :: c :: b) = pre ++ u ++ ch '%' :: c :: b :=
    (List.append_assoc _ _ _).symm
  have hnext : Mem.load (pre ++ u ++ ch '%' :: c :: b) (pre.length + u.length + 1) = some c := by
    have hsplit : pre ++ u ++ ch '%' :: c :: b = pre ++ u ++ [ch '%'] ++ c :: b := by simp
    have hat : pre.length + u.length + 1 = (pre ++ u ++ [ch '%']).length := by
      simp [Nat.add_assoc]
    rw [hsplit, hat]
    exact Mem.load_append _ _ _
  rw [formatLoop, Mem.strchr_found hu0 hu, Option.bind_some]
  rw [hassoc] at hcat ⊢
  simp only [strsetCatnstr, Nat.add_sub_cancel_left, hcat, Option.bind_some, hnext,
    List.length_append]

/-- A round over a pair: the text in front of it and its replacement are appended. -/
theorem Strset.Holds.round (h : ss.Holds s) (junk : Byte) {sf : List Strformat}
    (hsf : ∀ e ∈ sf, 0 ∉ e.sfReplacestr) (k : Nat) (pre : Str) {u : Str} (hu0 : 0 ∉ u)
    (hu : ch '%' ∉ u) {c : Byte} (hc : c ≠ 0) (b : Str) :
    formatLoop junk (pre ++ (u ++ ch '%' :: c :: b)) sf (k + 1) pre.length ss =
      formatLoop junk (pre ++ u ++ [ch '%', c] ++ b) sf k (pre ++ u ++ [ch '%', c]).length
        (.ofStr (s ++ u ++
          if c = ch '%' then [ch '%'] else (searchFormat sf c).getD [ch '%', c])) := by
  have hpair := (Strset.holds_ofStr (s ++ u)).catPair junk (pre ++ u) b c hsf
  have hbehind : pre ++ u ++ ch '%' :: c :: b = pre ++ u ++ [ch '%', c] ++ b := by simp
  have hlen : (pre ++ u).length + 2 = (pre ++ u ++ [ch '%', c]).length := by simp [Nat.add_assoc]
  rw [h.flush junk sf k pre hu0 hu c b, if_neg hc, hpair, Option.bind_some, hbehind, hlen]

/-- The loop from `chaser` on: the text in front of it is in the set, expanded, and what is left
behind the last `chaser` has no pair any more. -/
theorem formatLoop_holds (junk : Byte) {sf : List Strformat} (hsf : ∀ e ∈ sf, 0 ∉ e.sfReplacestr) :
    ∀ (k : Nat) (pre str s : Str) (ss : Strset), str.length < k → 0 ∉ str → ss.Holds s →
      ∃ (copied rest t : Str) (ss' : Strset), str = copied ++ rest ∧
        formatLoop junk (pre ++ (str ++ [0])) sf k pre.length ss =
          some ((pre ++ copied).length, ss') ∧
        ss'.Holds t ∧ t ++ rest = s ++ expand (searchFormat sf) str
  | 0, _, _, _, _, hk, _, _ => absurd hk (Nat.not_lt_zero _)
  | k + 1, pre, str, s, ss, hk, h0, h => by
    by_cases hp : ch '%' ∈ str
    · obtain ⟨u, r, rfl, hu⟩ := List.eq_append_cons_of_mem hp
      simp only [List.mem_append, List.mem_cons, not_or] at h0
      obtain ⟨hu0, -, hr0⟩ := h0
      have hcopy : expand (searchFormat sf) (u ++ ch '%' :: r) =
          u ++ expand (searchFormat sf) (ch '%' :: r) := expand_append_of_notMem hu _
      have hmem : u ++ ch '%' :: r ++ [0] = u ++ ch '%' :: (r ++ [0]) := List.append_assoc _ _ _
      rw [hmem]
      cases r with
      | nil =>
        -- the `%` is the last byte: `chaser` stays in front of it
        refine ⟨u, [ch '%'], s ++ u, _, rfl, ?_, Strset.holds_ofStr (s ++ u), ?_⟩
        · exact (h.flush junk sf k pre hu0 hu 0 []).trans (if_pos rfl)
        · rw [hcopy, expand, List.append_assoc]
      | cons c rest =>
        have hc0 : c ≠ 0 := fun h => hr0 (h ▸ List.mem_cons_self)
        have hrest0 : 0 ∉ rest := fun h => hr0 (List.mem_cons_of_mem c h)
        simp only [List.length_append, List.length_cons] at hk
        obtain ⟨copied, left, t, ss', rfl, hloop, ht, hexp⟩ := formatLoop_holds junk hsf k
          (pre ++ u ++ [ch '%', c]) rest _ _ (by omega) hrest0 (Strset.holds_ofStr _)
        refine ⟨u ++ [ch '%', c] ++ copied, left, t, ss', by simp, ?_, ht, ?_⟩
        · rw [List.cons_append, h.round junk hsf k pre hu0 hu hc0, hloop]
          simp only [List.append_assoc]
        · rw [hexp, hcopy, expand_pair, List.append_assoc, List.append_assoc]
    · refine ⟨[], str, s, ss, rfl, ?_, h, ?_⟩
      · rw [formatLoop, Mem.strchr_absent h0 hp (by decide), Option.bind_some, List.append_nil]
      · have hcopy : expand (searchFormat sf) (str ++ []) = str ++ expand (searchFormat sf) [] :=
          expand_append_of_notMem hp []
        rw [List.append_nil, expand, List.append_nil] at hcopy
        rw [hcopy]

end

/-- The block that `str_replace_format` returns is the text with its replacements. No access is
outside a block. -/
theorem strReplaceFormatBuf_eq (junk : Byte) {str : Str} {sf : List Strformat} (h0 : 0 ∉ str)
    (hsf : ∀ e ∈ sf, 0 ∉ e.sfReplacestr) :
    strReplaceFormatBuf junk (str ++ [0]) sf = some (some (strReplaceFormat str sf ++ [0])) := by
  obtain ⟨copied, rest, t, ss, rfl, hloop, ht, hexp⟩ := formatLoop_holds junk hsf
    (str ++ [0]).length [] str [] strsetInit (by simp) h0 strsetInit_holds
  have hrest0 : 0 ∉ rest := fun h => h0 (List.mem_append_right copied h)
  have hmem : copied ++ rest ++ [0] = copied ++ (rest ++ [0]) := List.append_assoc _ _ _
  rw [List.nil_append, List.nil_append, hmem, List.length_nil] at hloop
  rw [List.nil_append, ← strReplaceFormat_eq] at hexp
  simp only [strReplaceFormatBuf, hmem, hloop, Option.bind_some,
    ht.catstr junk copied [] hrest0, Option.map_some, hexp, Strset.ofStr]

/-- **Template expansion.** What `str_replace_format` returns is a string, and this string is the
one expansion of the text by the rules. -/
theorem strReplaceFormatBuf_expands (junk : Byte) (str : Str) (sf : List Strformat) (h0 : 0 ∉ str)
    (hsf : ∀ e ∈ sf, 0 ∉ e.sfReplacestr) :
    ∃ r, strReplaceFormatBuf junk (str ++ [0]) sf = some (some (r ++ [0])) ∧
      ∀ r', Expands (searchFormat sf) str r' ↔ r' = r := by
  refine ⟨strReplaceFormat str sf, strReplaceFormatBuf_eq junk h0 hsf, fun r' => ?_⟩
  rw [strReplaceFormat_eq]
  exact expands_iff

/-- The replacement `a%M` is not read again. -/
theorem strReplaceFormatBuf_expands_nested :
    ∃ r, strReplaceFormatBuf 7 (bytes ".%M%%%x%" ++ [0]) [⟨ch 'M', bytes "a%M"⟩] =
        some (some (r ++ [0])) ∧
      ∀ r', Expands (searchFormat [⟨ch 'M', bytes "a%M"⟩]) (bytes ".%M%%%x%") r' ↔ r' = r :=
  strReplaceFormatBuf_expands 7 (bytes ".%M%%%x%") [⟨ch 'M', bytes "a%M"⟩] (by decide +kernel)
    (by decide +kernel)

end Messasy
