import Messasy.Lib.Template

/-!
# Text replacement (`utils.c`)

`replace_delimiter` and `str_replace_format`. The loop of `str_replace_format` keeps its two
pointers: `chaser` is the text not yet copied, `leader` the next `%` in it.
-/

namespace Messasy

open Lib

/-- `replace_delimiter`: every `old_delim` becomes `new_delim`. -/
def replaceDelimiter (str : Str) (oldDelim newDelim : Byte) : Str :=
  str.map fun c => if c = oldDelim then newDelim else c

/-- `struct strformat`. -/
structure Strformat where
  sfFormatchar : Byte
  sfReplacestr : Str
  deriving DecidableEq

/-- The search for a format character: the replacement of the first entry that has it. -/
def searchFormat (sf : List Strformat) (c : Byte) : Option Str :=
  (sf.find? fun e => e.sfFormatchar == c).map (·.sfReplacestr)

/-- The loop of `str_replace_format`; `ss` is the text built so far. Every round consumes the `%`
it found, so the length of the text bounds the rounds. -/
def strReplaceFormatLoop (sf : List Strformat) : Nat → Str → Str → Str
  | 0, chaser, ss => ss ++ chaser
  | k + 1, chaser, ss =>
    match strchr chaser (ch '%') with
    | none => ss ++ chaser
    | some leader =>
      let ss := ss ++ before chaser (ch '%')
      match leader.tail with
      | [] => ss ++ leader
      | c :: rest =>
        if c = ch '%' then strReplaceFormatLoop sf k rest (ss ++ [ch '%'])
        else
          match searchFormat sf c with
          | some r => strReplaceFormatLoop sf k rest (ss ++ r)
          | none => strReplaceFormatLoop sf k rest (ss ++ [ch '%', c])

/-- `str_replace_format`. -/
def strReplaceFormat (str : Str) (sf : List Strformat) : Str :=
  strReplaceFormatLoop sf str.length str []

/-! ## The loop is the expansion of a template -/

theorem searchFormat_nil (c : Byte) : searchFormat [] c = none := rfl

theorem searchFormat_cons (e : Strformat) (sf : List Strformat) (c : Byte) :
    searchFormat (e :: sf) c =
      if c = e.sfFormatchar then some e.sfReplacestr else searchFormat sf c := by
  simp only [searchFormat, List.find?_cons]
  by_cases h : c = e.sfFormatchar
  · subst h
    simp
  · have hne : (e.sfFormatchar == c) = false := by simpa using Ne.symm h
    rw [hne, if_neg h]

theorem searchFormat_mem {sf : List Strformat} {c : Byte} {r : Str}
    (h : searchFormat sf c = some r) : ∃ e ∈ sf, e.sfReplacestr = r := by
  obtain ⟨e, he, rfl⟩ := Option.map_eq_some_iff.1 h
  exact ⟨e, List.mem_of_find?_eq_some he, rfl⟩

theorem strReplaceFormatLoop_eq (sf : List Strformat) : ∀ (k : Nat) (chaser ss : Str),
    chaser.length ≤ k →
    strReplaceFormatLoop sf k chaser ss = ss ++ expand (searchFormat sf) chaser
  | 0, chaser, ss, hk => by
    obtain rfl : chaser = [] := List.eq_nil_of_length_eq_zero (by omega)
    rfl
  | k + 1, chaser, ss, hk => by
    unfold strReplaceFormatLoop
    cases hl : strchr chaser (ch '%') with
    | none =>
      have hcopy : expand (searchFormat sf) (chaser ++ []) = chaser ++ expand (searchFormat sf) [] :=
        expand_append_of_notMem (strchr_eq_none.1 hl) []
      rw [List.append_nil] at hcopy
      simp only [hcopy, expand, List.append_nil]
    | some leader =>
      obtain ⟨r, rfl, hr⟩ := strchr_eq_some hl
      have hlen := congrArg List.length hr
      simp only [List.length_append, List.length_cons] at hlen
      have hcopy : expand (searchFormat sf) chaser =
          before chaser (ch '%') ++ expand (searchFormat sf) (ch '%' :: r) := by
        rw [← expand_append_of_notMem (notMem_before _ _), ← hr]
      simp only [List.tail_cons]
      cases r with
      | nil => simp only [hcopy, expand, List.append_assoc]
      | cons c rest =>
        simp only [List.length_cons] at hlen
        have ih := fun ss => strReplaceFormatLoop_eq sf k rest ss (by omega)
        by_cases hc : c = ch '%'
        · subst hc
          simp only [if_true, ih, hcopy, expand_percent, List.append_assoc, List.singleton_append]
        · cases hs : searchFormat sf c with
          | none =>
            simp only [if_neg hc, hs, ih, hcopy, expand_none hc hs, List.append_assoc, List.cons_append,
              List.nil_append]
          | some x => simp only [if_neg hc, hs, ih, hcopy, expand_some hc hs, List.append_assoc]

/-- **`str_replace_format` expands the text as a template.** -/
theorem strReplaceFormat_eq (str : Str) (sf : List Strformat) :
    strReplaceFormat str sf = expand (searchFormat sf) str :=
  strReplaceFormatLoop_eq sf str.length str [] (Nat.le_refl _)

/-- Every byte comes from the text or from a replacement. -/
theorem mem_strReplaceFormat {str : Str} {sf : List Strformat} {b : Byte}
    (h : b ∈ strReplaceFormat str sf) : b ∈ str ∨ ∃ e ∈ sf, b ∈ e.sfReplacestr := by
  rw [strReplaceFormat_eq] at h
  refine (mem_expand h).imp_right ?_
  rintro ⟨d, r, hr, hb⟩
  obtain ⟨e, he, rfl⟩ := searchFormat_mem hr
  exact ⟨e, he, hb⟩

theorem notMem_replaceDelimiter {str : Str} {old new : Byte} (h : new ≠ old) :
    old ∉ replaceDelimiter str old new := by
  intro hm
  obtain ⟨c, -, hc⟩ := List.mem_map.1 hm
  split at hc
  · exact h hc
  · rename_i hne
    exact hne hc

end Messasy
