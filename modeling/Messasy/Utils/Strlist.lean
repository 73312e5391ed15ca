import Messasy.Lib.Bytes
import Messasy.Lib.Chain
import Messasy.Lib.Firsts

/-!
# String lists (`utils.c`)

`struct strlist` in an arena of nodes. `malloc` is taken to succeed: the source leaves the process
with `exit` when it does not. The lists of a configuration are built once by `split_comma` and
never changed; they are plain lists of strings here.
-/

namespace Messasy

open Lib

/-- Return codes of `messasy.h`. -/
inductive Rc
  | success
  | positive
  | error
  deriving DecidableEq, Repr

abbrev StrHeap := Arena (Node Str)

/-- `push_strlist`: a new node behind the tail. -/
def pushStrlist (h : StrHeap) (listhead listtail : Option Nat) (str : Str) :
    Option (StrHeap × Option Nat × Option Nat) :=
  link (h.alloc ⟨str, none⟩) listhead listtail h.next

/-- `free_strlist`. -/
def freeStrlist (h : StrHeap) (strlist : Option Nat) : Option StrHeap :=
  release h.next h strlist

/-- `attach_strlist`: an existing node behind the tail. -/
def attachStrlist (h : StrHeap) (listhead listtail : Option Nat) (attachlist : Nat) :
    Option (StrHeap × Option Nat × Option Nat) :=
  match h.cell attachlist with
  | none => none
  | some n => link (h.put attachlist { n with next := none }) listhead listtail attachlist

/-- `uniq_push_strlist` on a list of strings. -/
def uniqPush (list : List Str) (str : Str) : List Str :=
  if str ∈ list then list else list ++ [str]

/-- The loop of `split_comma`: `head` is the piece being looked at. -/
def splitCommaLoop : Nat → Str → List Str → List Str
  | 0, head, list => uniqPush list head
  | k + 1, head, list =>
    match strchr head (ch ',') with
    | none => uniqPush list head
    | some e => splitCommaLoop k e.tail (uniqPush list (before head (ch ',')))

/-- `split_comma`. -/
def splitComma (str : Str) : List Str := splitCommaLoop str.length str []

/-! ## The list operations -/

section
variable {h : StrHeap} {hd tl : Option Nat} {l : List (Nat × Str)}

/-- `push_strlist` appends a fresh node; besides it, only the old last node is written. -/
theorem pushStrlist_eq (hq : Queue h hd tl l) (str : Str) :
    ∃ h' hd' tl', pushStrlist h hd tl str = some (h', hd', tl') ∧
      Queue h' hd' tl' (l ++ [(h.next, str)]) ∧ h'.next = h.next + 1 ∧
      ∀ r < h.next, r ∉ ids l → h'.cell r = h.cell r := by
  have hlt := hq.chain.id_lt
  have hq' : Queue (h.alloc ⟨str, none⟩) hd tl l :=
    hq.frame fun q hm => Arena.cell_alloc_of_lt (hlt q hm)
  have hnot : h.next ∉ ids l := fun hm => Nat.lt_irrefl _ (hlt _ hm)
  obtain ⟨h', hd', tl', he, hq2, hn, hs⟩ := hq'.link_eq (Arena.cell_alloc_self h _) hnot
  refine ⟨h', hd', tl', he, hq2, hn, fun r hr hm => ?_⟩
  rw [hs r hm, Arena.cell_alloc_of_lt hr]

/-- `free_strlist` releases exactly the list's nodes. -/
theorem freeStrlist_eq {p : Option Nat} (hc : Chain h p l) :
    ∃ h', freeStrlist h p = some h' ∧ h'.next = h.next ∧ (∀ r ∈ ids l, h'.cell r = none) ∧
      ∀ r ∉ ids l, h'.cell r = h.cell r :=
  hc.release_eq hc.length_le

/-- `attach_strlist` moves a live node that is not on the list. -/
theorem attachStrlist_eq (hq : Queue h hd tl l) {q : Nat} {str : Str} {nx : Option Nat}
    (hcq : h.cell q = some ⟨str, nx⟩) (hnot : q ∉ ids l) :
    ∃ h' hd' tl', attachStrlist h hd tl q = some (h', hd', tl') ∧
      Queue h' hd' tl' (l ++ [(q, str)]) ∧ h'.next = h.next ∧
      ∀ r, r ≠ q → r ∉ ids l → h'.cell r = h.cell r := by
  have hq' : Queue (h.put q ⟨str, none⟩) hd tl l :=
    hq.frame fun r hm => Arena.cell_put_of_ne fun e => hnot (e ▸ hm)
  obtain ⟨h', hd', tl', he, hq2, hn, hs⟩ := hq'.link_eq (Arena.cell_put_self hcq) hnot
  refine ⟨h', hd', tl', by simpa only [attachStrlist, hcq] using he, hq2, hn, fun r hr hm => ?_⟩
  rw [hs r hm, Arena.cell_put_of_ne hr]

theorem attachStrlist_dead {h' : StrHeap} {hd' tl' : Option Nat} {q r : Nat}
    (he : attachStrlist h hd tl q = some (h', hd', tl')) (hr : h.cell r = none) :
    h'.cell r = none := by
  unfold attachStrlist link at he
  split at he
  · cases he
  · split at he
    · cases he
      exact Arena.cell_put_dead hr
    · split at he
      · cases he
      · split at he
        · cases he
        · cases he
          exact Arena.cell_put_dead (Arena.cell_put_dead hr)

end

/-! ## The pieces of a comma-separated text -/

theorem mem_uniqPush {list : List Str} {str s : Str} :
    s ∈ uniqPush list str ↔ s ∈ list ∨ s = str := by
  unfold uniqPush
  split <;> simp_all

/-- `uniq_push_strlist` keeps first occurrences. -/
theorem uniqPush_firsts {l list : List Str} (h : Firsts l list) (str : Str) :
    Firsts (l ++ [str]) (uniqPush list str) := by
  unfold uniqPush
  split
  · rename_i hs
    exact h.old hs
  · rename_i hs
    exact h.new hs

theorem mem_splitCommaLoop {s : Str} : ∀ (k : Nat) (head : Str) (list : List Str),
    head.length ≤ k →
      (s ∈ splitCommaLoop k head list ↔ s ∈ list ∨ s ∈ head.splitOn (ch ','))
  | 0, head, list, hk => by
    obtain rfl : head = [] := List.eq_nil_of_length_eq_zero (by omega)
    simp [splitCommaLoop, mem_uniqPush]
  | k + 1, head, list, hk => by
    unfold splitCommaLoop
    cases hs : strchr head (ch ',') with
    | none =>
      have := List.splitOn_eq_singleton (strchr_eq_none.1 hs)
      simp [mem_uniqPush, this]
    | some e =>
      obtain ⟨r, rfl, hr⟩ := strchr_eq_some hs
      have hlen : r.length ≤ k := by
        have := congrArg List.length hr
        simp at this; omega
      simp only [List.tail_cons]
      rw [mem_splitCommaLoop k r _ hlen, mem_uniqPush, hr,
        List.splitOn_append_cons_self_of_not_mem (notMem_before head _), ← hr, List.mem_cons]
      exact or_assoc

/-- **`split_comma` yields the text's comma-separated pieces.** -/
theorem mem_splitComma {s str : Str} : s ∈ splitComma str ↔ s ∈ str.splitOn (ch ',') := by
  simp [splitComma, mem_splitCommaLoop str.length str [] (Nat.le_refl _)]

end Messasy
