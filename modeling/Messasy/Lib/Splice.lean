import Messasy.Lib.Chain

/-!
# Searching and changing a list in place

`seek` walks a list with a second pointer that trails behind it, and `splice` stores a pointer in
the node where the trailing pointer stands, or in the head when it has not moved. Behind the nodes
`pre` this replaces the rest of the list (`Chain.splice_eq`): by the rest without its first node,
which takes this node out (`Chain.unlink_eq`), or by a new node (`Chain.append_eq`).
-/

namespace Lib

variable {α : Type}

/-- The trailing pointer and the pointer where the search stops, NULL when no node is found. -/
def seek (found : α → Bool) : Nat → Arena (Node α) → Option Nat → Option Nat →
    Option (Option Nat × Option Nat)
  | _, _, old, none => some (old, none)
  | 0, _, _, some _ => none
  | k + 1, h, old, some p =>
    (h.cell p).bind fun n =>
      if found n.data then some (old, some p) else seek found k h (some p) n.next

/-- Store `q` behind the node at `old`. -/
def splice (h : Arena (Node α)) (head old q : Option Nat) : Option (Arena (Node α) × Option Nat) :=
  match old with
  | none => some (h, q)
  | some o => (h.cell o).map fun n => (h.put o { n with next := q }, head)

/-- The trailing pointer behind these nodes. -/
def lastId (old : Option Nat) : List (Nat × α) → Option Nat
  | [] => old
  | x :: l => lastId (some x.1) l

namespace Chain

variable {h : Arena (Node α)} {found : α → Bool} {p head q : Option Nat} {x : Nat × α}
  {pre post rest rest' l : List (Nat × α)}

theorem seek_found : ∀ {pre : List (Nat × α)} {k : Nat} {old p : Option Nat},
    Chain h p (pre ++ x :: post) → (∀ y ∈ pre, found y.2 = false) → found x.2 = true →
      pre.length < k → seek found k h old p = some (lastId old pre, some x.1)
  | [], k + 1, old, _, ⟨rfl, nx, hcx, _⟩, _, hx, _ => by
    simp only [seek, hcx, Option.bind_some, hx, if_true, lastId]
  | y :: pre, k + 1, old, _, ⟨rfl, ny, hcy, hl⟩, hpre, hx, hk => by
    have hy : found y.2 = false := hpre y List.mem_cons_self
    simp only [seek, hcy, Option.bind_some, hy, Bool.false_eq_true, if_false, lastId]
    exact seek_found hl (fun z hz => hpre z (List.mem_cons_of_mem y hz)) hx
      (Nat.lt_of_succ_lt_succ hk)

theorem seek_none : ∀ {l : List (Nat × α)} {k : Nat} {old p : Option Nat},
    Chain h p l → (∀ y ∈ l, found y.2 = false) → l.length ≤ k →
      seek found k h old p = some (lastId old l, none)
  | [], k, old, _, hc, _, _ => by
    cases hc
    cases k <;> rfl
  | y :: l, k + 1, old, _, ⟨rfl, ny, hcy, hl⟩, hno, hk => by
    have hy : found y.2 = false := hno y List.mem_cons_self
    simp only [seek, hcy, Option.bind_some, hy, Bool.false_eq_true, if_false, lastId]
    exact seek_none hl (fun z hz => hno z (List.mem_cons_of_mem y hz)) (Nat.le_of_succ_le_succ hk)

/-- The last of the nodes in front takes the pointer. -/
theorem put_next : ∀ {pre : List (Nat × α)} {x : Nat × α} {p : Option Nat},
    Chain h p (x :: pre ++ rest) → Chain h q rest' → (∀ r ∈ ids (x :: pre), r ∉ ids rest') →
      ∃ o n, lastId (some x.1) pre = some o ∧ o ∈ ids (x :: pre) ∧ h.cell o = some n ∧
        Chain (h.put o { n with next := q }) p (x :: pre ++ rest')
  | [], x, _, ⟨hp, nx, hcx, _⟩, hq, hnot => by
    refine ⟨x.1, ⟨x.2, nx⟩, rfl, List.mem_cons_self, hcx, hp, q, Arena.cell_put_self hcx, ?_⟩
    apply hq.frame
    intro r hr
    exact Arena.cell_put_of_ne fun he => hnot x.1 List.mem_cons_self (he ▸ hr)
  | y :: pre, x, _, hc, hq, hnot => by
    have hnd := hc.nodup
    obtain ⟨hp, nx, hcx, hl⟩ := hc
    obtain ⟨o, n, ho, hmem, hcell, hchain⟩ :=
      put_next hl hq fun r hr => hnot r (List.mem_cons_of_mem x.1 hr)
    refine ⟨o, n, ho, List.mem_cons_of_mem _ hmem, hcell, hp, nx, ?_, hchain⟩
    have hne : x.1 ≠ o := by
      intro he
      apply (List.nodup_cons.1 hnd).1
      show x.1 ∈ ids (y :: pre ++ rest)
      rw [ids_append, List.mem_append, he]
      exact .inl hmem
    rw [Arena.cell_put_of_ne hne, hcx]

/-- **`splice`** behind the nodes `pre`: only they are written. -/
theorem splice_eq (hc : Chain h head (pre ++ rest)) (hq : Chain h q rest')
    (hnot : ∀ r ∈ ids pre, r ∉ ids rest') :
    ∃ h' head', splice h head (lastId none pre) q = some (h', head') ∧
      Chain h' head' (pre ++ rest') ∧ h'.next = h.next ∧ ∀ r ∉ ids pre, h'.cell r = h.cell r := by
  cases pre with
  | nil => exact ⟨h, q, rfl, hq, rfl, fun r _ => rfl⟩
  | cons x pre =>
    obtain ⟨o, n, ho, hmem, hcell, hchain⟩ := put_next hc hq hnot
    refine ⟨h.put o { n with next := q }, head, ?_, hchain, rfl, fun r hr => ?_⟩
    · simp only [lastId, ho, splice, hcell, Option.map_some]
    · exact Arena.cell_put_of_ne fun he => hr (he ▸ hmem)

/-- Two parts of a chain have no node in common. -/
theorem disjoint (hc : Chain h p (pre ++ rest)) : ∀ r ∈ ids pre, r ∉ ids rest := by
  have hnd := hc.nodup
  rw [ids_append] at hnd
  exact fun r hr hr' => (List.nodup_append.1 hnd).2.2 r hr r hr' rfl

/-- **Unlinking** a node, wherever it stands, and releasing it. -/
theorem unlink_eq (hc : Chain h head (pre ++ x :: post)) :
    ∃ n h' head', h.cell x.1 = some n ∧ n.data = x.2 ∧
      splice h head (lastId none pre) n.next = some (h', head') ∧
      h'.cell x.1 = h.cell x.1 ∧ h'.next = h.next ∧
      Chain (h'.drop x.1) head' (pre ++ post) := by
  obtain ⟨s, hs⟩ : ∃ s, Chain h s (x :: post) := hc.drop_append
  have hxs := hs.nodup
  obtain ⟨-, nx, hcx, hpost⟩ := hs
  have hnot := hc.disjoint
  obtain ⟨h', head', hsplice, hchain, hnext, hsame⟩ := splice_eq hc hpost
    fun r hr hr' => hnot r hr (List.mem_cons_of_mem x.1 hr')
  have hxpre : x.1 ∉ ids pre := fun hm => hnot x.1 hm List.mem_cons_self
  have hxpost : x.1 ∉ ids post := (List.nodup_cons.1 hxs).1
  refine ⟨⟨x.2, nx⟩, h', head', hcx, rfl, hsplice, hsame x.1 hxpre, hnext, hchain.frame ?_⟩
  intro r hr
  apply Arena.cell_drop_of_ne
  rintro rfl
  rw [ids_append, List.mem_append] at hr
  exact hr.elim hxpre hxpost

/-- **Appending** a new node. -/
theorem append_eq (hc : Chain h head l) (a : α) :
    ∃ h' head', splice (h.alloc ⟨a, none⟩) head (lastId none l) (some h.next) = some (h', head') ∧
      Chain h' head' (l ++ [(h.next, a)]) := by
  have hold : Chain (h.alloc ⟨a, none⟩) head (l ++ []) := by
    rw [List.append_nil]
    exact hc.frame fun r hr => Arena.cell_alloc_of_lt (hc.id_lt r hr)
  have hnew : Chain (h.alloc ⟨a, none⟩) (some h.next) [(h.next, a)] :=
    ⟨rfl, none, h.cell_alloc_self _, rfl⟩
  have hnot : ∀ r ∈ ids l, r ∉ ids [(h.next, a)] := by
    intro r hr hr'
    rw [List.mem_singleton.1 hr'] at hr
    exact Nat.lt_irrefl _ (hc.id_lt _ hr)
  obtain ⟨h', head', hsplice, hchain, -, -⟩ := splice_eq hold hnew hnot
  exact ⟨h', head', hsplice, hchain⟩

/-- Storing other data in a node. -/
theorem put_data : ∀ {pre : List (Nat × α)} {p : Option Nat} {n : Node α},
    Chain h p (pre ++ x :: post) → h.cell x.1 = some n → ∀ d : α,
      Chain (h.put x.1 { n with data := d }) p (pre ++ (x.1, d) :: post)
  | [], _, n, hc, hn, d => by
    have hnd := hc.nodup
    obtain ⟨hp, nx, hcx, hl⟩ := hc
    rw [hcx, Option.some.injEq] at hn
    subst hn
    refine ⟨hp, nx, Arena.cell_put_self hcx, hl.frame fun r hr => ?_⟩
    apply Arena.cell_put_of_ne
    rintro rfl
    exact (List.nodup_cons.1 hnd).1 hr
  | y :: pre, _, n, hc, hn, d => by
    have hnd := hc.nodup
    obtain ⟨hp, ny, hcy, hl⟩ := hc
    refine ⟨hp, ny, ?_, put_data hl hn d⟩
    have hne : y.1 ≠ x.1 := by
      intro he
      apply (List.nodup_cons.1 hnd).1
      show y.1 ∈ ids (pre ++ x :: post)
      rw [he, ids_append, List.mem_append]
      exact .inr List.mem_cons_self
    rw [Arena.cell_put_of_ne hne, hcy]

end Chain

end Lib
