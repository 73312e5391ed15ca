import Messasy.Lib.Arena
import Mathlib.Data.List.Perm.Subperm

/-!
# Singly linked lists in an arena

`Chain h p l`: following `next` from `p` visits exactly the nodes `l` (address and data) and ends
in NULL. `Queue h head tail l` adds a tail pointer, which is only meaningful while the list is not
empty. `link` appends a node to a head/tail pair, `release` walks a list and frees every node of
it, `contents` reads it. Loops take the number of addresses handed out so far as their bound: a
chain has no more nodes (`Chain.length_le`).
-/

namespace Lib

structure Node (α : Type) where
  data : α
  next : Option Nat

variable {α : Type}

/-- The nodes reached from `p`, in order, up to NULL. -/
def Chain (h : Arena (Node α)) : Option Nat → List (Nat × α) → Prop
  | p, [] => p = none
  | p, x :: l => p = some x.1 ∧ ∃ nx, h.cell x.1 = some ⟨x.2, nx⟩ ∧ Chain h nx l

/-- The addresses of a list of nodes. -/
def ids (l : List (Nat × α)) : List Nat := l.map (·.1)

/-- The data of a list of nodes. -/
def vals (l : List (Nat × α)) : List α := l.map (·.2)

@[simp] theorem ids_nil : ids ([] : List (Nat × α)) = [] := rfl

@[simp] theorem ids_cons (x : Nat × α) (l) : ids (x :: l) = x.1 :: ids l := rfl

@[simp] theorem ids_append (l m : List (Nat × α)) : ids (l ++ m) = ids l ++ ids m :=
  List.map_append

@[simp] theorem vals_nil : vals ([] : List (Nat × α)) = [] := rfl

@[simp] theorem vals_cons (x : Nat × α) (l) : vals (x :: l) = x.2 :: vals l := rfl

@[simp] theorem vals_append (l m : List (Nat × α)) : vals (l ++ m) = vals l ++ vals m :=
  List.map_append

namespace Chain

variable {h h' : Arena (Node α)}

theorem nil (h : Arena (Node α)) : Chain h none [] := rfl

theorem eq_nil {l : List (Nat × α)} (hc : Chain h none l) : l = [] := by
  cases l with
  | nil => rfl
  | cons x l => exact absurd hc.1 (by simp)

/-- Two chains from one pointer are the same. -/
theorem unique : ∀ {l m : List (Nat × α)} {p : Option Nat}, Chain h p l → Chain h p m → l = m
  | [], m, _, hl, hm => by
    cases hl
    exact (eq_nil hm).symm
  | x :: l, [], _, hl, hm => by cases hm; exact absurd hl.1 (by simp)
  | x :: l, y :: m, _, ⟨hx, nx, hcx, hl⟩, ⟨hy, ny, hcy, hm⟩ => by
    have e : x.1 = y.1 := by rw [hx] at hy; exact Option.some.inj hy
    rw [← e, hcx] at hcy
    simp only [Option.some.injEq, Node.mk.injEq] at hcy
    obtain ⟨e2, rfl⟩ := hcy
    rw [unique hl hm, show x = y from Prod.ext e e2]

theorem live : ∀ {l : List (Nat × α)} {p : Option Nat}, Chain h p l →
    ∀ x ∈ l, ∃ nx, h.cell x.1 = some ⟨x.2, nx⟩
  | [], _, _ => by simp
  | y :: l, _, ⟨_, ny, hcy, hl⟩ => by
    intro x hx
    rcases List.mem_cons.1 hx with rfl | hx
    · exact ⟨ny, hcy⟩
    · exact hl.live x hx

theorem id_lt {l : List (Nat × α)} {p : Option Nat} (hc : Chain h p l) : ∀ q ∈ ids l, q < h.next := by
  intro q hq
  obtain ⟨x, hx, rfl⟩ := List.mem_map.1 hq
  obtain ⟨nx, hcx⟩ := hc.live x hx
  exact Arena.lt_next hcx

/-- A chain that splits is a chain from the pointer at the split on. -/
theorem drop_append : ∀ {l m : List (Nat × α)} {p : Option Nat}, Chain h p (l ++ m) →
    ∃ q, Chain h q m
  | [], _, p, hc => ⟨p, hc⟩
  | _ :: _, _, _, ⟨_, _, _, hl⟩ => drop_append hl

/-- No node is visited twice: the chain from it would be its own proper part. -/
theorem nodup : ∀ {l : List (Nat × α)} {p : Option Nat}, Chain h p l → (ids l).Nodup
  | [], _, _ => List.nodup_nil
  | x :: l, p, hc => by
    obtain ⟨hx, nx, hcx, hl⟩ := hc
    refine List.nodup_cons.2 ⟨fun hm => ?_, nodup hl⟩
    obtain ⟨y, hy, hyx⟩ := List.mem_map.1 hm
    obtain ⟨l1, l2, rfl⟩ := List.append_of_mem hy
    obtain ⟨q, hq⟩ := drop_append hl
    obtain rfl : q = some x.1 := by rw [hq.1]; exact congrArg some hyx
    have he : y :: l2 = x :: (l1 ++ y :: l2) :=
      unique hq (show Chain h (some x.1) (x :: (l1 ++ y :: l2)) from ⟨rfl, nx, hcx, hl⟩)
    have := congrArg List.length he
    simp at this
    omega

theorem length_le {l : List (Nat × α)} {p : Option Nat} (hc : Chain h p l) :
    l.length ≤ h.next := by
  have hs : ids l ⊆ List.range h.next := fun q hq => List.mem_range.2 (hc.id_lt q hq)
  have := (List.subperm_of_subset hc.nodup hs).length_le
  simpa [ids] using this

/-- **Frame**: a chain only depends on its own cells. -/
theorem frame : ∀ {l : List (Nat × α)} {p : Option Nat}, Chain h p l →
    (∀ q ∈ ids l, h'.cell q = h.cell q) → Chain h' p l
  | [], _, hc, _ => hc
  | x :: l, _, ⟨hx, nx, hcx, hl⟩, hf =>
    ⟨hx, nx, by rw [hf _ List.mem_cons_self, hcx],
      hl.frame fun q hq => hf q (List.mem_cons_of_mem _ hq)⟩

end Chain

/-! ## Walking a list -/

/-- The data of the list at `p`; undefined when a dead node is reached. -/
def contents : Nat → Arena (Node α) → Option Nat → Option (List α)
  | _, _, none => some []
  | 0, _, some _ => none
  | k + 1, h, some p =>
    match h.cell p with
    | none => none
    | some n => (contents k h n.next).map (n.data :: ·)

/-- Release every node of the list at `p`. -/
def release : Nat → Arena (Node α) → Option Nat → Option (Arena (Node α))
  | _, h, none => some h
  | 0, _, some _ => none
  | k + 1, h, some p =>
    match h.cell p with
    | none => none
    | some n => release k (h.drop p) n.next

theorem Chain.contents_eq : ∀ {k : Nat} {h : Arena (Node α)} {l : List (Nat × α)} {p : Option Nat},
    Chain h p l → l.length ≤ k → contents k h p = some (vals l)
  | k, _, [], _, hc, _ => by cases hc; cases k <;> rfl
  | 0, _, _ :: _, _, _, hk => absurd hk (by simp)
  | k + 1, h, x :: l, _, ⟨hx, nx, hcx, hl⟩, hk => by
    subst hx
    simp only [contents, hcx, hl.contents_eq (Nat.le_of_succ_le_succ hk), Option.map_some,
      vals_cons]

/-- A list is released as a whole: its cells die and no other changes. -/
theorem Chain.release_eq : ∀ {k : Nat} {h : Arena (Node α)} {l : List (Nat × α)} {p : Option Nat},
    Chain h p l → l.length ≤ k → ∃ h', release k h p = some h' ∧ h'.next = h.next ∧
      (∀ q ∈ ids l, h'.cell q = none) ∧ ∀ q ∉ ids l, h'.cell q = h.cell q
  | k, h, [], _, hc, _ => by
    cases hc
    exact ⟨h, by cases k <;> rfl, rfl, by simp, fun _ _ => rfl⟩
  | 0, _, _ :: _, _, _, hk => absurd hk (by simp)
  | k + 1, h, x :: l, p, hc, hk => by
    have hnd := hc.nodup
    obtain ⟨hx, nx, hcx, hl⟩ := hc
    subst hx
    have hxl : x.1 ∉ ids l := (List.nodup_cons.1 hnd).1
    have hl' : Chain (h.drop x.1) nx l := hl.frame fun q hq =>
      Arena.cell_drop_of_ne fun e => hxl (e ▸ hq)
    obtain ⟨h', hr, hn, hdead, hsame⟩ := hl'.release_eq (Nat.le_of_succ_le_succ hk)
    refine ⟨h', by simp only [release, hcx, hr], hn, fun q hq => ?_, fun q hq => ?_⟩
    · rcases List.mem_cons.1 hq with rfl | hq
      · rw [hsame _ hxl]; simp
      · exact hdead q hq
    · simp only [ids_cons, List.mem_cons, not_or] at hq
      rw [hsame q hq.2, Arena.cell_drop_of_ne hq.1]

/-! ## Head and tail pointers -/

/-- A list held by a head and a tail pointer. -/
structure Queue (h : Arena (Node α)) (head tail : Option Nat) (l : List (Nat × α)) : Prop where
  chain : Chain h head l
  last : ∀ x, l.getLast? = some x → tail = some x.1

theorem Queue.nil (h : Arena (Node α)) (tail : Option Nat) : Queue h none tail [] :=
  ⟨rfl, by simp⟩

theorem Queue.frame {h h' : Arena (Node α)} {hd tl : Option Nat} {l : List (Nat × α)}
    (hq : Queue h hd tl l) (hf : ∀ q ∈ ids l, h'.cell q = h.cell q) : Queue h' hd tl l :=
  ⟨hq.chain.frame hf, hq.last⟩

/-- The queue behind its first node; the tail pointer stays. -/
theorem Queue.tail {h : Arena (Node α)} {hd tl : Option Nat} {x : Nat × α} {l : List (Nat × α)}
    (hq : Queue h hd tl (x :: l)) :
    hd = some x.1 ∧ ∃ nx, h.cell x.1 = some ⟨x.2, nx⟩ ∧ Queue h nx tl l := by
  obtain ⟨hx, nx, hcx, hl⟩ := hq.chain
  refine ⟨hx, nx, hcx, hl, fun y hy => hq.last y ?_⟩
  cases l with
  | nil => cases hy
  | cons z l => rwa [List.getLast?_cons_cons]

/-- Append the node at `q` to a head/tail pair: an empty list starts at it, whatever the tail
pointer holds. -/
def link (h : Arena (Node α)) (head tail : Option Nat) (q : Nat) :
    Option (Arena (Node α) × Option Nat × Option Nat) :=
  match head with
  | none => some (h, some q, some q)
  | some p =>
    match tail with
    | none => none
    | some t =>
      match h.cell t with
      | none => none
      | some n => some (h.put t { n with next := some q }, some p, some q)

/-- The chain after its last node's pointer is set to a node that ends a list. -/
theorem Chain.snoc {h : Arena (Node α)} {q : Nat} {a : α} (hcq : h.cell q = some ⟨a, none⟩) :
    ∀ {l : List (Nat × α)} {y : Nat × α} {p : Option Nat}, Chain h p (l ++ [y]) →
      q ∉ ids (l ++ [y]) → ∃ n, h.cell y.1 = some n ∧
        Chain (h.put y.1 { n with next := some q }) p (l ++ [y] ++ [(q, a)])
  | [], y, p, ⟨hy, nx, hcy, hl⟩, hnot => by
    cases hl
    refine ⟨_, hcy, hy, _, Arena.cell_put_self hcy, rfl, none, ?_, rfl⟩
    rw [Arena.cell_put_of_ne fun e => hnot (by simpa using e), hcq]
  | x :: l, y, p, hc, hnot => by
    have hnd := hc.nodup
    obtain ⟨hx, nx, hcx, hl⟩ := hc
    obtain ⟨n, hn, hs⟩ := Chain.snoc hcq hl fun hm => hnot (List.mem_cons_of_mem _ hm)
    refine ⟨n, hn, hx, nx, ?_, hs⟩
    have hxy : x.1 ≠ y.1 := fun e => (List.nodup_cons.1 hnd).1 (by simp [e])
    rw [Arena.cell_put_of_ne hxy, hcx]

/-- **`link`**: the queue grows by the node; only the old last cell is written. -/
theorem Queue.link_eq {h : Arena (Node α)} {hd tl : Option Nat} {l : List (Nat × α)} {q : Nat}
    {a : α} (hq : Queue h hd tl l) (hcq : h.cell q = some ⟨a, none⟩) (hnot : q ∉ ids l) :
    ∃ h' hd' tl', link h hd tl q = some (h', hd', tl') ∧ Queue h' hd' tl' (l ++ [(q, a)]) ∧
      h'.next = h.next ∧ ∀ r ∉ ids l, h'.cell r = h.cell r := by
  rcases List.eq_nil_or_concat' l with rfl | ⟨l, y, rfl⟩
  · cases hq.chain
    exact ⟨h, some q, some q, rfl, ⟨⟨rfl, none, hcq, rfl⟩, by simp⟩, rfl, fun _ _ => rfl⟩
  · obtain rfl : tl = some y.1 := hq.last y (by simp)
    obtain ⟨p, rfl⟩ : ∃ p, hd = some p := by
      cases l with
      | nil => exact ⟨_, hq.chain.1⟩
      | cons x l => exact ⟨_, hq.chain.1⟩
    obtain ⟨n, hn, hs⟩ := Chain.snoc hcq hq.chain hnot
    refine ⟨_, some p, some q, by simp only [link, hn], ⟨hs, by simp⟩, rfl, fun r hr => ?_⟩
    exact Arena.cell_put_of_ne fun e => hr (by simp [e])

end Lib
