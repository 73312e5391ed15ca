/-!
# First occurrences

`Firsts l firsts`: the entries of `l`, each once, in the order in which they first occur.
-/

namespace Lib

/-- `firsts` has the entries of `l`, each once, by their first occurrence. -/
structure Firsts {α : Type} [DecidableEq α] (l firsts : List α) : Prop where
  nodup : firsts.Nodup
  mem : ∀ a, a ∈ firsts ↔ a ∈ l
  order : firsts.Pairwise fun a b => l.idxOf a < l.idxOf b

section
variable {α : Type} [DecidableEq α] {l firsts : List α} {a : α}

theorem Firsts.nil : Firsts ([] : List α) [] := ⟨List.nodup_nil, fun _ => Iff.rfl, .nil⟩

theorem idxOf_append_of_mem {b : α} (h : b ∈ l) : (l ++ [a]).idxOf b = l.idxOf b := by
  rw [List.idxOf_append, if_pos h]

/-- The order does not change when the list grows. -/
theorem Firsts.order_append (h : Firsts l firsts) (a : α) :
    firsts.Pairwise fun b c => (l ++ [a]).idxOf b < (l ++ [a]).idxOf c := by
  refine List.Pairwise.imp_of_mem ?_ h.order
  intro b c hb hc hlt
  rwa [idxOf_append_of_mem ((h.mem b).1 hb), idxOf_append_of_mem ((h.mem c).1 hc)]

/-- An entry that has occurred. -/
theorem Firsts.old (h : Firsts l firsts) (ha : a ∈ firsts) : Firsts (l ++ [a]) firsts := by
  refine ⟨h.nodup, fun b => ?_, h.order_append a⟩
  rw [List.mem_append, List.mem_singleton, h.mem b]
  constructor
  · exact .inl
  · rintro (hb | rfl)
    · exact hb
    · exact (h.mem b).1 ha

/-- A new entry. -/
theorem Firsts.new (h : Firsts l firsts) (ha : a ∉ firsts) :
    Firsts (l ++ [a]) (firsts ++ [a]) := by
  refine ⟨?_, fun b => by simp [h.mem b], ?_⟩
  · refine List.nodup_append.2 ⟨h.nodup, by simp, fun b hb c hc => ?_⟩
    rw [List.mem_singleton] at hc
    rintro rfl
    exact ha (hc ▸ hb)
  · refine List.pairwise_append.2 ⟨h.order_append a, List.pairwise_singleton _ _, ?_⟩
    intro b hb c hc
    rw [List.mem_singleton] at hc
    subst hc
    have hl : c ∉ l := fun hc => ha ((h.mem c).2 hc)
    rw [idxOf_append_of_mem ((h.mem b).1 hb), List.idxOf_append, if_neg hl]
    have := List.idxOf_lt_length_of_mem ((h.mem b).1 hb)
    omega

end

end Lib
