/-!
# Folds over keyed items

A fold whose steps with different keys commute depends on the items of each key and their order
alone (`foldl_congr_of_keys`): how items of different keys stand to each other does not matter.
-/

namespace Lib

section
variable {α κ σ : Type} {f : σ → α → σ} {key : α → κ}

/-- Two steps with different keys may change places. -/
def KeysCommute (f : σ → α → σ) (key : α → κ) : Prop :=
  ∀ s a b, key a ≠ key b → f (f s a) b = f (f s b) a

/-- A step moves behind a list without its key. -/
theorem KeysCommute.foldl_step (h : KeysCommute f key) (a : α) : ∀ (l : List α) (s : σ),
    (∀ b ∈ l, key b ≠ key a) → l.foldl f (f s a) = f (l.foldl f s) a
  | [], _, _ => rfl
  | b :: l, s, hl => by
    have hb : key a ≠ key b := (hl b List.mem_cons_self).symm
    rw [List.foldl_cons, List.foldl_cons, h s a b hb]
    exact h.foldl_step a l (f s b) fun c hc => hl c (List.mem_cons_of_mem b hc)

/-- The first item of a key may as well come first. -/
theorem KeysCommute.foldl_first (h : KeysCommute f key) {a : α} {l m : List α}
    (hl : ∀ b ∈ l, key b ≠ key a) (s : σ) :
    (l ++ a :: m).foldl f s = (a :: (l ++ m)).foldl f s := by
  rw [List.foldl_append, List.foldl_cons, List.foldl_cons, List.foldl_append,
    h.foldl_step a l s hl]

variable [DecidableEq κ]

/-- **The items of each key** decide what the fold comes to. -/
theorem foldl_congr_of_keys (h : KeysCommute f key) : ∀ (l m : List α) (s : σ),
    (∀ k, l.filter (key · = k) = m.filter (key · = k)) → l.foldl f s = m.foldl f s
  | [], m, _, hkeys => by
    cases m with
    | nil => rfl
    | cons a m =>
      have ha := hkeys (key a)
      rw [List.filter_nil, List.filter_cons_of_pos (by simp)] at ha
      cases ha
  | a :: l, m, s, hkeys => by
    have ha := (hkeys (key a)).symm
    rw [List.filter_cons_of_pos (by simp)] at ha
    obtain ⟨p, q, rfl, hp, -, hq⟩ := List.filter_eq_cons_iff.1 ha
    have hne : ∀ b ∈ p, key b ≠ key a := fun b hb => by simpa using hp b hb
    rw [h.foldl_first hne, List.foldl_cons, List.foldl_cons]
    apply foldl_congr_of_keys h l (p ++ q)
    intro k
    have hk := hkeys k
    rw [List.filter_append] at hk ⊢
    by_cases hak : key a = k
    · subst hak
      rw [List.filter_eq_nil_iff.2 hp, List.nil_append, hq]
    · rw [List.filter_cons_of_neg (by simpa using hak),
        List.filter_cons_of_neg (by simpa using hak)] at hk
      exact hk

end

end Lib
