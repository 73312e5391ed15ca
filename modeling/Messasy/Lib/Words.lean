import Mathlib.Data.List.TakeWhile

/-!
# Words between separators

`p` says which elements separate words. `words` are the words of a list. `firstWord` cuts a list
behind its first word; each of its results is one form of the list, and each form has that result.
-/

namespace Lib

section
variable {α : Type} {p : α → Bool} {s b w r : List α} {c : α}

/-- Separators only. -/
def Blank (p : α → Bool) (s : List α) : Prop := ∀ c ∈ s, p c = true

/-- A text without a separator. -/
structure Word (p : α → Bool) (w : List α) : Prop where
  ne_nil : w ≠ []
  plain : ∀ c ∈ w, p c = false

/-- The first word, and the rest behind the separator that ends it, if one does. -/
def firstWord (p : α → Bool) (s : List α) : Option (List α × Option (List α)) :=
  match s.dropWhile p with
  | [] => none
  | c :: t => some ((c :: t).takeWhile (!p ·), ((c :: t).dropWhile (!p ·)).tail?)

/-- The words: what stands between separators, without the empty pieces. -/
def words (p : α → Bool) (s : List α) : List (List α) := (s.splitOnP p).filter (!·.isEmpty)

/-- The texts that end right before a separator, the shortest first. -/
def cuts (p : α → Bool) : List α → List (List α)
  | [] => []
  | c :: s => if p c then [] :: (cuts p s).map (c :: ·) else (cuts p s).map (c :: ·)

theorem Blank.nil : Blank p [] := fun c hc => by cases hc

theorem Word.takeWhile (h : Word p w) (r : List α) (hr : ∀ c t, r = c :: t → p c = true) :
    (w ++ r).takeWhile (!p ·) = w ∧ (w ++ r).dropWhile (!p ·) = r := by
  have hw : ∀ c ∈ w, (!p c) = true := fun c hc => by rw [h.plain c hc]; rfl
  cases r with
  | nil =>
    rw [List.takeWhile_append_of_pos hw, List.dropWhile_append_of_pos hw]
    exact ⟨List.append_nil w, rfl⟩
  | cons c t =>
    have hc : ¬ (!p c) = true := by simp [hr c t rfl]
    rw [List.takeWhile_append_of_pos hw, List.dropWhile_append_of_pos hw]
    simp only [List.takeWhile_cons, List.dropWhile_cons, if_neg hc, List.append_nil, and_self]

/-- A word behind separators is the first one. -/
theorem Word.firstWord (hb : Blank p b) (h : Word p w) (r : List α)
    (hr : ∀ c t, r = c :: t → p c = true) :
    firstWord p (b ++ (w ++ r)) = some (w, r.tail?) := by
  obtain ⟨ht, hd⟩ := h.takeWhile r hr
  have hdrop : (b ++ (w ++ r)).dropWhile p = w ++ r := by
    rw [List.dropWhile_append_of_pos hb]
    obtain ⟨d, u, rfl⟩ := List.exists_cons_of_ne_nil h.ne_nil
    exact List.dropWhile_cons_of_neg (by simp [h.plain d List.mem_cons_self])
  obtain ⟨d, u, hw⟩ := List.exists_cons_of_ne_nil h.ne_nil
  have hcons : w ++ r = d :: (u ++ r) := by rw [hw, List.cons_append]
  unfold Lib.firstWord
  rw [hdrop, hcons]
  simp only
  rw [← hcons, ht, hd]

/-- The forms of a list. -/
theorem words_cases (p : α → Bool) (s : List α) :
    Blank p s ∨ ∃ b w r, s = b ++ (w ++ r) ∧ Blank p b ∧ Word p w ∧
      ∀ c t, r = c :: t → p c = true := by
  have hs := List.takeWhile_append_dropWhile (p := p) (l := s)
  cases hd : s.dropWhile p with
  | nil => exact .inl (List.dropWhile_eq_nil_iff.1 hd)
  | cons c t =>
    rw [hd] at hs
    have hc : p c = false := by
      have hhead := List.head_dropWhile_not p (l := s) (by rw [hd]; exact List.cons_ne_nil c t)
      simpa [hd] using hhead
    refine .inr ⟨s.takeWhile p, (c :: t).takeWhile (!p ·), (c :: t).dropWhile (!p ·), ?_, ?_,
      ⟨?_, ?_⟩, ?_⟩
    · rw [List.takeWhile_append_dropWhile, hs]
    · exact fun d hd => List.mem_takeWhile_imp hd
    · rw [List.takeWhile_cons_of_pos (by simp [hc])]
      exact List.cons_ne_nil _ _
    · intro d hd
      simpa using List.mem_takeWhile_imp hd
    · intro d u hdrop
      have hne : (c :: t).dropWhile (!p ·) ≠ [] := by rw [hdrop]; exact List.cons_ne_nil _ _
      have hhead := List.head_dropWhile_not (!p ·) (l := c :: t) hne
      simpa [hdrop] using hhead

theorem firstWord_none : firstWord p s = none ↔ Blank p s := by
  unfold firstWord
  constructor
  · intro h
    split at h
    · exact List.dropWhile_eq_nil_iff.1 ‹_›
    · cases h
  · intro h
    rw [List.dropWhile_eq_nil_iff.2 h]

theorem firstWord_last : firstWord p s = some (w, none) ↔
    ∃ b, s = b ++ w ∧ Blank p b ∧ Word p w := by
  constructor
  · intro h
    rcases words_cases p s with hb | ⟨b, w', r, rfl, hb, hw, hr⟩
    · rw [firstWord_none.2 hb] at h
      cases h
    · rw [hw.firstWord hb r hr] at h
      cases r with
      | nil =>
        obtain rfl : w' = w := by simpa using h
        exact ⟨b, by rw [List.append_nil], hb, hw⟩
      | cons c t => simp at h
  · rintro ⟨b, rfl, hb, hw⟩
    have h := hw.firstWord hb [] fun c t h => by cases h
    rwa [List.append_nil] at h

theorem firstWord_some : firstWord p s = some (w, some r) ↔
    ∃ b c, s = b ++ (w ++ c :: r) ∧ Blank p b ∧ Word p w ∧ p c = true := by
  constructor
  · intro h
    rcases words_cases p s with hb | ⟨b, w', r', rfl, hb, hw, hr⟩
    · rw [firstWord_none.2 hb] at h
      cases h
    · rw [hw.firstWord hb r' hr] at h
      cases r' with
      | nil => simp at h
      | cons c t =>
        obtain ⟨rfl, rfl⟩ : w' = w ∧ t = r := by simpa using h
        exact ⟨b, c, rfl, hb, hw, hr c t rfl⟩
  · rintro ⟨b, c, rfl, hb, hw, hc⟩
    exact hw.firstWord hb (c :: r) fun d t h => by cases h; exact hc

/-! ## All words -/

theorem words_cons_of_pos (hc : p c = true) (s : List α) : words p (c :: s) = words p s := by
  rw [words, List.splitOnP_cons_eq_if_modifyHead, if_pos hc]
  rfl

theorem Blank.words_append (h : Blank p b) (s : List α) : words p (b ++ s) = words p s := by
  induction b with
  | nil => rfl
  | cons c b ih =>
    rw [List.cons_append, words_cons_of_pos (h c List.mem_cons_self)]
    exact ih fun d hd => h d (List.mem_cons_of_mem c hd)

/-- The separators in front change no word. -/
theorem words_dropWhile (p : α → Bool) (s : List α) : words p (s.dropWhile p) = words p s := by
  have hblank : Blank p (s.takeWhile p) := fun _ hc => List.mem_takeWhile_imp hc
  rw [← hblank.words_append (s.dropWhile p), List.takeWhile_append_dropWhile]

theorem Word.words_append (h : Word p w) (hc : p c = true) (r : List α) :
    words p (w ++ c :: r) = w :: words p r := by
  obtain ⟨d, u, rfl⟩ := List.exists_cons_of_ne_nil h.ne_nil
  rw [words, List.splitOnP_append_cons_of_forall_mem h.plain c hc]
  rfl

theorem Word.words_eq (h : Word p w) : words p w = [w] := by
  obtain ⟨d, u, rfl⟩ := List.exists_cons_of_ne_nil h.ne_nil
  rw [words, List.splitOnP_eq_singleton h.plain]
  rfl

/-- The words are the first word and the words behind it. -/
theorem words_eq_firstWord (p : α → Bool) (s : List α) : words p s = match firstWord p s with
    | none => []
    | some (w, none) => [w]
    | some (w, some r) => w :: words p r := by
  cases hf : firstWord p s with
  | none =>
    have hs := (firstWord_none.1 hf).words_append []
    rwa [List.append_nil] at hs
  | some x =>
    obtain ⟨w, _ | r⟩ := x
    · obtain ⟨b, rfl, hb, hw⟩ := firstWord_last.1 hf
      rw [hb.words_append, hw.words_eq]
    · obtain ⟨b, c, rfl, hb, hw, hc⟩ := firstWord_some.1 hf
      rw [hb.words_append, hw.words_append hc]

theorem words_eq_nil : words p s = [] ↔ Blank p s := by
  rw [← firstWord_none, words_eq_firstWord]
  cases firstWord p s with
  | none => simp
  | some x =>
    obtain ⟨w, _ | r⟩ := x <;> simp

/-! ## Cuts -/

theorem mem_cuts {u : List α} : u ∈ cuts p s ↔ ∃ c t, s = u ++ c :: t ∧ p c = true := by
  induction s generalizing u with
  | nil => simp [cuts]
  | cons d s ih =>
    have htail : u ∈ (cuts p s).map (d :: ·) ↔ ∃ v c t, u = d :: v ∧ s = v ++ c :: t ∧ p c = true := by
      rw [List.mem_map]
      constructor
      · rintro ⟨v, hv, rfl⟩
        obtain ⟨c, t, rfl, hc⟩ := ih.1 hv
        exact ⟨v, c, t, rfl, rfl, hc⟩
      · rintro ⟨v, c, t, rfl, hs, hc⟩
        exact ⟨v, ih.2 ⟨c, t, hs, hc⟩, rfl⟩
    constructor
    · intro h
      have h : u = [] ∧ p d = true ∨ u ∈ (cuts p s).map (d :: ·) := by
        unfold cuts at h
        split at h
        · exact (List.mem_cons.1 h).imp_left fun hu => ⟨hu, ‹_›⟩
        · exact .inr h
      rcases h with ⟨rfl, hd⟩ | h
      · exact ⟨d, s, rfl, hd⟩
      · obtain ⟨v, c, t, rfl, rfl, hc⟩ := htail.1 h
        exact ⟨c, t, rfl, hc⟩
    · rintro ⟨c, t, hs, hc⟩
      unfold cuts
      cases u with
      | nil =>
        obtain ⟨rfl, rfl⟩ := List.cons.inj hs
        rw [if_pos hc]
        exact List.mem_cons_self
      | cons e v =>
        obtain ⟨rfl, rfl⟩ := List.cons.inj hs
        have hmem := htail.2 ⟨v, c, t, rfl, rfl, hc⟩
        split
        · exact List.mem_cons_of_mem _ hmem
        · exact hmem

theorem cuts_pairwise (p : α → Bool) (s : List α) :
    (cuts p s).Pairwise fun u v => u.length < v.length := by
  induction s with
  | nil => exact .nil
  | cons c s ih =>
    have htail : ((cuts p s).map (c :: ·)).Pairwise fun u v => u.length < v.length :=
      List.pairwise_map.2 (ih.imp fun h => Nat.succ_lt_succ h)
    unfold cuts
    split
    · refine List.pairwise_cons.2 ⟨fun u hu => ?_, htail⟩
      obtain ⟨v, -, rfl⟩ := List.mem_map.1 hu
      exact Nat.succ_pos _
    · exact htail

theorem cuts_eq_nil (h : ∀ c ∈ s, p c = false) : cuts p s = [] := by
  rw [List.eq_nil_iff_forall_not_mem]
  intro u hu
  obtain ⟨c, t, rfl, hc⟩ := mem_cuts.1 hu
  rw [h c (by simp)] at hc
  cases hc

/-- The first cut, and those behind it. -/
theorem cuts_append (hw : ∀ c ∈ w, p c = false) (hc : p c = true) (r : List α) :
    cuts p (w ++ c :: r) = w :: (cuts p r).map fun u => w ++ c :: u := by
  induction w with
  | nil =>
    rw [List.nil_append, cuts, if_pos hc]
    rfl
  | cons d w ih =>
    have hd : ¬ p d = true := by simp [hw d List.mem_cons_self]
    rw [List.cons_append, cuts, if_neg hd, ih fun e he => hw e (List.mem_cons_of_mem d he),
      List.map_cons, List.map_map]
    rfl

end

end Lib
