import Messasy.Config.Store
import Mathlib.Data.Fintype.Card
import Mathlib.Algebra.Order.BigOperators.Group.Finset

/-!
# Who may touch a configuration

The part that a thread plays in the sharing of the configurations (`Role`), and the invariant
between the roles of all threads and the store (`Owned`): counters count the holders, a locked
mutex has one owner, and a configuration that is about to be freed is nobody else's. One lemma for
each thing that a thread can do says that the invariant is kept.
-/

namespace Messasy

open Lib

/-- What a thread may do with which configuration: the values of `cur_cfg` that it relies on, the
configuration whose counter includes it, the one whose mutex it has locked, the one it is about to
free, and, for a reload, the new configuration and the one that is being replaced. -/
structure Role where
  window : List Nat := []
  owes : Option Nat := none
  locks : Option Nat := none
  frees : Option Nat := none
  fresh : Option Nat := none
  old : Option Nat := none

/-- The thread may still touch `p`. -/
def Role.refs (r : Role) (p : Nat) : Prop :=
  p ∈ r.window ∨ r.owes = some p ∨ r.locks = some p ∨ r.frees = some p ∨ r.fresh = some p ∨
    r.old = some p

namespace Role
variable {r : Role} {p : Nat}

/-! A thread whose part changes in one place may touch what it finds there, and what it could touch
before. -/

theorem refs_window {w : List Nat} (h : ({ r with window := w } : Role).refs p) :
    p ∈ w ∨ r.refs p := by
  rcases h with h | h
  · exact .inl h
  · exact .inr (.inr h)

theorem refs_owes {o : Option Nat} (h : ({ r with owes := o } : Role).refs p) :
    o = some p ∨ r.refs p := by
  rcases h with h | h | h
  · exact .inr (.inl h)
  · exact .inl h
  · exact .inr (.inr (.inr h))

theorem refs_locks {l : Option Nat} (h : ({ r with locks := l } : Role).refs p) :
    l = some p ∨ r.refs p := by
  rcases h with h | h | h | h
  · exact .inr (.inl h)
  · exact .inr (.inr (.inl h))
  · exact .inl h
  · exact .inr (.inr (.inr (.inr h)))

theorem refs_not_old (h : ({ r with old := none } : Role).refs p) : r.refs p := by
  rcases h with h | h | h | h | h | h
  · exact .inl h
  · exact .inr (.inl h)
  · exact .inr (.inr (.inl h))
  · exact .inr (.inr (.inr (.inl h)))
  · exact .inr (.inr (.inr (.inr (.inl h))))
  · cases h

end Role

section
variable {T : Type} [Fintype T] [DecidableEq T]

/-- The number of threads that a configuration's counter includes. -/
def owing (ρ : T → Role) (p : Nat) : Nat := ∑ t, if (ρ t).owes = some p then 1 else 0

theorem owing_update (ρ : T → Role) (t : T) (r : Role) (p : Nat) :
    owing (Function.update ρ t r) p + (if (ρ t).owes = some p then 1 else 0) =
      owing ρ p + if r.owes = some p then 1 else 0 := by
  have h : ∀ y : Role, owing (Function.update ρ t y) p = (if y.owes = some p then 1 else 0) +
      ∑ t' ∈ Finset.univ.erase t, if (ρ t').owes = some p then 1 else 0 := fun y => by
    unfold owing
    rw [← Finset.add_sum_erase _ _ (Finset.mem_univ t), Function.update_self]
    congr 1
    refine Finset.sum_congr rfl fun t' ht' => ?_
    rw [Function.update_of_ne (Finset.ne_of_mem_erase ht')]
  have hself := h (ρ t)
  rw [Function.update_eq_self] at hself
  rw [h r, hself]
  omega

theorem owing_same {ρ : T → Role} {t : T} {r : Role} (h : r.owes = (ρ t).owes) (p : Nat) :
    owing (Function.update ρ t r) p = owing ρ p := by
  have := owing_update ρ t r p
  rw [h] at this
  omega

theorem owing_pos {ρ : T → Role} {t : T} {p : Nat} (h : (ρ t).owes = some p) : 0 < owing ρ p := by
  have := owing_update ρ t {} p
  simp only [h, if_true, reduceCtorEq, if_false] at this
  omega

/-- A thread is counted that was not. -/
theorem owing_gain {ρ : T → Role} {t : T} (h : (ρ t).owes = none) (p q : Nat) :
    owing (Function.update ρ t { ρ t with owes := some p }) q =
      owing ρ q + if q = p then 1 else 0 := by
  have hupdate := owing_update ρ t { ρ t with owes := some p } q
  simpa [h, eq_comm] using hupdate

/-- A thread is not counted any more. -/
theorem owing_lose {ρ : T → Role} {t : T} {p : Nat} (h : (ρ t).owes = some p) (q : Nat) :
    owing (Function.update ρ t { ρ t with owes := none }) q + (if q = p then 1 else 0) =
      owing ρ q := by
  have hupdate := owing_update ρ t { ρ t with owes := none } q
  simpa [h, eq_comm] using hupdate

/-- A thread's role fits the store; only the thread `m` reloads. -/
structure Fits (m : T) (s : Store T) (t : T) (r : Role) : Prop where
  window : ∀ p ∈ r.window, s.curCfg = some p
  mutex : ∀ p c, s.heap.cell p = some c → (r.locks = some p ↔ c.cfRefCountLock = some t)
  live : ∀ p, r.refs p → s.heap.cell p ≠ none
  fresh : ∀ p, r.fresh = some p → t = m ∧ s.curCfg ≠ some p ∧
    ∀ c, s.heap.cell p = some c → c.cfReloaded = false
  old : ∀ p, r.old = some p → t = m ∧ (s.curCfg = some p ↔ r.fresh ≠ none) ∧
    ∀ c, s.heap.cell p = some c → c.cfReloaded = false
  frees : ∀ p, r.frees = some p → s.curCfg ≠ some p ∧
    ∀ c, s.heap.cell p = some c → c.cfRefCount = 0

namespace Fits
variable {m t : T} {s s' : Store T} {r r' : Role} {p : Nat} {c c' : Cfg T}

omit [Fintype T] [DecidableEq T] in
/-- A thread that has no part in anything. -/
theorem idle (hlock : ∀ q d, s.heap.cell q = some d → d.cfRefCountLock ≠ some t) :
    Fits m s t {} where
  window _ hq := absurd hq List.not_mem_nil
  mutex q d hd := ⟨nofun, fun h => absurd h (hlock q d hd)⟩
  live q hq := by simp [Role.refs] at hq
  fresh _ hq := nomatch hq
  old _ hq := nomatch hq
  frees _ hq := nomatch hq

omit [Fintype T] [DecidableEq T] in
/-- The thread relies on the value of `cur_cfg`. -/
theorem withWindow (h : Fits m s t r) {w : List Nat} (hw : ∀ q ∈ w, s.curCfg = some q)
    (hlive : ∀ q, s.curCfg = some q → s.heap.cell q ≠ none) :
    Fits m s t { r with window := w } where
  window := hw
  mutex := h.mutex
  live q hq := (Role.refs_window hq).elim (fun hq => hlive q (hw q hq)) (h.live q)
  fresh := h.fresh
  old := h.old
  frees := h.frees

omit [Fintype T] [DecidableEq T] in
/-- The thread has a reference to a live configuration, or none. -/
theorem withOwes (h : Fits m s t r) {o : Option Nat}
    (hlive : ∀ q, o = some q → s.heap.cell q ≠ none) : Fits m s t { r with owes := o } where
  window := h.window
  mutex := h.mutex
  live q hq := (Role.refs_owes hq).elim (hlive q) (h.live q)
  fresh := h.fresh
  old := h.old
  frees := h.frees

omit [Fintype T] [DecidableEq T] in
/-- A configuration is written: the thread has its mutex or not, as is written there, marks none that
it is about to retire, and counts on none that it is about to free. -/
theorem put (h : Fits m s t r) (hp : s.heap.cell p = some c) (hwindow : r'.window = r.window)
    (hfresh : r'.fresh = r.fresh) (hold : ∀ q, r'.old = some q → r.old = some q)
    (hfrees : r'.frees = r.frees) (hrefs : ∀ q, r'.refs q → r.refs q)
    (hself : r'.locks = some p ↔ c'.cfRefCountLock = some t)
    (hlocks : ∀ q, q ≠ p → (r'.locks = some q ↔ r.locks = some q))
    (hmark : c'.cfReloaded = c.cfReloaded ∨ r.fresh = none ∧ r'.old = none)
    (hcount : c'.cfRefCount = c.cfRefCount ∨ r.frees = none) :
    Fits m { s with heap := s.heap.put p c' } t r' := by
  have hreload : ∀ q, r.fresh = some q ∨ r'.old = some q →
      (∀ d, s.heap.cell q = some d → d.cfReloaded = false) →
      ∀ d, (s.heap.put p c').cell q = some d → d.cfReloaded = false := fun q hq hr d hd => by
    rcases Arena.cell_put_cases hp hd with ⟨rfl, rfl⟩ | ⟨-, hd⟩
    · rcases hmark with hmark | ⟨hf, ho⟩
      · rw [hmark, hr c hp]
      · rw [hf, ho] at hq
        rcases hq with hq | hq <;> cases hq
    · exact hr d hd
  refine ⟨fun q hq => h.window q (hwindow ▸ hq), fun q d hd => ?_, fun q hq hnone => ?_,
    fun q hq => ?_, fun q hq => ?_, fun q hq => ?_⟩
  · rcases Arena.cell_put_cases hp hd with ⟨rfl, rfl⟩ | ⟨hne, hd⟩
    · exact hself
    · exact (hlocks q hne).trans (h.mutex q d hd)
  · exact h.live q (hrefs q hq) ((Arena.cell_put_eq_none hp).1 hnone)
  · obtain ⟨h1, h2, h3⟩ := h.fresh q (hfresh ▸ hq)
    exact ⟨h1, h2, hreload q (.inl (hfresh ▸ hq)) h3⟩
  · obtain ⟨h1, h2, h3⟩ := h.old q (hold q hq)
    rw [← hfresh] at h2
    exact ⟨h1, h2, hreload q (.inr hq) h3⟩
  · rw [hfrees] at hq
    obtain ⟨h1, h2⟩ := h.frees q hq
    refine ⟨h1, fun d hd => ?_⟩
    rcases Arena.cell_put_cases hp hd with ⟨rfl, rfl⟩ | ⟨-, hd⟩
    · rcases hcount with hcount | hnone
      · rw [hcount, h2 c hp]
      · cases hnone.symm.trans hq
    · exact h2 d hd

omit [Fintype T] [DecidableEq T] in
/-- `cur_cfg` changes, while the thread neither relies on its value nor reloads, and is not about to
free the new one. -/
theorem swap (h : Fits m s t r) {cur : Option Nat} (hwindow : r.window = [])
    (hfresh : r.fresh = none) (hold : r.old = none) (hfrees : ∀ q, r.frees = some q → cur ≠ some q) :
    Fits m { s with curCfg := cur } t r where
  window q hq := by simp [hwindow] at hq
  mutex := h.mutex
  live := h.live
  fresh q hq := by cases hfresh.symm.trans hq
  old q hq := by cases hold.symm.trans hq
  frees q hq := ⟨hfrees q hq, (h.frees q hq).2⟩

omit [Fintype T] [DecidableEq T] in
/-- Another configuration is freed. -/
theorem drop (h : Fits m s t r) (hp : ¬ r.refs p) (freed : List Nat) :
    Fits m { s with heap := s.heap.drop p, freed } t r := by
  have hcell : ∀ {q d}, (s.heap.drop p).cell q = some d → s.heap.cell q = some d :=
    fun hd => (Arena.cell_drop_cases hd).2
  refine ⟨h.window, fun q d hd => h.mutex q d (hcell hd), fun q hq => ?_, fun q hq => ?_,
    fun q hq => ?_, fun q hq => ?_⟩
  · have hne : q ≠ p := fun e => hp (e ▸ hq)
    rw [Arena.cell_drop_of_ne hne]
    exact h.live q hq
  · obtain ⟨h1, h2, h3⟩ := h.fresh q hq
    exact ⟨h1, h2, fun d hd => h3 d (hcell hd)⟩
  · obtain ⟨h1, h2, h3⟩ := h.old q hq
    exact ⟨h1, h2, fun d hd => h3 d (hcell hd)⟩
  · obtain ⟨h1, h2⟩ := h.frees q hq
    exact ⟨h1, fun d hd => h2 d (hcell hd)⟩

end Fits

/-- The roles of all threads fit the store and each other. -/
structure Owned (m : T) (s : Store T) (ρ : T → Role) (held : List Nat) : Prop where
  cur : ∃ p c, s.curCfg = some p ∧ s.heap.cell p = some c ∧ c.cfReloaded = false
  count : ∀ p c, s.heap.cell p = some c → c.cfRefCount = held.count p + owing ρ p
  held : ∀ p ∈ held, s.heap.cell p ≠ none
  fits : ∀ t, Fits m s t (ρ t)
  alone : ∀ t p, (ρ t).frees = some p → ∀ t', t' ≠ t → ¬ (ρ t').refs p

namespace Owned

variable {m t : T} {s s' : Store T} {ρ : T → Role} {r : Role} {held held' : List Nat} {p : Nat}
  {c : Cfg T}

omit [DecidableEq T] in
/-- Nothing but the configurations and `cur_cfg` matters. -/
theorem congr (h : Owned m s ρ held) (hh : s'.heap = s.heap) (hc : s'.curCfg = s.curCfg) :
    Owned m s' ρ held := by
  obtain ⟨h1, h2, h3, h4, h5⟩ := h
  refine ⟨by simpa only [hh, hc], by simpa only [hh], by simpa only [hh], fun t => ?_, h5⟩
  obtain ⟨f1, f2, f3, f4, f5, f6⟩ := h4 t
  constructor <;> simpa only [hh, hc]

theorem count_zero (h : Owned m s ρ held) (hp : s.heap.cell p = some c) (hc : c.cfRefCount < 1) :
    p ∉ held ∧ ∀ t, (ρ t).owes ≠ some p := by
  have := h.count p c hp
  refine ⟨fun hm => ?_, fun t ht => ?_⟩
  · have := List.count_pos_iff.2 hm
    omega
  · have := owing_pos ht
    omega

/-- What a step of `t` may do to the configurations: one is new, or the mutexes of the others are
untouched, its counter changes only where `t` may touch it, and its mark only where `t` retires
it. -/
def Touches (ρ : T → Role) (t : T) (s s' : Store T) : Prop :=
  ∀ q c', s'.heap.cell q = some c' →
    s.heap.cell q = none ∧ c' = .init T ∨ ∃ c, s.heap.cell q = some c ∧
      (∀ t', t' ≠ t → (c'.cfRefCountLock = some t' ↔ c.cfRefCountLock = some t')) ∧
      (c'.cfRefCount = c.cfRefCount ∨ (ρ t).refs q) ∧
      (c'.cfReloaded = c.cfReloaded ∨ (ρ t).old = some q ∧ (ρ t).fresh = none)

omit [DecidableEq T] in
/-- The roles of the other threads still fit. -/
theorem fits_other (h : Owned m s ρ held) (hcur : s'.curCfg = s.curCfg)
    (hlive : ∀ q, s.heap.cell q ≠ none → s'.heap.cell q ≠ none) (hcell : Touches ρ t s s')
    {t' : T} (e : t' ≠ t) : Fits m s' t' (ρ t') := by
  have h' := h.fits t'
  have hother : ∀ q, (ρ t').fresh = some q ∨ (ρ t').old = some q → (ρ t).old ≠ some q :=
    fun q hq ho => e ((hq.elim (fun hq => (h'.fresh q hq).1) fun hq => (h'.old q hq).1).trans
      ((h.fits t).old q ho).1.symm)
  have hmark : ∀ q, (ρ t').fresh = some q ∨ (ρ t').old = some q →
      (∀ c, s.heap.cell q = some c → c.cfReloaded = false) →
      ∀ c, s'.heap.cell q = some c → c.cfReloaded = false := fun q hq hr c' hc' => by
    rcases hcell q c' hc' with ⟨-, rfl⟩ | ⟨c, hc, -, -, hm | hm⟩
    · rfl
    · rw [hm, hr c hc]
    · exact absurd hm.1 (hother q hq)
  refine ⟨fun q hq => hcur.trans (h'.window q hq), fun q c' hc' => ?_,
    fun q hq => hlive q (h'.live q hq), fun q hq => ?_, fun q hq => ?_, fun q hq => ?_⟩
  · rcases hcell q c' hc' with ⟨hn, rfl⟩ | ⟨c, hc, hl, -⟩
    · exact ⟨fun hl => absurd hn (h'.live q (.inr (.inr (.inl hl)))), fun hl => by cases hl⟩
    · rw [hl t' e]
      exact h'.mutex q c hc
  · obtain ⟨h1, h2, h3⟩ := h'.fresh q hq
    exact ⟨h1, hcur ▸ h2, hmark q (.inl hq) h3⟩
  · obtain ⟨h1, h2, h3⟩ := h'.old q hq
    exact ⟨h1, hcur ▸ h2, hmark q (.inr hq) h3⟩
  · obtain ⟨h1, h2⟩ := h'.frees q hq
    refine ⟨hcur ▸ h1, fun c' hc' => ?_⟩
    rcases hcell q c' hc' with ⟨-, rfl⟩ | ⟨c, hc, -, hn | hn, -⟩
    · rfl
    · rw [hn, h2 c hc]
    · exact absurd hn (h.alone t' q hq t (Ne.symm e))

/-- What another thread frees, `t` does not come to in its new role. -/
theorem alone_other (h : Owned m s ρ held)
    (hrefs : ∀ q, r.refs q →
      s.heap.cell q = none ∨ (ρ t).refs q ∨ s.curCfg = some q ∨ q ∈ held)
    {t' : T} (e : t' ≠ t) {q : Nat} (hq : (ρ t').frees = some q) : ¬ r.refs q := by
  intro hr
  obtain ⟨hcq, hzero⟩ := (h.fits t').frees q hq
  rcases hrefs q hr with hr | hr | hr | hr
  · exact (h.fits t').live q (.inr (.inr (.inr (.inl hq)))) hr
  · exact h.alone t' q hq t (Ne.symm e) hr
  · exact hcq hr
  · obtain ⟨c, hc⟩ := Option.ne_none_iff_exists'.1 (h.held q hr)
    exact (h.count_zero hc (by rw [hzero c hc]; decide)).1 hr

/-- **The frame rule**: a step of `t` that frees nothing and leaves `cur_cfg` alone only has to fit
`t`'s own new role. -/
theorem step (h : Owned m s ρ held) (hcur : s'.curCfg = s.curCfg)
    (hlive : ∀ q, s.heap.cell q ≠ none → s'.heap.cell q ≠ none) (hcell : Touches ρ t s s')
    (hrefs : ∀ q, r.refs q →
      s.heap.cell q = none ∨ (ρ t).refs q ∨ s.curCfg = some q ∨ q ∈ held)
    (hheld : ∀ q ∈ held', q ∈ held ∨ (ρ t).refs q)
    (hcount : ∀ q c', s'.heap.cell q = some c' →
      c'.cfRefCount = held'.count q + owing (Function.update ρ t r) q)
    (hfits : Fits m s' t r)
    (halone : ∀ q, r.frees = some q → ∀ t', t' ≠ t → ¬ (ρ t').refs q) :
    Owned m s' (Function.update ρ t r) held' where
  cur := by
    obtain ⟨p, c, hp, hc, hr⟩ := h.cur
    obtain ⟨c', hc'⟩ := Option.ne_none_iff_exists'.1 (hlive p (by simp [hc]))
    refine ⟨p, c', hcur.trans hp, hc', ?_⟩
    rcases hcell p c' hc' with ⟨hn, -⟩ | ⟨d, hd, -, -, hm⟩
    · rw [hc] at hn
      cases hn
    obtain rfl : c = d := Option.some.inj (hc.symm.trans hd)
    rcases hm with hm | ⟨ho, hf⟩
    · rw [hm, hr]
    · exact absurd hf (((h.fits t).old p ho).2.1.1 hp)
  count := hcount
  held q hq := by
    refine hlive q ?_
    rcases hheld q hq with hq | hq
    · exact h.held q hq
    · exact (h.fits t).live q hq
  fits t' := by
    by_cases e : t' = t
    · subst e
      rw [Function.update_self]
      exact hfits
    · rw [Function.update_of_ne e]
      exact h.fits_other hcur hlive hcell e
  alone t1 q hq t2 hne := by
    by_cases e1 : t1 = t
    · subst e1
      rw [Function.update_self] at hq
      rw [Function.update_of_ne hne]
      exact halone q hq t2 hne
    rw [Function.update_of_ne e1] at hq
    by_cases e2 : t2 = t
    · subst e2
      rw [Function.update_self]
      exact h.alone_other hrefs e1 hq
    · rw [Function.update_of_ne e2]
      exact h.alone t1 q hq t2 hne

/-- A step that changes no configuration. -/
theorem same (h : Owned m s ρ held) (hheap : s'.heap = s.heap) (hcur : s'.curCfg = s.curCfg)
    (hrefs : ∀ q, r.refs q → (ρ t).refs q ∨ s.curCfg = some q ∨ q ∈ held)
    (hheld : ∀ q ∈ held', q ∈ held ∨ (ρ t).refs q)
    (hcount : ∀ q, held'.count q + owing (Function.update ρ t r) q = held.count q + owing ρ q)
    (hfits : Fits m s t r)
    (halone : ∀ q, r.frees = some q → ∀ t', t' ≠ t → ¬ (ρ t').refs q) :
    Owned m s' (Function.update ρ t r) held' := by
  refine h.step hcur (fun q hq => by rw [hheap]; exact hq) (fun q c hc => .inr ?_)
    (fun q hq => .inr (hrefs q hq)) hheld (fun q c hc => ?_) ?_ halone
  · exact ⟨c, by rw [← hheap]; exact hc, fun _ _ => Iff.rfl, .inl rfl, .inl rfl⟩
  · rw [hheap] at hc
    have := h.count q c hc
    have := hcount q
    omega
  · obtain ⟨h1, h2, h3, h4, h5, h6⟩ := hfits
    constructor <;> simpa only [hheap, hcur]

/-- A step that writes one configuration and does not free. -/
theorem put (h : Owned m s ρ held) (hp : s.heap.cell p = some c) {c' : Cfg T}
    (hlock : ∀ t', t' ≠ t → (c'.cfRefCountLock = some t' ↔ c.cfRefCountLock = some t'))
    (hmark : c'.cfReloaded = c.cfReloaded ∨ (ρ t).old = some p ∧ (ρ t).fresh = none)
    (htouch : (ρ t).refs p) (hrefs : ∀ q, r.refs q → (ρ t).refs q)
    (hcount : ∀ q, owing (Function.update ρ t r) q = owing ρ q + if q = p then
      c'.cfRefCount - c.cfRefCount else 0)
    (hfits : Fits m { s with heap := s.heap.put p c' } t r) (hfrees : r.frees = (ρ t).frees) :
    Owned m { s with heap := s.heap.put p c' } (Function.update ρ t r) held := by
  refine h.step rfl (fun q hq => ?_) (fun q d hd => .inr ?_) (fun q hq => .inr (.inl (hrefs q hq)))
    (fun q hq => .inl hq) (fun q d hd => ?_) hfits fun q hq => h.alone t q (hfrees ▸ hq)
  · by_cases e : q = p
    · subst e; simp [Arena.cell_put_self hp]
    · simpa only [Arena.cell_put_of_ne e] using hq
  · by_cases e : q = p
    · subst e
      obtain rfl : c' = d := Option.some.inj ((Arena.cell_put_self hp).symm.trans hd)
      exact ⟨c, hp, hlock, .inr htouch, hmark⟩
    · exact ⟨d, (Arena.cell_put_of_ne e).symm.trans hd, fun _ _ => Iff.rfl, .inl rfl, .inl rfl⟩
  · have hq := hcount q
    by_cases e : q = p
    · subst e
      obtain rfl : c' = d := Option.some.inj ((Arena.cell_put_self hp).symm.trans hd)
      have := h.count q c hp
      simp only [if_true] at hq
      omega
    · have := h.count q d ((Arena.cell_put_of_ne e).symm.trans hd)
      simp only [e, if_false] at hq
      omega

/-! ## What a thread can do -/

omit [DecidableEq T] in
theorem cur_live (h : Owned m s ρ held) {q : Nat} (hq : s.curCfg = some q) :
    s.heap.cell q ≠ none := by
  obtain ⟨k, d, hk, hd, -⟩ := h.cur
  obtain rfl := Option.some.inj (hk.symm.trans hq)
  simp [hd]

/-- It reads `cur_cfg`, or has read it for the last time. -/
theorem read (h : Owned m s ρ held) (hrole : ρ t = r) {w : List Nat}
    (hw : ∀ q ∈ w, s.curCfg = some q) :
    Owned m s (Function.update ρ t { r with window := w }) held := by
  subst hrole
  refine h.same rfl rfl (fun q hq => ?_) (fun q hq => .inl hq) (fun q => by simp [owing_same])
    ((h.fits t).withWindow hw fun q => h.cur_live) (h.alone t)
  rcases Role.refs_window hq with hq | hq
  · exact .inr (.inl (hw q hq))
  · exact .inl hq

theorem lock (h : Owned m s ρ held) (hrole : ρ t = r) (hp : s.heap.cell p = some c)
    (hl : c.cfRefCountLock = none) (hr : r.refs p) (hn : r.locks = none) :
    Owned m { s with heap := s.heap.put p { c with cfRefCountLock := some t } }
      (Function.update ρ t { r with locks := some p }) held := by
  subst hrole
  have hrefs : ∀ q, ({ ρ t with locks := some p } : Role).refs q → (ρ t).refs q := fun q hq => by
    rcases Role.refs_locks hq with hq | hq
    · exact Option.some.inj hq ▸ hr
    · exact hq
  refine h.put hp (fun t' ht' => ?_) (.inl rfl) hr hrefs (fun q => by simp [owing_same]) ?_ rfl
  · rw [hl]
    exact ⟨fun he => absurd (Option.some.inj he).symm ht', nofun⟩
  · refine (h.fits t).put hp rfl rfl (fun _ ho => ho) rfl hrefs ⟨fun _ => rfl, fun _ => rfl⟩ ?_
      (.inl rfl) (.inl rfl)
    intro q hq
    rw [hn]
    exact ⟨fun he => absurd (Option.some.inj he).symm hq, nofun⟩

theorem unlock (h : Owned m s ρ held) (hrole : ρ t = r) (hp : s.heap.cell p = some c)
    (hr : r.locks = some p) :
    Owned m { s with heap := s.heap.put p { c with cfRefCountLock := none } }
      (Function.update ρ t { r with locks := none }) held := by
  subst hrole
  have hrefs : ∀ q, ({ ρ t with locks := none } : Role).refs q → (ρ t).refs q := fun q hq =>
    (Role.refs_locks hq).elim nofun id
  refine h.put hp (fun t' ht' => ?_) (.inl rfl) (.inr (.inr (.inl hr))) hrefs
    (fun q => by simp [owing_same]) ?_ rfl
  · rw [((h.fits t).mutex p c hp).1 hr]
    exact ⟨nofun, fun he => absurd (Option.some.inj he).symm ht'⟩
  · refine (h.fits t).put hp rfl rfl (fun _ ho => ho) rfl hrefs ⟨nofun, nofun⟩ ?_ (.inl rfl)
      (.inl rfl)
    intro q hq
    rw [hr]
    exact ⟨nofun, fun he => absurd (Option.some.inj he).symm hq⟩

theorem countUp (h : Owned m s ρ held) (hrole : ρ t = r) (hp : s.heap.cell p = some c)
    (hr : r.locks = some p) (hn : r.owes = none) (hf : r.frees = none) :
    Owned m { s with heap := s.heap.put p { c with cfRefCount := c.cfRefCount + 1 } }
      (Function.update ρ t { r with owes := some p }) held := by
  subst hrole
  have hrefs : ∀ q, ({ ρ t with owes := some p } : Role).refs q → (ρ t).refs q := fun q hq => by
    rcases Role.refs_owes hq with hq | hq
    · exact .inr (.inr (.inl (hr.trans hq)))
    · exact hq
  refine h.put hp (fun _ _ => Iff.rfl) (.inl rfl) (.inr (.inr (.inl hr))) hrefs (fun q => ?_)
    ((h.fits t).put hp rfl rfl (fun _ ho => ho) rfl hrefs ((h.fits t).mutex p c hp)
      (fun _ _ => Iff.rfl) (.inl rfl) (.inr hf)) rfl
  rw [owing_gain hn]
  by_cases hq : q = p
  · simp only [if_pos hq]
    omega
  · simp only [if_neg hq]
    omega

theorem countDown (h : Owned m s ρ held) (hrole : ρ t = r) (hp : s.heap.cell p = some c)
    (hr : r.locks = some p) (hn : r.owes = some p) (hf : r.frees = none) :
    Owned m { s with heap := s.heap.put p { c with cfRefCount := c.cfRefCount + -1 } }
      (Function.update ρ t { r with owes := none }) held := by
  subst hrole
  have hrefs : ∀ q, ({ ρ t with owes := none } : Role).refs q → (ρ t).refs q := fun q hq =>
    (Role.refs_owes hq).elim nofun id
  refine h.put hp (fun _ _ => Iff.rfl) (.inl rfl) (.inr (.inr (.inl hr))) hrefs (fun q => ?_)
    ((h.fits t).put hp rfl rfl (fun _ ho => ho) rfl hrefs ((h.fits t).mutex p c hp)
      (fun _ _ => Iff.rfl) (.inl rfl) (.inr hf)) rfl
  have hlose := owing_lose hn q
  by_cases hq : q = p
  · simp only [if_pos hq] at hlose ⊢
    omega
  · simp only [if_neg hq] at hlose ⊢
    omega

theorem mark (h : Owned m s ρ held) (hrole : ρ t = r) (hp : s.heap.cell p = some c)
    (hf : r.frees = none) (ho : r.old = some p) (hn : r.fresh = none) :
    Owned m { s with heap := s.heap.put p { c with cfReloaded := true } }
      (Function.update ρ t { r with old := none }) held := by
  subst hrole
  refine h.put hp (fun _ _ => Iff.rfl) (.inr ⟨ho, hn⟩) (by simp [Role.refs, ho])
    (fun _ => Role.refs_not_old) (fun q => by simp [owing_same]) ?_ rfl
  exact (h.fits t).put hp rfl rfl nofun rfl (fun _ => Role.refs_not_old)
    ((h.fits t).mutex p c hp) (fun _ _ => Iff.rfl) (.inr ⟨hn, rfl⟩) (.inr hf)

/-- It hands its reference over to the caller. -/
theorem return_ (h : Owned m s ρ held) (hrole : ρ t = r) (hr : r.owes = some p) :
    Owned m s (Function.update ρ t { r with owes := none }) (p :: held) := by
  subst hrole
  refine h.same rfl rfl (fun q hq => .inl ((Role.refs_owes hq).elim nofun id)) (fun q hq => ?_)
    (fun q => ?_) ((h.fits t).withOwes nofun) (h.alone t)
  · rcases List.mem_cons.1 hq with rfl | hq
    · exact .inr (.inr (.inl hr))
    · exact .inl hq
  · have hlose := owing_lose hr q
    by_cases hq : q = p
    · simp only [if_pos hq] at hlose
      rw [hq, List.count_cons_self, ← hq]
      omega
    · simp only [if_neg hq] at hlose
      rw [List.count_cons_of_ne (Ne.symm hq)]
      omega

/-- It takes a reference from the caller. -/
theorem release (h : Owned m s ρ held) (hrole : ρ t = r) (hm : p ∈ held) (hr : r.owes = none) :
    Owned m s (Function.update ρ t { r with owes := some p }) (held.erase p) := by
  subst hrole
  have hlive := h.held p hm
  have hpos := List.count_pos_iff.2 hm
  refine h.same rfl rfl (fun q hq => ?_) (fun q hq => .inl (List.mem_of_mem_erase hq))
    (fun q => ?_) ((h.fits t).withOwes fun q hq => Option.some.inj hq ▸ hlive) (h.alone t)
  · rcases Role.refs_owes hq with hq | hq
    · exact .inr (.inr (Option.some.inj hq ▸ hm))
    · exact .inl hq
  · rw [owing_gain hr]
    by_cases hq : q = p
    · rw [hq, List.count_erase_self, if_pos rfl]
      omega
    · rw [List.count_erase_of_ne hq, if_neg hq, Nat.add_zero]

/-- It finds that nobody holds a configuration that is not current any more: from now on the
configuration is its own. -/
theorem test (h : Owned m s ρ held) (hrole : ρ t = r) (hp : s.heap.cell p = some c)
    (hr : r.locks = some p) (hn : r.owes = none) (hc : c.cfRefCount < 1)
    (hd : c.cfReloaded = true ∨ r.old = some p ∧ r.fresh = none) :
    Owned m s (Function.update ρ t { locks := some p, frees := some p }) held := by
  subst hrole
  obtain ⟨hheld, howes⟩ := h.count_zero hp hc
  have ht := h.fits t
  have hcur : s.curCfg ≠ some p := fun hcur => by
    rcases hd with hd | ⟨ho, hf⟩
    · obtain ⟨k, d, hk, hkd, hkr⟩ := h.cur
      obtain rfl : p = k := Option.some.inj (hcur.symm.trans hk)
      rw [Option.some.inj (hp.symm.trans hkd), hkr] at hd
      cases hd
    · exact absurd hf ((ht.old p ho).2.1.1 hcur)
  have halone : ∀ t', t' ≠ t → ¬ (ρ t').refs p := fun t' e hrefs => by
    have ht' := h.fits t'
    have hm : t' = m → ¬ ∃ c, s.heap.cell p = some c ∧ c.cfReloaded = false := by
      rintro hm ⟨d, hpd, hdr⟩
      rcases hd with hd | ⟨ho, -⟩
      · rw [Option.some.inj (hp.symm.trans hpd), hdr] at hd
        cases hd
      · exact e (hm.trans (ht.old p ho).1.symm)
    rcases hrefs with hw | ho | hl | hf | hf | ho
    · exact hcur (ht'.window p hw)
    · exact howes t' ho
    · have h1 := (ht.mutex p c hp).1 hr
      have h2 := (ht'.mutex p c hp).1 hl
      exact e (Option.some.inj (h2.symm.trans h1))
    · exact h.alone t' p hf t (Ne.symm e) (.inr (.inr (.inl hr)))
    · obtain ⟨h1, -, h3⟩ := ht'.fresh p hf
      exact hm h1 ⟨c, hp, h3 c hp⟩
    · obtain ⟨h1, -, h3⟩ := ht'.old p ho
      exact hm h1 ⟨c, hp, h3 c hp⟩
  have hcount := h.count p c hp
  rw [List.count_eq_zero.2 hheld] at hcount
  have hzero : c.cfRefCount = 0 := by omega
  have hown : ∀ q, ({ locks := some p, frees := some p } : Role).refs q → q = p := by
    simp [Role.refs, eq_comm]
  refine h.same rfl rfl (fun q hq => ?_) (fun q hq => .inl hq)
    (fun q => by simp [owing_same, hn]) ⟨nofun, fun q d hd => ?_, fun q hq => ?_, nofun, nofun,
      fun q hq => ?_⟩ fun q hq => ?_
  · exact .inl (hown q hq ▸ .inr (.inr (.inl hr)))
  · rw [← ht.mutex q d hd, hr]
  · rw [hown q hq, hp]
    exact Option.some_ne_none c
  · obtain rfl : p = q := Option.some.inj hq
    exact ⟨hcur, fun d hd => Option.some.inj (hp.symm.trans hd) ▸ hzero⟩
  · obtain rfl : p = q := Option.some.inj hq
    exact halone

/-- A reload reads which configuration it replaces. -/
theorem readOld (h : Owned m s ρ held) {f : Nat} (hr : ρ t = { fresh := some f }) :
    Owned m s (Function.update ρ t { fresh := some f, old := s.curCfg }) held := by
  have ht := h.fits t
  rw [hr] at ht
  have hown : ∀ q, ({ fresh := some f, old := s.curCfg } : Role).refs q →
      f = q ∨ s.curCfg = some q := by
    simp [Role.refs]
  have hnew : ({ fresh := some f } : Role).refs f := .inr (.inr (.inr (.inr (.inl rfl))))
  refine h.same rfl rfl (fun q hq => ?_) (fun q hq => .inl hq)
    (fun q => by simp [owing_same, hr]) ⟨nofun, ht.mutex, fun q hq => ?_, ht.fresh, fun q hq => ?_,
      nofun⟩ nofun
  · rcases hown q hq with rfl | hq
    · exact .inl (hr ▸ hnew)
    · exact .inr (.inl hq)
  · rcases hown q hq with rfl | hq
    · exact ht.live f hnew
    · exact h.cur_live hq
  · obtain ⟨k, d, hk, hkd, hkr⟩ := h.cur
    obtain rfl := Option.some.inj (hk.symm.trans hq)
    refine ⟨(ht.fresh f rfl).1, ⟨fun _ => nofun, fun _ => hk⟩, fun e he => ?_⟩
    rw [← Option.some.inj (hkd.symm.trans he), hkr]

/-- A reload loads a configuration. -/
theorem load (h : Owned m s ρ held) (hr : ρ t = {}) (ht : t = m) :
    Owned m { s with heap := s.heap.alloc (.init T) }
      (Function.update ρ t { fresh := some s.heap.next }) held := by
  have hb := s.heap.bound s.heap.next (Nat.le_refl _)
  have hcell : ∀ q, q ≠ s.heap.next → (s.heap.alloc (.init T)).cell q = s.heap.cell q :=
    fun q hq => Arena.cell_alloc_of_ne hq
  have hnew := Arena.cell_alloc_self s.heap (.init T)
  have hkept : ∀ q, s.heap.cell q ≠ none → (s.heap.alloc (.init T)).cell q ≠ none := fun q hq => by
    rw [hcell q fun e => hq (e ▸ hb)]
    exact hq
  have hlocks := (h.fits t).mutex
  rw [hr] at hlocks
  refine h.step rfl hkept (fun q c hc => ?_) (fun q hq => ?_) (fun q hq => .inl hq)
    (fun q c hc => ?_) ⟨nofun, fun q d hd => ?_, fun q hq => ?_, fun q hq => ?_, nofun, nofun⟩
    (by simp)
  · by_cases e : q = s.heap.next
    · subst e
      exact .inl ⟨hb, Option.some.inj (hc.symm.trans hnew)⟩
    · exact .inr ⟨c, (hcell q e).symm.trans hc, fun _ _ => Iff.rfl, .inl rfl, .inl rfl⟩
  · simp [Role.refs] at hq
    exact .inl (hq ▸ hb)
  · rw [owing_same (by rw [hr])]
    by_cases e : q = s.heap.next
    · subst e
      have hheld : s.heap.next ∉ held := fun hm => h.held _ hm hb
      have howes : owing ρ s.heap.next = 0 := by
        refine Finset.sum_eq_zero fun t' _ => if_neg fun ho => ?_
        exact (h.fits t').live _ (.inr (.inl ho)) hb
      rw [Option.some.inj (hc.symm.trans hnew), List.count_eq_zero.2 hheld, howes]
      rfl
    · exact h.count q c ((hcell q e).symm.trans hc)
  · rcases Arena.cell_alloc_cases hd with ⟨-, rfl⟩ | ⟨-, hd⟩
    · exact ⟨nofun, nofun⟩
    · exact hlocks q d hd
  · obtain rfl : s.heap.next = q := by simpa [Role.refs] using hq
    rw [hnew]
    exact Option.some_ne_none _
  · obtain rfl : s.heap.next = q := Option.some.inj hq
    refine ⟨ht, fun hcur => h.cur_live hcur hb, fun d hd => ?_⟩
    rw [← Option.some.inj (hnew.symm.trans hd)]
    rfl

/-- A reload makes its configuration the current one, while nobody relies on `cur_cfg`. -/
theorem swap (h : Owned m s ρ held) {o : Option Nat} (hr : ρ t = { fresh := some p, old := o })
    (hw : ∀ t', (ρ t').window = []) :
    Owned m { s with curCfg := some p } (Function.update ρ t { old := o }) held := by
  have ht := h.fits t
  rw [hr] at ht
  have hpf := ht.fresh p rfl
  obtain ⟨c, hc⟩ := Option.ne_none_iff_exists'.1 (ht.live p (by simp [Role.refs]))
  refine ⟨⟨p, c, rfl, hc, hpf.2.2 c hc⟩, fun q d hd => ?_, h.held, fun t' => ?_,
    fun t1 q hq t2 hne => ?_⟩
  · rw [owing_same (by rw [hr])]
    exact h.count q d hd
  · by_cases e : t' = t
    · subst e
      rw [Function.update_self]
      have hrefs : ∀ q, ({ old := o } : Role).refs q →
          ({ fresh := some p, old := o } : Role).refs q := fun q hq => by
        simp only [Role.refs, List.not_mem_nil, reduceCtorEq, false_or] at hq ⊢
        exact .inr hq
      refine ⟨nofun, ht.mutex, fun q hq => ht.live q (hrefs q hq), nofun, fun q hq => ?_, nofun⟩
      obtain ⟨hm, hcur, hmark⟩ := ht.old q hq
      refine ⟨hm, ⟨fun he => ?_, fun hne => absurd rfl hne⟩, hmark⟩
      obtain rfl := Option.some.inj he
      exact absurd (hcur.2 nofun) hpf.2.1
    · rw [Function.update_of_ne e]
      -- only `t` reloads
      have hno : ∀ q, (ρ t').fresh ≠ some q ∧ (ρ t').old ≠ some q := fun q =>
        ⟨fun hq => e (((h.fits t').fresh q hq).1.trans hpf.1.symm),
          fun hq => e (((h.fits t').old q hq).1.trans hpf.1.symm)⟩
      have hrefs : (ρ t).refs p := by simp [Role.refs, hr]
      refine (h.fits t').swap (hw t') (Option.eq_none_iff_forall_ne_some.2 fun q => (hno q).1)
        (Option.eq_none_iff_forall_ne_some.2 fun q => (hno q).2) fun q hq hp => ?_
      obtain rfl := Option.some.inj hp
      exact h.alone t' p hq t (Ne.symm e) hrefs
  · by_cases e1 : t1 = t
    · subst e1; simp at hq
    rw [Function.update_of_ne e1] at hq
    by_cases e2 : t2 = t
    · subst e2
      have := h.alone t1 q hq t2 hne
      rw [Function.update_self]
      rw [hr] at this
      exact fun hrefs => this (by simp [Role.refs] at hrefs ⊢; exact .inr hrefs)
    · rw [Function.update_of_ne e2]
      exact h.alone t1 q hq t2 hne

/-- It frees the configuration that is its own. -/
theorem free (h : Owned m s ρ held) (hp : s.heap.cell p = some c) (hr : ρ t = { frees := some p }) :
    Owned m { s with heap := s.heap.drop p, freed := p :: s.freed }
      (Function.update ρ t {}) held := by
  have hf : (ρ t).frees = some p := by rw [hr]
  have hcell : ∀ q, q ≠ p → (s.heap.drop p).cell q = s.heap.cell q :=
    fun q hq => Arena.cell_drop_of_ne hq
  have hself := Arena.cell_drop_self s.heap p
  obtain ⟨hcur, hzero⟩ := (h.fits t).frees p hf
  obtain ⟨hheld, -⟩ := h.count_zero hp (by rw [hzero c hp]; decide)
  obtain ⟨k, d, hk, hkd, hkr⟩ := h.cur
  refine ⟨⟨k, d, hk, ?_, hkr⟩, fun q e he => ?_, fun q hq => ?_, fun t' => ?_,
    fun t1 q hq t2 hne => ?_⟩
  · rw [hcell k fun e => hcur (e ▸ hk)]
    exact hkd
  · rw [owing_same (by rw [hr])]
    exact h.count q e (Arena.cell_drop_cases he).2
  · rw [hcell q fun e => hheld (e ▸ hq)]
    exact h.held q hq
  · by_cases e : t' = t
    · subst e
      rw [Function.update_self]
      refine Fits.idle fun q d hd hlock => ?_
      have hmine := ((h.fits t').mutex q d (Arena.cell_drop_cases hd).2).2 hlock
      rw [hr] at hmine
      cases hmine
    · rw [Function.update_of_ne e]
      exact (h.fits t').drop (h.alone t p hf t' e) _
  · by_cases e1 : t1 = t
    · subst e1; simp at hq
    rw [Function.update_of_ne e1] at hq
    by_cases e2 : t2 = t
    · subst e2; simp [Role.refs]
    · rw [Function.update_of_ne e2]
      exact h.alone t1 q hq t2 hne

end Owned

end

end Messasy
