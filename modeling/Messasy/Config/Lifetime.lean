import Messasy.Config.Store

/-!
# The life of a configuration

`config_retrieve`, `config_release` and `reload_config` as complete calls, one after another. A
replaced configuration is freed by `reload_config` when nobody holds it and by the last
`config_release` otherwise; `Held` ties counter, mark, flag and current pointer to the list of
configurations that are held.
-/

namespace Messasy

open Lib

/-- `config_retrieve`. -/
def configRetrieve (s : Store Unit) : Option (Nat × Store Unit) := do
  let p ← s.curCfg
  let s ← s.lock () p
  let q ← s.curCfg
  let s ← s.addRef q 1
  let retPtr ← s.curCfg
  let u ← s.curCfg
  let s ← s.unlock u
  return (retPtr, s)

/-- `config_release`. -/
def configRelease (s : Store Unit) (cfg : Nat) : Option (Store Unit) := do
  let s ← s.lock () cfg
  let s ← s.addRef cfg (-1)
  let c ← s.heap.cell cfg
  if c.cfReloaded ∧ c.cfRefCount < 1 then
    let s ← s.unlock cfg
    let s ← s.freeConfig cfg
    let s ← s.lockConfig ()
    return (s.setReloading false).unlockConfig
  else s.unlock cfg

/-- The part of `reload_config` that deals with the replaced configuration. -/
def retireOld (s : Store Unit) (old : Nat) : Option (Store Unit) := do
  let s ← s.lock () old
  let c ← s.heap.cell old
  if c.cfRefCount < 1 then
    let s ← s.unlock old
    let s ← s.freeConfig old
    let s ← s.lockConfig ()
    return (s.setReloading false).unlockConfig
  else
    let s ← s.mark old
    s.unlock old

/-- `reload_config`; `ok` says whether `set_config` succeeds. -/
def reloadConfig (s : Store Unit) (ok : Bool) : Option (Rc × Store Unit) :=
  if s.configReloading then some (.positive, s)
  else if ok then do
    let (cfg, s) := s.setConfig
    let s := if s.curCfg.isSome then s.setReloading true else s
    let s ← s.lockConfig ()
    let old := s.curCfg
    let s := { s with curCfg := some cfg }.unlockConfig
    match old with
    | none => return (.success, s)
    | some old =>
      let s ← retireOld s old
      return (.success, s)
  else some (.error, s)

/-- The store and the configurations that are held, each as often as it was retrieved and not
released, after some complete calls behind the first load. -/
inductive Reachable : Store Unit → List Nat → Prop
  | load {s} : reloadConfig .empty true = some (.success, s) → Reachable s []
  | retrieve {s held p s'} : Reachable s held → configRetrieve s = some (p, s') →
      Reachable s' (p :: held)
  | release {s held p s'} : Reachable s held → p ∈ held → configRelease s p = some s' →
      Reachable s' (held.erase p)
  | reload {s held r s'} (ok : Bool) : Reachable s held → reloadConfig s ok = some (r, s') →
      Reachable s' held

/-- What holds between the calls. -/
structure Held (s : Store Unit) (held : List Nat) : Prop where
  cur : ∃ p c, s.curCfg = some p ∧ s.heap.cell p = some c
  count : ∀ p c, s.heap.cell p = some c → c.cfRefCount = held.count p
  live : ∀ p < s.heap.next, s.heap.cell p = none ↔ s.curCfg ≠ some p ∧ p ∉ held
  old : ∀ p ∈ held, p < s.heap.next
  marked : ∀ p c, s.heap.cell p = some c → (c.cfReloaded = true ↔ s.curCfg ≠ some p)
  one : ∀ p ∈ held, ∀ q ∈ held, s.curCfg ≠ some p → s.curCfg ≠ some q → p = q
  flag : s.configReloading = true ↔ ∃ p ∈ held, s.curCfg ≠ some p
  unlocked : s.configLock = none ∧ ∀ p c, s.heap.cell p = some c → c.cfRefCountLock = none
  once : s.freed.Nodup
  gone : ∀ p, p ∈ s.freed ↔ p < s.heap.next ∧ s.heap.cell p = none

/-! ## The calls on configurations that nobody has locked -/

section
variable {s : Store Unit} {p : Nat} {c : Cfg Unit}

theorem configRetrieve_eq (hcur : s.curCfg = some p) (hp : s.heap.cell p = some c)
    (hl : c.cfRefCountLock = none) :
    configRetrieve s =
      some (p, { s with heap := s.heap.put p { c with cfRefCount := c.cfRefCount + 1 } }) := by
  simp only [configRetrieve, hcur, Store.lock_eq hp hl, Store.addRef, Store.unlock,
    Store.modify_put hp, hl, Option.bind_eq_bind, Option.bind_some, Option.pure_def]

theorem configRelease_keep (hp : s.heap.cell p = some c) (hl : c.cfRefCountLock = none)
    (hk : ¬ (c.cfReloaded = true ∧ c.cfRefCount - 1 < 1)) :
    configRelease s p =
      some { s with heap := s.heap.put p { c with cfRefCount := c.cfRefCount - 1 } } := by
  simp only [configRelease, Store.lock_eq hp hl, Store.addRef, Store.unlock,
    Store.modify_put hp, Arena.cell_put_self hp, hl, Option.bind_eq_bind, Option.bind_some,
    ← Int.sub_eq_add_neg, if_neg hk]

theorem configRelease_last (hp : s.heap.cell p = some c) (hl : c.cfRefCountLock = none)
    (hcl : s.configLock = none) (hk : c.cfReloaded = true ∧ c.cfRefCount - 1 < 1) :
    configRelease s p =
      some { s with heap := s.heap.drop p, freed := p :: s.freed, configReloading := false } := by
  simp only [configRelease, Store.lock_eq hp hl, Store.addRef, Store.unlock,
    Store.modify_put hp, Store.freeConfig_put hp, Arena.cell_put_self hp, Option.bind_eq_bind,
    Option.bind_some, ← Int.sub_eq_add_neg, if_pos hk, Store.lockConfig, Store.setReloading,
    Store.unlockConfig, hcl, Option.pure_def]

theorem retireOld_free (hp : s.heap.cell p = some c) (hl : c.cfRefCountLock = none)
    (hcl : s.configLock = none) (hk : c.cfRefCount < 1) :
    retireOld s p =
      some { s with heap := s.heap.drop p, freed := p :: s.freed, configReloading := false } := by
  simp only [retireOld, Store.lock_eq hp hl, Store.unlock, Store.modify_put hp,
    Store.freeConfig_put hp, Arena.cell_put_self hp, Option.bind_eq_bind, Option.bind_some,
    if_pos hk, Store.lockConfig, Store.setReloading, Store.unlockConfig, hcl, Option.pure_def]

theorem retireOld_mark (hp : s.heap.cell p = some c) (hl : c.cfRefCountLock = none)
    (hk : ¬ c.cfRefCount < 1) :
    retireOld s p = some { s with heap := s.heap.put p { c with cfReloaded := true } } := by
  simp only [retireOld, Store.lock_eq hp hl, Store.unlock, Store.mark, Store.modify_put hp,
    Arena.cell_put_self hp, hl, Option.bind_eq_bind, Option.bind_some, if_neg hk]

/-- A reload when nobody holds the current configuration. -/
theorem reloadConfig_free (hr : s.configReloading = false) (hcl : s.configLock = none)
    (hcur : s.curCfg = some p) (hp : s.heap.cell p = some c) (hl : c.cfRefCountLock = none)
    (hk : c.cfRefCount < 1) :
    reloadConfig s true = some (.success, { s with
      heap := (s.heap.alloc (.init Unit)).drop p, curCfg := some s.heap.next,
      configReloading := false, freed := p :: s.freed }) := by
  let s1 : Store Unit := { s with
    heap := s.heap.alloc (.init Unit), curCfg := some s.heap.next, configReloading := true }
  have hp1 : s1.heap.cell p = some c := (Arena.cell_alloc_of_lt (Arena.lt_next hp)).trans hp
  have hret := retireOld_free hp1 hl hcl hk
  simp only [s1, hcl] at hret
  simp only [reloadConfig, hr, Bool.false_eq_true, if_false, if_true, Store.setConfig, hcur,
    Option.isSome_some, Store.setReloading, Store.lockConfig, hcl, Store.unlockConfig,
    Option.bind_eq_bind, Option.bind_some, Option.pure_def, hret]

/-- A reload when somebody does. -/
theorem reloadConfig_mark (hr : s.configReloading = false) (hcl : s.configLock = none)
    (hcur : s.curCfg = some p) (hp : s.heap.cell p = some c) (hl : c.cfRefCountLock = none)
    (hk : ¬ c.cfRefCount < 1) :
    reloadConfig s true = some (.success, { s with
      heap := (s.heap.alloc (.init Unit)).put p { c with cfReloaded := true },
      curCfg := some s.heap.next, configReloading := true }) := by
  let s1 : Store Unit := { s with
    heap := s.heap.alloc (.init Unit), curCfg := some s.heap.next, configReloading := true }
  have hp1 : s1.heap.cell p = some c := (Arena.cell_alloc_of_lt (Arena.lt_next hp)).trans hp
  have hret := retireOld_mark hp1 hl hk
  simp only [s1, hcl] at hret
  simp only [reloadConfig, hr, Bool.false_eq_true, if_false, if_true, Store.setConfig, hcur,
    Option.isSome_some, Store.setReloading, Store.lockConfig, hcl, Store.unlockConfig,
    Option.bind_eq_bind, Option.bind_some, Option.pure_def, hret]

end

/-! ## The invariant -/

theorem Held.start {s : Store Unit} (h : reloadConfig .empty true = some (.success, s)) :
    Held s [] := by
  obtain rfl : s = ⟨Arena.empty.alloc (.init Unit), some 0, none, false, []⟩ := by
    have h' : reloadConfig .empty true =
        some (.success, ⟨Arena.empty.alloc (.init Unit), some 0, none, false, []⟩) := rfl
    rw [h'] at h
    exact (Prod.mk.inj (Option.some.inj h)).2.symm
  have hcell : ∀ p c, (Arena.empty.alloc (Cfg.init Unit)).cell p = some c →
      p = 0 ∧ c = .init Unit := fun p c hc => by
    rcases Nat.eq_zero_or_pos p with rfl | hpos
    · exact ⟨rfl, (Option.some.inj hc).symm⟩
    · rw [Arena.cell_alloc_of_ne (by simp [Arena.empty]; omega)] at hc
      cases hc
  refine ⟨⟨0, .init Unit, rfl, rfl⟩, fun p c hc => ?_, fun p hp => ?_, by simp, fun p c hc => ?_,
    by simp, by simp, ⟨rfl, fun p c hc => ?_⟩, List.nodup_nil, fun p => ?_⟩
  · rw [(hcell p c hc).2]; rfl
  · obtain rfl : p = 0 := by simp [Arena.empty] at hp; omega
    simp [Arena.empty, Arena.alloc]
  · obtain ⟨rfl, rfl⟩ := hcell p c hc
    simp [Cfg.init]
  · rw [(hcell p c hc).2]; rfl
  · simp only [List.not_mem_nil, Arena.next_alloc, false_iff, not_and]
    intro hp
    obtain rfl : p = 0 := by simp [Arena.empty] at hp; omega
    simp [Arena.empty, Arena.alloc]

section
variable {s : Store Unit} {held : List Nat}

theorem Held.retrieve (hs : Held s held) :
    ∃ p s', configRetrieve s = some (p, s') ∧ Held s' (p :: held) := by
  obtain ⟨p, c, hcur, hp⟩ := hs.cur
  refine ⟨p, _, configRetrieve_eq hcur hp (hs.unlocked.2 p c hp), ⟨p, _, hcur,
    Arena.cell_put_self hp⟩, fun q d hd => ?_, fun q hq => ?_, fun q hq => ?_, fun q d hd => ?_,
    fun q hq r hr hcq hcr => ?_, ?_, ⟨hs.unlocked.1, fun q d hd => ?_⟩, hs.once, fun q => ?_⟩
  · rcases Arena.cell_put_cases hp hd with ⟨rfl, rfl⟩ | ⟨hne, hd⟩
    · simp [hs.count q c hp]
    · rw [hs.count q d hd, List.count_cons_of_ne (Ne.symm hne)]
  · rw [Arena.cell_put_eq_none hp, hs.live q hq, List.mem_cons, not_or, hcur]
    constructor
    · exact fun ⟨h1, h2⟩ => ⟨h1, fun e => h1 (e ▸ rfl), h2⟩
    · exact fun ⟨h1, _, h2⟩ => ⟨h1, h2⟩
  · rcases List.mem_cons.1 hq with rfl | hq
    · exact (Arena.lt_next hp : q < s.heap.next)
    · exact hs.old q hq
  · rcases Arena.cell_put_cases hp hd with ⟨rfl, rfl⟩ | ⟨hne, hd⟩
    · exact hs.marked q c hp
    · exact hs.marked q d hd
  · have hmem : ∀ x ∈ p :: held, s.curCfg ≠ some x → x ∈ held := fun x hx hcx => by
      rcases List.mem_cons.1 hx with rfl | hx
      · exact absurd hcur hcx
      · exact hx
    exact hs.one q (hmem q hq hcq) r (hmem r hr hcr) hcq hcr
  · simp [hs.flag, hcur]
  · rcases Arena.cell_put_cases hp hd with ⟨rfl, rfl⟩ | ⟨hne, hd⟩
    · exact hs.unlocked.2 q c hp
    · exact hs.unlocked.2 q d hd
  · rw [Arena.cell_put_eq_none hp]; exact hs.gone q

/-- The last holder of a replaced configuration gives it back. -/
theorem Held.release_last {p : Nat} {c : Cfg Unit} (hs : Held s held) (hm : p ∈ held)
    (hp : s.heap.cell p = some c) (hk : c.cfReloaded = true ∧ c.cfRefCount - 1 < 1) :
    Held { s with heap := s.heap.drop p, freed := p :: s.freed, configReloading := false }
      (held.erase p) := by
  have hcount := hs.count p c hp
  have herase : (held.erase p).count p = held.count p - 1 := List.count_erase_self
  have hnotin : p ∉ held.erase p := List.count_eq_zero.1 (by omega)
  have hcur : s.curCfg ≠ some p := (hs.marked p c hp).1 hk.1
  obtain ⟨k, d, hkcur, hkd⟩ := hs.cur
  have hkp : k ≠ p := fun e => hcur (e ▸ hkcur)
  refine ⟨⟨k, d, hkcur, (Arena.cell_drop_of_ne hkp).trans hkd⟩, fun q d hd => ?_,
    fun q hq => ?_, fun q hq => hs.old q (List.mem_of_mem_erase hq), fun q d hd => ?_,
    fun q hq r hr => hs.one q (List.mem_of_mem_erase hq) r (List.mem_of_mem_erase hr), ?_,
    ⟨hs.unlocked.1, fun q d hd => hs.unlocked.2 q d (Arena.cell_drop_cases hd).2⟩, ?_,
    fun q => ?_⟩
  · obtain ⟨hne, hd⟩ := Arena.cell_drop_cases hd
    rw [hs.count q d hd, List.count_erase_of_ne hne]
  · by_cases e : q = p
    · subst e
      simp [hcur, hnotin]
    · rw [Arena.cell_drop_of_ne e, List.mem_erase_of_ne e]
      exact hs.live q hq
  · exact hs.marked q d (Arena.cell_drop_cases hd).2
  · simp only [Bool.false_eq_true, false_iff, not_exists, not_and, not_not]
    intro q hq
    by_contra hcq
    have := hs.one q (List.mem_of_mem_erase hq) p hm hcq hcur
    exact hnotin (this ▸ hq)
  · refine List.nodup_cons.2 ⟨fun hf => ?_, hs.once⟩
    rw [((hs.gone p).1 hf).2] at hp
    cases hp
  · by_cases e : q = p
    · subst e
      simp [hs.old q hm]
    · simp only [List.mem_cons, e, false_or, Arena.next_drop, Arena.cell_drop_of_ne e]
      exact hs.gone q

/-- A configuration that stays alive is given back: it is current, or somebody else holds it. -/
theorem Held.release_keep {p : Nat} {c : Cfg Unit} (hs : Held s held) (hm : p ∈ held)
    (hp : s.heap.cell p = some c) (hk : ¬ (c.cfReloaded = true ∧ c.cfRefCount - 1 < 1)) :
    Held { s with heap := s.heap.put p { c with cfRefCount := c.cfRefCount - 1 } }
      (held.erase p) := by
  have hcount := hs.count p c hp
  have hpos := List.count_pos_iff.2 hm
  have herase : (held.erase p).count p = held.count p - 1 := List.count_erase_self
  have hstay : s.curCfg ≠ some p → p ∈ held.erase p := fun hcur => by
    have hr := (hs.marked p c hp).2 hcur
    refine List.count_pos_iff.1 ?_
    have : ¬ c.cfRefCount - 1 < 1 := fun h => hk ⟨hr, h⟩
    omega
  obtain ⟨k, d, hkcur, hkd⟩ := hs.cur
  refine ⟨?_, fun q d hd => ?_, fun q hq => ?_, fun q hq => hs.old q (List.mem_of_mem_erase hq),
    fun q d hd => ?_,
    fun q hq r hr => hs.one q (List.mem_of_mem_erase hq) r (List.mem_of_mem_erase hr), ?_,
    ⟨hs.unlocked.1, fun q d hd => ?_⟩, hs.once, fun q => ?_⟩
  · by_cases e : k = p
    · subst e
      exact ⟨k, _, hkcur, Arena.cell_put_self hp⟩
    · exact ⟨k, d, hkcur, (Arena.cell_put_of_ne e).trans hkd⟩
  · rcases Arena.cell_put_cases hp hd with ⟨rfl, rfl⟩ | ⟨hq, hd⟩
    · simp only [hcount, herase]
      omega
    · rw [hs.count q d hd, List.count_erase_of_ne hq]
  · rw [Arena.cell_put_eq_none hp, hs.live q hq]
    by_cases e : q = p
    · subst e
      exact ⟨fun h => absurd hm h.2, fun h => absurd (hstay h.1) h.2⟩
    · rw [List.mem_erase_of_ne e]
  · rcases Arena.cell_put_cases hp hd with ⟨rfl, rfl⟩ | ⟨hq, hd⟩
    · exact hs.marked q c hp
    · exact hs.marked q d hd
  · rw [hs.flag]
    constructor
    · rintro ⟨q, hq, hcq⟩
      by_cases e : q = p
      · exact ⟨q, e ▸ hstay (e ▸ hcq), hcq⟩
      · exact ⟨q, (List.mem_erase_of_ne e).2 hq, hcq⟩
    · exact fun ⟨q, hq, hcq⟩ => ⟨q, List.mem_of_mem_erase hq, hcq⟩
  · rcases Arena.cell_put_cases hp hd with ⟨rfl, rfl⟩ | ⟨hq, hd⟩
    · exact hs.unlocked.2 q c hp
    · exact hs.unlocked.2 q d hd
  · rw [Arena.cell_put_eq_none hp]
    exact hs.gone q

theorem Held.release (hs : Held s held) {p : Nat} (hm : p ∈ held) :
    ∃ s', configRelease s p = some s' ∧ Held s' (held.erase p) := by
  obtain ⟨c, hp⟩ : ∃ c, s.heap.cell p = some c := by
    refine Option.ne_none_iff_exists'.1 fun hn => ?_
    exact ((hs.live p (hs.old p hm)).1 hn).2 hm
  have hl := hs.unlocked.2 p c hp
  by_cases hk : c.cfReloaded = true ∧ c.cfRefCount - 1 < 1
  · exact ⟨_, configRelease_last hp hl hs.unlocked.1 hk, hs.release_last hm hp hk⟩
  · exact ⟨_, configRelease_keep hp hl hk, hs.release_keep hm hp hk⟩

/-- With the flag down, whatever is held is the current configuration. -/
theorem Held.only {p : Nat} (hs : Held s held) (hr : s.configReloading = false)
    (hcur : s.curCfg = some p) : ∀ q ∈ held, q = p := by
  intro q hq
  by_contra hne
  have hup : s.configReloading = true :=
    hs.flag.2 ⟨q, hq, fun e => hne (Option.some.inj (hcur.symm.trans e)).symm⟩
  rw [hr] at hup
  cases hup

/-- With the flag down, no other configuration is alive. -/
theorem Held.alone {p q : Nat} {d : Cfg Unit} (hs : Held s held) (hr : s.configReloading = false)
    (hcur : s.curCfg = some p) (hd : s.heap.cell q = some d) : q = p := by
  by_contra hne
  have hdead : s.heap.cell q = none := by
    refine (hs.live q (Arena.lt_next hd)).2 ⟨fun e => ?_, fun hm => hne (hs.only hr hcur q hm)⟩
    exact hne (Option.some.inj (hcur.symm.trans e)).symm
  rw [hdead] at hd
  cases hd

/-- A reload when nobody holds the current configuration. -/
theorem Held.reload_free {p : Nat} {c : Cfg Unit} (hs : Held s held)
    (hr : s.configReloading = false) (hcur : s.curCfg = some p) (hp : s.heap.cell p = some c)
    (hk : c.cfRefCount < 1) :
    Held { s with
      heap := (s.heap.alloc (.init Unit)).drop p, curCfg := some s.heap.next,
      configReloading := false, freed := p :: s.freed } held := by
  have hplt := Arena.lt_next hp
  have hcount := hs.count p c hp
  have hheld : held = [] := by
    refine List.eq_nil_iff_forall_not_mem.2 fun q hq => ?_
    have := List.count_pos_iff.2 (hs.only hr hcur q hq ▸ hq)
    omega
  subst hheld
  -- the new configuration is the only one
  have hnext : ((s.heap.alloc (.init Unit)).drop p).cell s.heap.next = some (.init Unit) := by
    rw [Arena.cell_drop_of_ne (by omega), Arena.cell_alloc_self]
  have hcell : ∀ q d, ((s.heap.alloc (.init Unit)).drop p).cell q = some d →
      q = s.heap.next ∧ d = .init Unit := fun q d hd => by
    obtain ⟨hne, hd⟩ := Arena.cell_drop_cases hd
    rcases Arena.cell_alloc_cases hd with h | ⟨-, hd⟩
    · exact h
    · exact absurd (hs.alone hr hcur hd) hne
  have hnone : ∀ q, ((s.heap.alloc (.init Unit)).drop p).cell q = none ↔ q ≠ s.heap.next := by
    refine fun q => ⟨fun h e => ?_, fun h => ?_⟩
    · rw [e, hnext] at h
      cases h
    · exact Option.eq_none_iff_forall_ne_some.2 fun d hd => h (hcell q d hd).1
  refine ⟨⟨_, _, rfl, hnext⟩, fun q d hd => ?_, fun q _ => ?_, by simp, fun q d hd => ?_,
    by simp, by simp, ⟨hs.unlocked.1, fun q d hd => ?_⟩, ?_, fun q => ?_⟩
  · rw [(hcell q d hd).2]
    rfl
  · simpa [eq_comm] using hnone q
  · obtain ⟨rfl, rfl⟩ := hcell q d hd
    simp [Cfg.init]
  · rw [(hcell q d hd).2]
    rfl
  · refine List.nodup_cons.2 ⟨fun hf => ?_, hs.once⟩
    rw [((hs.gone p).1 hf).2] at hp
    cases hp
  · rw [List.mem_cons, hs.gone, hnone]
    simp only [Arena.next_drop, Arena.next_alloc]
    constructor
    · rintro (rfl | ⟨h1, -⟩) <;> omega
    · rintro ⟨h1, h2⟩
      by_cases e : q = p
      · exact .inl e
      · refine .inr ⟨by omega, Option.eq_none_iff_forall_ne_some.2 fun d hd => ?_⟩
        exact e (hs.alone hr hcur hd)

/-- A reload when somebody does: the replaced configuration is marked, and stays for them. -/
theorem Held.reload_mark {p : Nat} {c : Cfg Unit} (hs : Held s held)
    (hr : s.configReloading = false) (hcur : s.curCfg = some p) (hp : s.heap.cell p = some c)
    (hk : ¬ c.cfRefCount < 1) :
    Held { s with
      heap := (s.heap.alloc (.init Unit)).put p { c with cfReloaded := true },
      curCfg := some s.heap.next, configReloading := true } held := by
  have hplt := Arena.lt_next hp
  have hpn : p ≠ s.heap.next := by omega
  have hcount := hs.count p c hp
  have hmem : p ∈ held := List.count_pos_iff.1 (by omega)
  have honly := hs.only hr hcur
  have hnew : held.count s.heap.next = 0 := List.count_eq_zero.2 fun hm => by
    have := honly _ hm
    omega
  have hp1 : (s.heap.alloc (.init Unit)).cell p = some c :=
    (Arena.cell_alloc_of_lt hplt).trans hp
  -- the new configuration and the marked one are the only ones
  have hnext : ((s.heap.alloc (.init Unit)).put p { c with cfReloaded := true }).cell
      s.heap.next = some (.init Unit) := by
    rw [Arena.cell_put_of_ne (Ne.symm hpn), Arena.cell_alloc_self]
  have hcell : ∀ q d, ((s.heap.alloc (.init Unit)).put p { c with cfReloaded := true }).cell q =
      some d → (q = s.heap.next ∧ d = .init Unit) ∨
        (q = p ∧ d = { c with cfReloaded := true }) := fun q d hd => by
    rcases Arena.cell_put_cases hp1 hd with h | ⟨hne, hd⟩
    · exact .inr h
    rcases Arena.cell_alloc_cases hd with h | ⟨-, hd⟩
    · exact .inl h
    · exact absurd (hs.alone hr hcur hd) hne
  have hnone : ∀ q, ((s.heap.alloc (.init Unit)).put p { c with cfReloaded := true }).cell q =
      none ↔ q ≠ s.heap.next ∧ q ≠ p := by
    refine fun q => ⟨fun h => ⟨fun e => ?_, fun e => ?_⟩, fun h => ?_⟩
    · rw [e, hnext] at h
      cases h
    · rw [e, Arena.cell_put_self hp1] at h
      cases h
    · refine Option.eq_none_iff_forall_ne_some.2 fun d hd => ?_
      rcases hcell q d hd with ⟨e, -⟩ | ⟨e, -⟩
      · exact h.1 e
      · exact h.2 e
  refine ⟨⟨_, _, rfl, hnext⟩, fun q d hd => ?_, fun q _ => ?_, fun q hq => ?_, fun q d hd => ?_,
    fun q hq r hr _ _ => (honly q hq).trans (honly r hr).symm, ?_,
    ⟨hs.unlocked.1, fun q d hd => ?_⟩, hs.once, fun q => ?_⟩
  · rcases hcell q d hd with ⟨rfl, rfl⟩ | ⟨rfl, rfl⟩
    · rw [hnew]
      rfl
    · exact hcount
  · rw [hnone]
    refine ⟨fun h => ⟨fun e => h.1 (Option.some.inj e).symm, fun hm => h.2 (honly q hm)⟩,
      fun h => ⟨fun e => h.1 (e ▸ rfl), fun e => h.2 (e ▸ hmem)⟩⟩
  · rw [honly q hq]
    simp only [Arena.next_put, Arena.next_alloc]
    omega
  · rcases hcell q d hd with ⟨rfl, rfl⟩ | ⟨rfl, rfl⟩
    · simp [Cfg.init]
    · simp [Ne.symm hpn]
  · exact ⟨fun _ => ⟨p, hmem, fun e => hpn (Option.some.inj e).symm⟩, fun _ => rfl⟩
  · rcases hcell q d hd with ⟨rfl, rfl⟩ | ⟨rfl, rfl⟩
    · rfl
    · exact hs.unlocked.2 q c hp
  · rw [hs.gone, hnone]
    simp only [Arena.next_put, Arena.next_alloc]
    constructor
    · rintro ⟨h1, h2⟩
      refine ⟨by omega, by omega, fun e => ?_⟩
      rw [e, hp] at h2
      cases h2
    · rintro ⟨h1, h2, h3⟩
      refine ⟨by omega, Option.eq_none_iff_forall_ne_some.2 fun d hd => ?_⟩
      exact h3 (hs.alone hr hcur hd)

/-- A reload refuses exactly while the flag is up. -/
theorem Held.reload (hs : Held s held) (ok : Bool) :
    ∃ r s', reloadConfig s ok = some (r, s') ∧ Held s' held ∧
      (r = .positive ↔ s.configReloading = true) := by
  by_cases hr : s.configReloading = true
  · exact ⟨.positive, s, by simp [reloadConfig, hr], hs, by simp [hr]⟩
  rw [Bool.not_eq_true] at hr
  cases ok with
  | false => exact ⟨.error, s, by simp [reloadConfig, hr], hs, by simp [hr]⟩
  | true =>
    obtain ⟨p, c, hcur, hp⟩ := hs.cur
    have hl := hs.unlocked.2 p c hp
    by_cases hk : c.cfRefCount < 1
    · exact ⟨.success, _, reloadConfig_free hr hs.unlocked.1 hcur hp hl hk,
        hs.reload_free hr hcur hp hk, by simp [hr]⟩
    · exact ⟨.success, _, reloadConfig_mark hr hs.unlocked.1 hcur hp hl hk,
        hs.reload_mark hr hcur hp hk, by simp [hr]⟩

end

/-- Every sequence of complete calls keeps the invariant. -/
theorem Reachable.held {s : Store Unit} {held : List Nat} (h : Reachable s held) : Held s held := by
  induction h with
  | load h => exact Held.start h
  | retrieve _ he ih =>
    obtain ⟨p, s', he', hs'⟩ := ih.retrieve
    obtain ⟨rfl, rfl⟩ := Prod.mk.inj (Option.some.inj (he'.symm.trans he))
    exact hs'
  | release _ hm he ih =>
    obtain ⟨s', he', hs'⟩ := ih.release hm
    obtain rfl := Option.some.inj (he'.symm.trans he)
    exact hs'
  | reload ok _ he ih =>
    obtain ⟨r, s', he', hs', -⟩ := ih.reload ok
    obtain ⟨-, rfl⟩ := Prod.mk.inj (Option.some.inj (he'.symm.trans he))
    exact hs'

/-- **Configuration lifetime**: counters count the holders; the dead configurations are those that
nobody holds and that are not current, each freed once; one replaced configuration at most is
alive, and the reload flag and the answer of `reload_config` tell whether it is. -/
theorem config_lifetime {s : Store Unit} {held : List Nat} (h : Reachable s held) :
    (∀ p c, s.heap.cell p = some c → c.cfRefCount = held.count p) ∧
    (∀ p < s.heap.next, s.heap.cell p = none ↔ s.curCfg ≠ some p ∧ held.count p = 0) ∧
    (s.freed.Nodup ∧ ∀ p, p ∈ s.freed ↔ p < s.heap.next ∧ s.heap.cell p = none) ∧
    (∀ p q, s.heap.cell p ≠ none → s.curCfg ≠ some p → s.heap.cell q ≠ none →
      s.curCfg ≠ some q → p = q) ∧
    (s.configReloading = true ↔ ∃ p ∈ held, s.curCfg ≠ some p) ∧
    (∃ p s', configRetrieve s = some (p, s') ∧ s.curCfg = some p) ∧
    (∀ p ∈ held, ∃ s', configRelease s p = some s') ∧
    ∀ ok, ∃ r s', reloadConfig s ok = some (r, s') ∧
      (r = .positive ↔ ∃ p ∈ held, s.curCfg ≠ some p) := by
  have hs := h.held
  have hheld : ∀ p, s.heap.cell p ≠ none → s.curCfg ≠ some p → p ∈ held := fun p hp hcur => by
    obtain ⟨c, hc⟩ := Option.ne_none_iff_exists'.1 hp
    by_contra hm
    exact hp ((hs.live p (Arena.lt_next hc)).2 ⟨hcur, hm⟩)
  refine ⟨hs.count, fun p hp => ?_, ⟨hs.once, hs.gone⟩, fun p q hp hcp hq hcq => ?_, hs.flag, ?_,
    fun p hm => ?_, fun ok => ?_⟩
  · rw [List.count_eq_zero]; exact hs.live p hp
  · exact hs.one p (hheld p hp hcp) q (hheld q hq hcq) hcp hcq
  · obtain ⟨p, c, hcur, hp⟩ := hs.cur
    exact ⟨p, _, configRetrieve_eq hcur hp (hs.unlocked.2 p c hp), hcur⟩
  · obtain ⟨s', he, -⟩ := hs.release hm
    exact ⟨s', he⟩
  · obtain ⟨r, s', he, -, hr⟩ := hs.reload ok
    exact ⟨r, s', he, hr.trans hs.flag⟩

/-- Two holders and a reload: the replaced configuration lives until the second release. -/
theorem config_lifetime_two :
    ∃ s, Reachable s [0, 0] ∧ s.curCfg = some 1 ∧ s.configReloading = true ∧
      ∃ c, s.heap.cell 0 = some c ∧ c.cfRefCount = 2 := by
  obtain ⟨s, hs, hcur, hflag, c, hc⟩ : ∃ s, Reachable s [0, 0] ∧ s.curCfg = some 1 ∧
      s.configReloading = true ∧ ∃ c, s.heap.cell 0 = some c :=
    ⟨_, .reload true (.retrieve (.retrieve (.load rfl) rfl) rfl) rfl, rfl, rfl, _, rfl⟩
  exact ⟨s, hs, hcur, hflag, c, hc, (config_lifetime hs).1 0 c hc⟩

end Messasy
