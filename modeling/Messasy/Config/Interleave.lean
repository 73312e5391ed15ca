import Messasy.Config.Ownership

/-!
# `config_retrieve` against `reload_config`

The same three functions, one atomic action at a time: any number of threads retrieve and release,
one of them also reloads. `Pc` is where a thread stands and what its local variables hold;
`config_retrieve` reads `cur_cfg` anew for its lock, its counter, its result and its unlock.
-/

namespace Messasy

open Lib

/-- The next atomic action of a thread, with the values it has read. -/
inductive Pc
  | idle
  /-- `config_retrieve`: `p`, `q`, `r` and `u` are the values of `cur_cfg`. -/
  | retLock (p : Nat)
  | retReadCount (p : Nat)
  | retCount (p q : Nat)
  | retReadRet (p q : Nat)
  | retReadUnlock (p q r : Nat)
  | retUnlock (p q r u : Nat)
  | retReturn (q r : Nat)
  /-- `config_release`. -/
  | relLock (cfg : Nat)
  | relCount (cfg : Nat)
  | relTest (cfg : Nat)
  /-- The last unlock of `config_release` and of `reload_config`. -/
  | unlock (cfg : Nat)
  /-- The release of a configuration that nobody holds, in both functions. -/
  | unlockFree (cfg : Nat)
  | free (cfg : Nat)
  | flagLock
  | flagClear
  | flagUnlock
  /-- `reload_config`. -/
  | setConfig (ok : Bool)
  | setFlag (cfg : Nat)
  | swapLock (cfg : Nat)
  | swapRead (cfg : Nat)
  | swapWrite (cfg : Nat) (old : Option Nat)
  | swapUnlock (old : Option Nat)
  | oldLock (old : Nat)
  | oldTest (old : Nat)
  | oldMark (old : Nat)
  deriving DecidableEq

/-- What an atomic action does to the store. -/
inductive Action
  | read
  | lock (cfg : Nat)
  | unlock (cfg : Nat)
  | count (cfg : Nat) (n : Int)
  | mark (cfg : Nat)
  | free (cfg : Nat)
  | load
  | swap (cfg : Nat)
  | lockConfig
  | unlockConfig
  | flag (b : Bool)
  | return_ (cfg : Nat)

inductive Call
  | retrieve
  | release (cfg : Nat)
  | reload (ok : Bool)

/-- The configurations, the threads, and the configurations that were returned by
`config_retrieve` and not yet given to `config_release`. -/
structure Sys (T : Type) where
  store : Store T
  pc : T → Pc
  held : List Nat

section
variable {T : Type}

/-- The next action of a thread inside one of the functions, and where it stands behind it. -/
def Pc.next (s : Store T) : Pc → Option (Action × Pc)
  | .idle => none
  | .retLock p => some (.lock p, .retReadCount p)
  | .retReadCount p => s.curCfg.map fun q => (.read, .retCount p q)
  | .retCount p q => some (.count q 1, .retReadRet p q)
  | .retReadRet p q => s.curCfg.map fun r => (.read, .retReadUnlock p q r)
  | .retReadUnlock p q r => s.curCfg.map fun u => (.read, .retUnlock p q r u)
  | .retUnlock _ q r u => some (.unlock u, .retReturn q r)
  | .retReturn _ r => some (.return_ r, .idle)
  | .relLock cfg => some (.lock cfg, .relCount cfg)
  | .relCount cfg => some (.count cfg (-1), .relTest cfg)
  | .relTest cfg => (s.heap.cell cfg).map fun c =>
    (.read, if c.cfReloaded ∧ c.cfRefCount < 1 then .unlockFree cfg else .unlock cfg)
  | .unlock cfg => some (.unlock cfg, .idle)
  | .unlockFree cfg => some (.unlock cfg, .free cfg)
  | .free cfg => some (.free cfg, .flagLock)
  | .flagLock => some (.lockConfig, .flagClear)
  | .flagClear => some (.flag false, .flagUnlock)
  | .flagUnlock => some (.unlockConfig, .idle)
  | .setConfig ok => if ok then some (.load, .setFlag s.setConfig.1) else some (.read, .idle)
  | .setFlag cfg =>
    some (if s.curCfg.isSome then .flag true else .read, .swapLock cfg)
  | .swapLock cfg => some (.lockConfig, .swapRead cfg)
  | .swapRead cfg => some (.read, .swapWrite cfg s.curCfg)
  | .swapWrite cfg old => some (.swap cfg, .swapUnlock old)
  | .swapUnlock none => some (.unlockConfig, .idle)
  | .swapUnlock (some old) => some (.unlockConfig, .oldLock old)
  | .oldLock old => some (.lock old, .oldTest old)
  | .oldTest old => (s.heap.cell old).map fun c =>
    (.read, if c.cfRefCount < 1 then .unlockFree old else .oldMark old)
  | .oldMark old => some (.mark old, .unlock old)

/-- The action's effect. -/
def Store.act (s : Store T) (t : T) : Action → Option (Store T)
  | .read | .return_ _ => some s
  | .lock cfg => s.lock t cfg
  | .unlock cfg => s.unlock cfg
  | .count cfg n => s.addRef cfg n
  | .mark cfg => s.mark cfg
  | .free cfg => s.freeConfig cfg
  | .load => some s.setConfig.2
  | .swap cfg => some { s with curCfg := some cfg }
  | .lockConfig => s.lockConfig t
  | .unlockConfig => some s.unlockConfig
  | .flag b => some (s.setReloading b)

def Action.held (held : List Nat) : Action → List Nat
  | .return_ cfg => cfg :: held
  | _ => held

variable [DecidableEq T]

/-- A thread inside one of the functions goes on. -/
def Sys.go (s : Sys T) (t : T) : Option (Sys T) :=
  match (s.pc t).next s.store with
  | none => none
  | some (a, pc) => (s.store.act t a).map fun store =>
    { store, pc := Function.update s.pc t pc, held := a.held s.held }

/-- A thread outside the functions calls one; only the thread `m` reloads. The call of
`config_retrieve` reads `cur_cfg` for the first time, that of `reload_config` the flag. -/
def Sys.call (m : T) (s : Sys T) (t : T) : Call → Option (Sys T)
  | .retrieve => s.store.curCfg.map fun p => { s with pc := Function.update s.pc t (.retLock p) }
  | .release cfg =>
    if cfg ∈ s.held then
      some { s with pc := Function.update s.pc t (.relLock cfg), held := s.held.erase cfg }
    else none
  | .reload ok =>
    if t = m then
      if s.store.configReloading then some s
      else some { s with pc := Function.update s.pc t (.setConfig ok) }
    else none

/-- One atomic action of the thread `t`. -/
inductive Sys.Step (m : T) (s : Sys T) (t : T) (s' : Sys T) : Prop
  | call (c : Call) : s.pc t = .idle → s.call m t c = some s' → Step m s t s'
  | go : s.go t = some s' → Step m s t s'

/-- Behind the first load: one configuration, nobody in a function. -/
def Sys.start : Sys T :=
  ⟨⟨Arena.empty.alloc (.init T), some 0, none, false, []⟩, fun _ => .idle, []⟩

/-- The states that interleavings of the threads reach, when every action meets the condition
`ok`. -/
inductive Sys.Run (m : T) (ok : Sys T → T → Prop) : Sys T → Prop
  | start : Run m ok .start
  | step {s t s'} : Run m ok s → ok s t → s.Step m t s' → Run m ok s'

end

/-- The values of `cur_cfg` read by a `config_retrieve` that has read the first and not the last
one. -/
def Pc.window : Pc → List Nat
  | .retLock p => [p]
  | .retReadCount p => [p]
  | .retCount p q => [p, q]
  | .retReadRet p q => [p, q]
  | .retReadUnlock p q r => [p, q, r]
  | _ => []

/-- `cur_cfg` is written only while no `config_retrieve` is between its first and its last reading
of it. -/
def Sys.Quiet {T : Type} (s : Sys T) (t : T) : Prop :=
  ∀ cfg old, s.pc t = .swapWrite cfg old → ∀ t', (s.pc t').window = []

/-- The configuration whose mutex, counter, mark or memory the next action works on. -/
def Pc.target : Pc → Option Nat
  | .retLock p => some p
  | .retCount _ q => some q
  | .retUnlock _ _ _ u => some u
  | .relLock cfg | .relCount cfg | .relTest cfg => some cfg
  | .unlock cfg | .unlockFree cfg | .free cfg => some cfg
  | .oldLock old | .oldTest old | .oldMark old => some old
  | _ => none

/-- The next action of every thread is right: it works on a live configuration, a
`config_retrieve` unlocks the mutex that it locked, and returns a live configuration, the one that
it counted. -/
structure Safe {T : Type} (s : Sys T) : Prop where
  target : ∀ t p, (s.pc t).target = some p → s.store.heap.cell p ≠ none
  unlocks : ∀ t p q r u, s.pc t = .retUnlock p q r u → u = p
  returns : ∀ t q r, s.pc t = .retReturn q r → r = q ∧ s.store.heap.cell r ≠ none

/-! ## The role of a thread -/

def Pc.role : Pc → Role
  | .retLock p => { window := [p] }
  | .retReadCount p => { window := [p], locks := some p }
  | .retCount p q => { window := [p, q], locks := some p }
  | .retReadRet p q => { window := [p, q], locks := some p, owes := some q }
  | .retReadUnlock p q r => { window := [p, q, r], locks := some p, owes := some q }
  | .retUnlock p q _ _ => { locks := some p, owes := some q }
  | .retReturn q _ => { owes := some q }
  | .relLock cfg => { owes := some cfg }
  | .relCount cfg => { locks := some cfg, owes := some cfg }
  | .relTest cfg | .unlock cfg => { locks := some cfg }
  | .unlockFree cfg => { locks := some cfg, frees := some cfg }
  | .free cfg => { frees := some cfg }
  | .setFlag cfg | .swapLock cfg | .swapRead cfg => { fresh := some cfg }
  | .swapWrite cfg old => { fresh := some cfg, old := old }
  | .swapUnlock old => { old := old }
  | .oldLock old => { old := some old }
  | .oldTest old | .oldMark old => { locks := some old, old := some old }
  | _ => {}

theorem Pc.role_window (pc : Pc) : pc.role.window = pc.window := by cases pc <;> rfl

/-- What the role does not say: only the thread `m` is in `reload_config`, and the values that a
`config_retrieve` has read are one. -/
def Pc.Agrees {T : Type} (m t : T) : Pc → Prop
  | .retUnlock p q r u => q = p ∧ r = p ∧ u = p
  | .retReturn q r => r = q
  | .setConfig _ => t = m
  | _ => True

section
variable {T : Type} [Fintype T] [DecidableEq T] {m t : T} {s s' : Sys T}

structure Inv (m : T) (s : Sys T) : Prop where
  owned : Owned m s.store (fun t => (s.pc t).role) s.held
  agrees : ∀ t, (s.pc t).Agrees m t

omit [Fintype T] in
theorem role_update (pc : T → Pc) (t : T) (x : Pc) :
    (fun t' => (Function.update pc t x t').role) =
      Function.update (fun t' => (pc t').role) t x.role := by
  funext t'
  by_cases e : t' = t
  · subst e; simp
  · simp [e]

/-- The invariant when the thread `t` goes on. -/
theorem Inv.update (h : Inv m s) {store : Store T} {pc : Pc} {held : List Nat}
    (ho : Owned m store (Function.update (fun t => (s.pc t).role) t pc.role) held)
    (ha : pc.Agrees m t) : Inv m ⟨store, Function.update s.pc t pc, held⟩ := by
  refine ⟨by simpa only [role_update] using ho, fun t' => ?_⟩
  by_cases e : t' = t
  · subst e; simpa using ha
  · simpa [e] using h.agrees t'

theorem Inv.call (h : Inv m s) (hidle : s.pc t = .idle) {c : Call} (hc : s.call m t c = some s') :
    Inv m s' := by
  have ho := h.owned
  have hr : (s.pc t).role = {} := by rw [hidle]; rfl
  cases c with
  | retrieve =>
    obtain ⟨p, hp, rfl⟩ := Option.map_eq_some_iff.1 hc
    exact h.update (ho.read hr (w := [p]) (by simpa using hp)) trivial
  | release cfg =>
    by_cases hm : cfg ∈ s.held
    · simp only [Sys.call, hm, if_true, Option.some.injEq] at hc
      exact hc ▸ h.update (ho.release hr hm rfl) trivial
    · simp [Sys.call, hm] at hc
  | reload ok =>
    by_cases ht : t = m
    · by_cases hf : s.store.configReloading = true
      · simp only [Sys.call, ht, hf, if_true, Option.some.injEq] at hc
        exact hc ▸ h
      · simp only [Sys.call, ht, hf, if_true, Bool.false_eq_true, if_false,
          Option.some.injEq] at hc
        subst ht
        have hp : (Pc.setConfig ok).Agrees t t := rfl
        exact hc ▸ h.update (ho.read hr (w := []) (by simp)) hp
    · simp [Sys.call, ht] at hc

/-- The invariant when a thread inside one of the functions goes on: one case for each place it
can stand at. -/
theorem Inv.go (h : Inv m s) (hq : s.Quiet t) (hg : s.go t = some s') : Inv m s' := by
  have ho := h.owned
  have ha := h.agrees t
  have hr : ∀ pc, s.pc t = pc → (fun t => (s.pc t).role) t = pc.role := fun pc e => by rw [← e]
  have hkeep : ∀ pc, s.pc t = pc → Owned m s.store
      (Function.update (fun t => (s.pc t).role) t pc.role) s.held := fun pc e => by
    rw [← e, Function.update_eq_self]; exact ho
  obtain ⟨k, d, hk, -⟩ := ho.cur
  have hwin : ∀ p ∈ (s.pc t).role.window, p = k := fun p hp =>
    Option.some.inj (((ho.fits t).window p hp).symm.trans hk)
  unfold Sys.go at hg
  cases hpc : s.pc t <;> specialize hr _ hpc <;> specialize hkeep _ hpc <;>
    simp only [hpc, Pc.next, Option.map_eq_some_iff, reduceCtorEq, Store.act, Store.unlock,
      Store.addRef, Store.mark, Store.lock_eq_some, Store.modify_eq_some, Store.freeConfig_eq_some,
      Store.lockConfig_eq_some, Option.some.injEq] at hg
  case retLock p =>
    obtain ⟨_, ⟨c, hc, hl, rfl⟩, rfl⟩ := hg
    exact h.update (ho.lock hr hc hl (by simp [Pc.role, Role.refs]) rfl) trivial
  case retReadCount p =>
    rw [hk] at hg
    obtain ⟨_, rfl, rfl⟩ := hg
    have hp := hwin p (by simp [hpc, Pc.role])
    exact h.update (ho.read hr (w := [p, k]) (by simp [hk, hp])) trivial
  case retCount p q =>
    obtain ⟨_, ⟨c, hc, rfl⟩, rfl⟩ := hg
    have hp := hwin p (by simp [hpc, Pc.role])
    have hq := hwin q (by simp [hpc, Pc.role])
    exact h.update (ho.countUp hr hc (by rw [hq, ← hp]; rfl) rfl rfl) trivial
  case retReadRet p q =>
    rw [hk] at hg
    obtain ⟨_, rfl, rfl⟩ := hg
    have hp := hwin p (by simp [hpc, Pc.role])
    have hq := hwin q (by simp [hpc, Pc.role])
    exact h.update (ho.read hr (w := [p, q, k]) (by simp [hk, hp, hq])) trivial
  case retReadUnlock p q r =>
    rw [hk] at hg
    obtain ⟨_, rfl, rfl⟩ := hg
    have hp := hwin p (by simp [hpc, Pc.role])
    have hq := hwin q (by simp [hpc, Pc.role])
    have hr' := hwin r (by simp [hpc, Pc.role])
    exact h.update (ho.read hr (w := []) (by simp)) ⟨by rw [hp, hq], by rw [hp, hr'], hp.symm⟩
  case retUnlock p q r u =>
    rw [hpc] at ha
    obtain ⟨rfl, rfl, rfl⟩ := ha
    obtain ⟨_, ⟨c, hc, rfl⟩, rfl⟩ := hg
    exact h.update (ho.unlock hr hc rfl) rfl
  case retReturn q r =>
    rw [hpc] at ha
    obtain rfl : r = q := ha
    obtain ⟨_, rfl, rfl⟩ := hg
    exact h.update (ho.return_ hr rfl) trivial
  case relLock cfg =>
    obtain ⟨_, ⟨c, hc, hl, rfl⟩, rfl⟩ := hg
    exact h.update (ho.lock hr hc hl (by simp [Pc.role, Role.refs]) rfl) trivial
  case relCount cfg =>
    obtain ⟨_, ⟨c, hc, rfl⟩, rfl⟩ := hg
    exact h.update (ho.countDown hr hc rfl rfl rfl) trivial
  case relTest cfg =>
    have hlive := (ho.fits t).live cfg (by simp [hpc, Pc.role, Role.refs])
    obtain ⟨c, hc⟩ := Option.ne_none_iff_exists'.1 hlive
    rw [hc] at hg
    obtain ⟨_, rfl, rfl⟩ := hg
    by_cases ht : c.cfReloaded = true ∧ c.cfRefCount < 1
    · rw [if_pos ht]
      exact h.update (ho.test hr hc rfl rfl ht.2 (.inl ht.1)) trivial
    · rw [if_neg ht]
      exact h.update hkeep trivial
  case unlock cfg =>
    obtain ⟨_, ⟨c, hc, rfl⟩, rfl⟩ := hg
    exact h.update (ho.unlock hr hc rfl) trivial
  case unlockFree cfg =>
    obtain ⟨_, ⟨c, hc, rfl⟩, rfl⟩ := hg
    exact h.update (ho.unlock hr hc rfl) trivial
  case free cfg =>
    obtain ⟨_, ⟨c, hc, rfl⟩, rfl⟩ := hg
    exact h.update (ho.free hc hr) trivial
  case flagLock =>
    obtain ⟨_, ⟨-, rfl⟩, rfl⟩ := hg
    exact h.update (hkeep.congr rfl rfl) trivial
  case flagClear =>
    obtain ⟨_, rfl, rfl⟩ := hg
    exact h.update (hkeep.congr rfl rfl) trivial
  case flagUnlock =>
    obtain ⟨_, rfl, rfl⟩ := hg
    exact h.update (hkeep.congr rfl rfl) trivial
  case setConfig ok =>
    rw [hpc] at ha
    cases ok with
    | true =>
      obtain ⟨_, rfl, rfl⟩ := hg
      exact h.update (ho.load hr ha) trivial
    | false =>
      obtain ⟨_, rfl, rfl⟩ := hg
      exact h.update hkeep trivial
  case setFlag cfg =>
    simp only [hk, Option.isSome_some, if_true, Option.some.injEq] at hg
    obtain ⟨_, rfl, rfl⟩ := hg
    exact h.update (hkeep.congr rfl rfl) trivial
  case swapLock cfg =>
    obtain ⟨_, ⟨-, rfl⟩, rfl⟩ := hg
    exact h.update (hkeep.congr rfl rfl) trivial
  case swapRead cfg =>
    obtain ⟨_, rfl, rfl⟩ := hg
    exact h.update (ho.readOld hr) trivial
  case swapWrite cfg old =>
    obtain ⟨_, rfl, rfl⟩ := hg
    exact h.update (ho.swap hr fun t' => (Pc.role_window _).trans (hq cfg old hpc t')) trivial
  case swapUnlock old =>
    cases old with
    | none =>
      obtain ⟨_, rfl, rfl⟩ := hg
      exact h.update (hkeep.congr rfl rfl) trivial
    | some old =>
      obtain ⟨_, rfl, rfl⟩ := hg
      exact h.update (hkeep.congr rfl rfl) trivial
  case oldLock old =>
    obtain ⟨_, ⟨c, hc, hl, rfl⟩, rfl⟩ := hg
    exact h.update (ho.lock hr hc hl (by simp [Pc.role, Role.refs]) rfl) trivial
  case oldTest old =>
    have hlive := (ho.fits t).live old (by simp [hpc, Pc.role, Role.refs])
    obtain ⟨c, hc⟩ := Option.ne_none_iff_exists'.1 hlive
    rw [hc] at hg
    obtain ⟨_, rfl, rfl⟩ := hg
    by_cases ht : c.cfRefCount < 1
    · rw [if_pos ht]
      exact h.update (ho.test hr hc rfl rfl ht (.inr ⟨rfl, rfl⟩)) trivial
    · rw [if_neg ht]
      exact h.update hkeep trivial
  case oldMark old =>
    obtain ⟨_, ⟨c, hc, rfl⟩, rfl⟩ := hg
    exact h.update (ho.mark hr hc rfl rfl rfl) trivial

omit [DecidableEq T] in
theorem Inv.start (m : T) : Inv m .start := by
  have hcell : ∀ p c, (Sys.start (T := T)).store.heap.cell p = some c → c = .init T :=
    fun p c hc => by
      by_cases e : p = 0
      · subst e; exact (Option.some.inj hc).symm
      · rw [show (Sys.start (T := T)).store.heap.cell p = none from
          Arena.cell_alloc_of_ne (by simpa [Arena.empty] using e)] at hc
        cases hc
  refine ⟨⟨⟨0, .init T, rfl, rfl, rfl⟩, fun p c hc => ?_, by simp [Sys.start], fun t => ?_, ?_⟩,
    fun _ => trivial⟩
  · rw [hcell p c hc]
    simp [Sys.start, owing, Pc.role, Cfg.init]
  · constructor <;> simp [Sys.start, Pc.role, Role.refs]
    intro p c hc
    rw [hcell p c hc]
    simp [Cfg.init]
  · simp [Sys.start, Pc.role]

theorem Inv.run (h : Sys.Run m Sys.Quiet s) : Inv m s := by
  induction h with
  | start => exact Inv.start m
  | step _ hq hs ih =>
    cases hs with
    | call c hidle hc => exact ih.call hidle hc
    | go hg => exact ih.go hq hg

omit [DecidableEq T] in
theorem Inv.safe (h : Inv m s) : Safe s := by
  have ho := h.owned
  refine ⟨fun t p hp => (ho.fits t).live p ?_, fun t p q r u hpc => ?_, fun t q r hpc => ?_⟩
  · have ha := h.agrees t
    cases hpc : s.pc t <;> simp only [hpc, Pc.target, reduceCtorEq, Option.some.injEq] at hp
    case retUnlock =>
      rw [hpc] at ha
      obtain ⟨rfl, -, rfl⟩ := ha
      simp [Pc.role, Role.refs, hp]
    all_goals simp [Pc.role, Role.refs, hp]
  · have ha := h.agrees t
    rw [hpc] at ha
    exact ha.2.2
  · have ha := h.agrees t
    rw [hpc] at ha
    obtain rfl : r = q := ha
    exact ⟨rfl, (ho.fits t).live r (by simp [hpc, Pc.role, Role.refs])⟩

end

/-- **Retrieve against reload**: when `cur_cfg` is never written while a `config_retrieve` is
between its first and its last reading of it, no interleaving goes wrong. -/
theorem safe_of_quiet {T : Type} [Fintype T] [DecidableEq T] {m : T} {s : Sys T}
    (h : Sys.Run m Sys.Quiet s) : Safe s :=
  (Inv.run h).safe

/-- A whole swap, and then a retrieve. -/
theorem safe_of_quiet_two : ∃ s : Sys (Fin 2), (s.pc 0).target = some 1 ∧ Safe s := by
  have h0 : Sys.Run (1 : Fin 2) Sys.Quiet .start := .start
  have h1 := Sys.Run.step (t := 1) h0 (fun _ _ h => nomatch h) (.call (.reload true) rfl rfl)
  have h2 := Sys.Run.step (t := 1) h1 (fun _ _ h => nomatch h) (.go rfl)
  have h3 := Sys.Run.step (t := 1) h2 (fun _ _ h => nomatch h) (.go rfl)
  have h4 := Sys.Run.step (t := 1) h3 (fun _ _ h => nomatch h) (.go rfl)
  have h5 := Sys.Run.step (t := 1) h4 (fun _ _ h => nomatch h) (.go rfl)
  have h6 := Sys.Run.step (t := 1) h5 (fun _ _ _ => by decide) (.go rfl)
  have h7 := Sys.Run.step (t := 0) h6 (fun _ _ h => nomatch h) (.call .retrieve rfl rfl)
  exact ⟨_, rfl, safe_of_quiet h7⟩

/-- A retrieve has read `cur_cfg` for its lock; the reload frees what it read. -/
theorem retrieve_freed : ¬ ∀ s : Sys (Fin 2), Sys.Run 1 (fun _ _ => True) s → Safe s := by
  intro h
  obtain ⟨s, hs, ht, hc⟩ : ∃ s : Sys (Fin 2), Sys.Run 1 (fun _ _ => True) s ∧
      (s.pc 0).target = some 0 ∧ s.store.heap.cell 0 = none := by
    have h0 : Sys.Run (1 : Fin 2) (fun _ _ => True) .start := .start
    have h1 := Sys.Run.step (t := 0) h0 trivial (.call .retrieve rfl rfl)
    have h2 := Sys.Run.step (t := 1) h1 trivial (.call (.reload true) rfl rfl)
    have h3 := Sys.Run.step (t := 1) h2 trivial (.go rfl)
    have h4 := Sys.Run.step (t := 1) h3 trivial (.go rfl)
    have h5 := Sys.Run.step (t := 1) h4 trivial (.go rfl)
    have h6 := Sys.Run.step (t := 1) h5 trivial (.go rfl)
    have h7 := Sys.Run.step (t := 1) h6 trivial (.go rfl)
    have h8 := Sys.Run.step (t := 1) h7 trivial (.go rfl)
    have h9 := Sys.Run.step (t := 1) h8 trivial (.go rfl)
    have h10 := Sys.Run.step (t := 1) h9 trivial (.go rfl)
    have h11 := Sys.Run.step (t := 1) h10 trivial (.go rfl)
    have h12 := Sys.Run.step (t := 1) h11 trivial (.go rfl)
    exact ⟨_, h12, rfl, rfl⟩
  exact (h s hs).target 0 0 ht hc

end Messasy
