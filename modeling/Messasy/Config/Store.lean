import Messasy.Lib.Arena
import Messasy.Utils.Strlist

/-!
# Reference-counted configurations (`msy_config.c`)

The loaded configurations with their counters and mutexes, the global `cur_cfg` and the reload
flag, and the primitive actions on them. `T` is the type of threads; a mutex knows the thread that
locked it. An action has no result (`none`) on a released configuration, on a NULL, and where
`pthread_mutex_lock` waits.
-/

namespace Messasy

open Lib

/-- The fields of `struct config` that `config_retrieve`, `config_release` and `reload_config`
use. -/
structure Cfg (T : Type) where
  cfRefCountLock : Option T
  cfRefCount : Int
  cfReloaded : Bool

/-- `init_config`. -/
def Cfg.init (T : Type) : Cfg T := ⟨none, 0, false⟩

/-- The configurations by address, `cur_cfg`, `config_lock`, `config_reloading`, and the addresses
given to `free_config` so far. -/
structure Store (T : Type) where
  heap : Arena (Cfg T)
  curCfg : Option Nat
  configLock : Option T
  configReloading : Bool
  freed : List Nat

namespace Store

variable {T : Type}

/-- Before the first load. -/
def empty : Store T := ⟨.empty, none, none, false, []⟩

/-- Change a live configuration. -/
def modify (s : Store T) (p : Nat) (f : Cfg T → Cfg T) : Option (Store T) :=
  (s.heap.cell p).map fun c => { s with heap := s.heap.put p (f c) }

/-- `pthread_mutex_lock` on a configuration's mutex. -/
def lock (s : Store T) (t : T) (p : Nat) : Option (Store T) :=
  match s.heap.cell p with
  | some c =>
    match c.cfRefCountLock with
    | none => s.modify p fun c => { c with cfRefCountLock := some t }
    | some _ => none
  | none => none

/-- `pthread_mutex_unlock`. -/
def unlock (s : Store T) (p : Nat) : Option (Store T) :=
  s.modify p fun c => { c with cfRefCountLock := none }

/-- Add to `cf_ref_count`. -/
def addRef (s : Store T) (p : Nat) (n : Int) : Option (Store T) :=
  s.modify p fun c => { c with cfRefCount := c.cfRefCount + n }

/-- `cf_reloaded = TRUE`. -/
def mark (s : Store T) (p : Nat) : Option (Store T) :=
  s.modify p fun c => { c with cfReloaded := true }

/-- `free_config`. -/
def freeConfig (s : Store T) (p : Nat) : Option (Store T) :=
  (s.heap.free p).map fun heap => { s with heap, freed := p :: s.freed }

/-- `set_config` when it succeeds: a new configuration, not current yet. -/
def setConfig (s : Store T) : Nat × Store T :=
  (s.heap.next, { s with heap := s.heap.alloc (.init T) })

/-- `pthread_mutex_lock(&config_lock)`. -/
def lockConfig (s : Store T) (t : T) : Option (Store T) :=
  match s.configLock with
  | none => some { s with configLock := some t }
  | some _ => none

def unlockConfig (s : Store T) : Store T := { s with configLock := none }

def setReloading (s : Store T) (b : Bool) : Store T := { s with configReloading := b }

/-! ## The effect of an action on a live configuration -/

section
variable {s : Store T} {h : Arena (Cfg T)} {p : Nat} {c : Cfg T} {cur : Option Nat}
  {cl : Option T} {r : Bool} {fr : List Nat}

theorem modify_eq (hp : s.heap.cell p = some c) (f : Cfg T → Cfg T) :
    s.modify p f = some { s with heap := s.heap.put p (f c) } := by
  simp only [modify, hp, Option.map_some]

theorem lock_eq {t : T} (hp : s.heap.cell p = some c) (hl : c.cfRefCountLock = none) :
    s.lock t p = some { s with heap := s.heap.put p { c with cfRefCountLock := some t } } := by
  simp only [lock, hp, hl, modify_eq hp]

/-- A configuration that was written is written again. -/
theorem modify_put (hp : h.cell p = some c) (c' : Cfg T) (f : Cfg T → Cfg T) :
    modify ⟨h.put p c', cur, cl, r, fr⟩ p f = some ⟨h.put p (f c'), cur, cl, r, fr⟩ := by
  rw [modify_eq (s := ⟨h.put p c', cur, cl, r, fr⟩) (Arena.cell_put_self hp), Arena.put_put]

theorem freeConfig_put (hp : h.cell p = some c) (c' : Cfg T) :
    freeConfig ⟨h.put p c', cur, cl, r, fr⟩ p = some ⟨h.drop p, cur, cl, r, p :: fr⟩ := by
  simp only [freeConfig, Arena.free_of_live (Arena.cell_put_self hp), Arena.drop_put,
    Option.map_some]

end

/-! ## When an action has a result -/

theorem modify_eq_some {s s' : Store T} {p : Nat} {f : Cfg T → Cfg T} :
    s.modify p f = some s' ↔
      ∃ c, s.heap.cell p = some c ∧ s' = { s with heap := s.heap.put p (f c) } := by
  unfold modify
  cases s.heap.cell p <;> simp [eq_comm]

theorem lock_eq_some {s s' : Store T} {t : T} {p : Nat} :
    s.lock t p = some s' ↔ ∃ c, s.heap.cell p = some c ∧ c.cfRefCountLock = none ∧
      s' = { s with heap := s.heap.put p { c with cfRefCountLock := some t } } := by
  unfold lock
  cases hc : s.heap.cell p with
  | none => simp
  | some c => cases hl : c.cfRefCountLock <;> simp [modify_eq_some, hc, hl]

theorem freeConfig_eq_some {s s' : Store T} {p : Nat} :
    s.freeConfig p = some s' ↔ ∃ c, s.heap.cell p = some c ∧
      s' = { s with heap := s.heap.drop p, freed := p :: s.freed } := by
  unfold freeConfig Arena.free
  cases s.heap.cell p <;> simp [eq_comm]

theorem lockConfig_eq_some {s s' : Store T} {t : T} :
    s.lockConfig t = some s' ↔ s.configLock = none ∧ s' = { s with configLock := some t } := by
  unfold lockConfig
  cases s.configLock <;> simp [eq_comm]

end Store

end Messasy
