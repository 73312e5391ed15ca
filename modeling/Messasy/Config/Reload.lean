import Messasy.Config.Complete
import Messasy.Config.Lifetime

/-!
# Reloading, with the log

`reload_config` on the configurations in memory and on the destination of the log. `set_config`
points the log at the standard error first and at the place that the file names last; a reload
that fails in between leaves the configurations alone (`failed_reload_store`) and the log at the
standard error (`failed_reload_log`).
-/

namespace Messasy

open Lib

/-- What `reload_config` changes. -/
structure Process where
  store : Store Unit
  log : LogState

section
variable {P : Type}

/-- `reload_config`. A block that `set_config` allocates and frees again is not seen in the store.
There is no result behind a NULL that is used and behind a check that writes past its array. -/
def Process.reloadConfig (ld : Loader P) (file : Option Str) (pr : Process) :
    Option (Rc × Process) :=
  if pr.store.configReloading then some (.positive, pr)
  else
    match setConfig ld file pr.log with
    | (.error .null, _) | (.error .overflow, _) => none
    | (.error .error, log) =>
      (Messasy.reloadConfig pr.store false).map fun (ret, store) => (ret, ⟨store, log⟩)
    | (.ok _, log) =>
      (Messasy.reloadConfig pr.store true).map fun (ret, store) => (ret, ⟨store, log⟩)

/-- `cur_cfg`, every configuration with its counter and its mark, `config_reloading` and
`dgconfig_log`. -/
structure Process.Same (pr pr' : Process) : Prop where
  curCfg : pr'.store.curCfg = pr.store.curCfg
  configs : ∀ p, pr'.store.heap.cell p = pr.store.heap.cell p
  configReloading : pr'.store.configReloading = pr.store.configReloading
  dgconfigLog : pr'.log.dgconfigLog = pr.log.dgconfigLog

variable {ld : Loader P} {file : Option Str} {pr pr' : Process} {s s' : Store Unit} {r : Rc}

/-- A reload that gets its configuration succeeds, when it comes to its end. -/
theorem reloadConfig_true (hr : s.configReloading = false)
    (h : reloadConfig s true = some (r, s')) : r = .success := by
  simp only [reloadConfig, hr, Bool.false_eq_true, if_false, if_true] at h
  obtain ⟨s1, -, h⟩ := Option.bind_eq_some_iff.1 h
  split at h
  · cases h
    rfl
  · obtain ⟨s2, -, h⟩ := Option.bind_eq_some_iff.1 h
    cases h
    rfl

/-- The ways in which a reload fails. -/
theorem failed_reload_cases (h : pr.reloadConfig ld file = some (r, pr')) (hr : r ≠ .success) :
    (pr.store.configReloading = true ∧ pr' = pr) ∨
      (pr.store.configReloading = false ∧ pr' = ⟨pr.store, dgloginit pr.log⟩) := by
  unfold Process.reloadConfig at h
  by_cases hflag : pr.store.configReloading = true
  · rw [if_pos hflag] at h
    cases h
    exact .inl ⟨hflag, rfl⟩
  · rw [if_neg hflag] at h
    have hflag := Bool.eq_false_iff.2 hflag
    refine .inr ⟨hflag, ?_⟩
    split at h
    case h_1 => cases h
    case h_2 => cases h
    case h_3 log hset =>
      have hstore : reloadConfig pr.store false = some (.error, pr.store) := by
        simp only [reloadConfig, hflag, Bool.false_eq_true, if_false]
      rw [hstore, setConfig_error hset] at h
      cases h
      rfl
    case h_4 cfg log hset =>
      obtain ⟨⟨ret, store⟩, hstore, h⟩ := Option.map_eq_some_iff.1 h
      cases h
      exact absurd (reloadConfig_true hflag hstore) hr

/-- A failed reload leaves the configurations alone. -/
theorem failed_reload_store (h : pr.reloadConfig ld file = some (r, pr')) (hr : r ≠ .success) :
    pr'.store = pr.store := by
  rcases failed_reload_cases h hr with ⟨-, rfl⟩ | ⟨-, rfl⟩
  · rfl
  · rfl

/-- A reload that `set_config` ends leaves the log at the standard error. -/
theorem failed_reload_log (h : pr.reloadConfig ld file = some (r, pr')) (hr : r ≠ .success)
    (hflag : pr.store.configReloading = false) : pr'.log.dgconfigLog = .LOG := by
  rcases failed_reload_cases h hr with ⟨hon, -⟩ | ⟨-, rfl⟩
  · rw [hflag] at hon
    cases hon
  · rfl

/-- **A failed reload** changes nothing exactly when it stops before `set_config`, or when the log
was at the standard error before. -/
theorem failed_reload_same_iff (h : pr.reloadConfig ld file = some (r, pr'))
    (hr : r ≠ .success) :
    pr.Same pr' ↔ pr.store.configReloading = true ∨ pr.log.dgconfigLog = .LOG := by
  have hstore := failed_reload_store h hr
  constructor
  · intro hsame
    by_cases hflag : pr.store.configReloading = true
    · exact .inl hflag
    · exact .inr (hsame.dgconfigLog ▸ failed_reload_log h hr (Bool.eq_false_iff.2 hflag))
  · intro hcond
    refine ⟨by rw [hstore], fun p => by rw [hstore], by rw [hstore], ?_⟩
    rcases failed_reload_cases h hr with ⟨-, rfl⟩ | ⟨hflag, rfl⟩
    · rfl
    · rcases hcond with hon | hlog
      · rw [hflag] at hon
        cases hon
      · exact hlog.symm

end

/-- A process that logs to the standard error, and a file that is not there. -/
theorem failed_reload_same_iff_missing :
    ∃ pr', Process.reloadConfig exampleLoader none ⟨.empty, ⟨.LOG, none⟩⟩ = some (.error, pr') ∧
      (Process.Same ⟨.empty, ⟨.LOG, none⟩⟩ pr' ↔ Store.empty (T := Unit).configReloading = true ∨
        DgconfigLog.LOG = .LOG) := by
  have hrun : ((Process.reloadConfig exampleLoader none ⟨.empty, ⟨.LOG, none⟩⟩).map Prod.fst) =
      some .error := by decide +kernel
  obtain ⟨⟨r, pr'⟩, h, rfl⟩ := Option.map_eq_some_iff.1 hrun
  exact ⟨pr', h, failed_reload_same_iff h (by decide)⟩

/-- The first load is over and the log goes to `local1`; then the file is gone. -/
theorem failed_reload_changes : ¬ ∀ (ld : Loader Unit) (file : Option Str) (pr pr' : Process)
    (r : Rc), pr.reloadConfig ld file = some (r, pr') → r ≠ .success → pr.Same pr' := by
  intro hall
  have hrun : ((reloadConfig .empty true).bind fun start =>
      (Process.reloadConfig exampleLoader none ⟨start.2, ⟨.syslog, some (IDENT, 136)⟩⟩).map
        fun failed => (start.2.configReloading, failed.1)) = some (false, .error) := by
    decide +kernel
  obtain ⟨⟨_, s⟩, -, hrun⟩ := Option.bind_eq_some_iff.1 hrun
  obtain ⟨⟨r, pr'⟩, h, hp⟩ := Option.map_eq_some_iff.1 hrun
  simp only [Prod.mk.injEq] at hp
  obtain ⟨hflag, rfl⟩ := hp
  have hsame := (hall _ _ _ _ _ h (by decide)).dgconfigLog
  rw [failed_reload_log h (by decide) hflag] at hsame
  cases hsame

end Messasy
