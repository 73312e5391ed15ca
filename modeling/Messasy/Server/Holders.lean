import Mathlib.Data.List.Count
import Mathlib.Data.List.Perm.Basic
import Messasy.Server.Server

/-!
# Who holds which configuration

In every run of the server the counters count the sessions, handlers and the accept loop that hold
the configuration, so what a party works with is alive, and no call on the configurations fails.
-/

namespace Messasy

open Lib

/-! ## Lists of parties -/

section
variable {α β : Type} [DecidableEq β] {f : α → Option β} {l : List α} {i : Nat} {a : α}

/-- One party goes from `a` to `b`. -/
theorem count_filterMap_set (h : l[i]? = some a) (b : α) (x : β) :
    ((l.set i b).filterMap f).count x + (f a).toList.count x =
      (l.filterMap f).count x + (f b).toList.count x := by
  induction l generalizing i with
  | nil => cases h
  | cons c l ih =>
    cases i with
    | zero =>
      obtain rfl : c = a := by simpa using h
      rw [List.set_cons_zero, List.filterMap_cons, List.filterMap_cons]
      cases f c <;> cases f b <;> simp [List.count_cons, Nat.add_comm, Nat.add_left_comm]
    | succ i =>
      have hi := ih (i := i) (by simpa using h)
      cases hc : f c with
      | none => simpa only [List.set_cons_succ, List.filterMap_cons, hc] using hi
      | some y =>
        simp only [List.set_cons_succ, List.filterMap_cons, hc, List.count_cons]
        omega

end

theorem Held.perm {s : Store Unit} {l₁ l₂ : List Nat} (h : Held s l₁) (hp : l₁.Perm l₂) :
    Held s l₂ :=
  ⟨h.cur, fun p c hc => by rw [h.count p c hc, hp.count_eq],
    fun p hlt => by rw [h.live p hlt, hp.mem_iff], fun p hm => h.old p (hp.mem_iff.2 hm), h.marked,
    fun p hm q hq => h.one p (hp.mem_iff.2 hm) q (hp.mem_iff.2 hq),
    h.flag.trans (exists_congr fun p => by rw [hp.mem_iff]), h.unlocked, h.once, h.gone⟩

/-! ## One connection -/

/-- The session works on the configuration `cfg` and has its reference, or it has given it back. -/
def Conn.Ok (c : Conn) (cfg : Config) : Prop :=
  (c.phase ≠ none ∧ Valid cfg c.world) ∨
    (c.world.priv = none ∧ c.world.calls = [.retrieve, .release])

section
variable {cfg : Config} {env : Env} {w w' : World} {cb : Callback} {r : Sfsistat} {c c' : Conn}

/-- An abort whose pass fails gives the configuration back, once. -/
theorem Valid.step_or (h : Valid cfg w) (he : w.step env cb = some (r, w')) :
    Valid cfg w' ∨ (w'.priv = none ∧ w'.calls = [.retrieve, .release]) := by
  obtain ⟨e, hmain, hfin⟩ := Option.bind_eq_some_iff.1 he
  have hv := Valid.main (w := { w with os := .start }) ⟨h.priv, h.calls⟩ hmain
  cases e with
  | return_ r1 w1 =>
    cases hfin
    exact .inl hv
  | abort r1 w1 =>
    obtain ⟨⟨r2, w2⟩, h2, hst⟩ := Option.map_eq_some_iff.1 hfin
    cases hst
    obtain ⟨priv, hw, hp⟩ := hv.priv
    rw [mlfiAbort_eq (w := w1) hw] at h2
    obtain ⟨⟨n, w3⟩, hx, h3⟩ := Option.bind_eq_some_iff.1 h2
    have hv3 : Valid cfg w3 := Valid.exec hv hp hx
    dsimp only at h3
    split at h3
    · exact .inl (hv3.eomCleanup h3)
    · obtain ⟨⟨r4, w4⟩, h4, hst⟩ := Option.map_eq_some_iff.1 h3
      cases hst
      obtain ⟨priv3, hw3, -⟩ := hv3.priv
      unfold mlfiCleanup at h4
      rw [hw3] at h4
      dsimp only at h4
      split at h4
      · cases h4
      · obtain ⟨heap, -, hst⟩ := Option.map_eq_some_iff.1 h4
        cases hst
        exact .inr ⟨rfl, by simp [mlfiFreepriv, hv3.calls]⟩

/-- Without a record only the abort callback returns, and does nothing. -/
theorem World.step_freed (h : w.priv = none) (he : w.step env cb = some (r, w')) :
    w'.priv = none ∧ w'.calls = w.calls ∧ w'.os.out = [] := by
  obtain ⟨e, hmain, hfin⟩ := Option.bind_eq_some_iff.1 he
  cases cb <;> simp only [World.main, mlfiEnvfrom, mlfiEnvrcpt, mlfiHeader, mlfiBody, mlfiEom, h,
    Option.map_none, reduceCtorEq, Option.some.injEq] at hmain
  subst hmain
  simp only [Ending.finish, mlfiAbort, mlfiCleanup, Option.map_some, Option.some.injEq,
    Prod.mk.injEq] at hfin
  obtain ⟨-, rfl⟩ := hfin
  exact ⟨rfl, rfl, rfl⟩

theorem Conn.cfg_of_valid (h : Valid cfg c.world) : c.cfg = some c.addr := by
  obtain ⟨priv, hw, -⟩ := h.priv
  rw [Conn.cfg, hw, Option.map_some]

theorem Conn.cfg_of_freed (h : c.world.priv = none) : c.cfg = none := by
  rw [Conn.cfg, h, Option.map_none]

/-- **Step.** An event of a connection keeps its reference, or gives it back by one release. -/
theorem Conn.Ok.step {e : ConnEvent} (h : c.Ok cfg) (he : c.step e = some c') :
    c'.addr = c.addr ∧ c'.Ok cfg ∧
      ((c'.world.calls.drop c.world.calls.length = [] ∧ c'.cfg = c.cfg) ∨
      (c'.world.calls.drop c.world.calls.length = [.release] ∧ c.cfg = some c.addr ∧
        c'.cfg = none)) := by
  cases e with
  | callback env cb =>
    obtain ⟨ph, -, he⟩ := Option.bind_eq_some_iff.1 he
    split at he
    · obtain ⟨⟨r, w'⟩, hstep, hst⟩ := Option.map_eq_some_iff.1 he
      cases hst
      refine ⟨rfl, ?_⟩
      rcases h with ⟨-, hv⟩ | ⟨hn, hc⟩
      · rcases hv.step_or hstep with hv' | ⟨hn', hc'⟩
        · refine ⟨.inl ⟨by simp, hv'⟩, .inl ⟨by simp [hv.calls, hv'.calls], ?_⟩⟩
          rw [cfg_of_valid hv, cfg_of_valid hv']
        · exact ⟨.inr ⟨hn', hc'⟩, .inr ⟨by simp [hv.calls, hc'], cfg_of_valid hv,
            cfg_of_freed hn'⟩⟩
      · obtain ⟨hn', hc', -⟩ := World.step_freed hn hstep
        refine ⟨.inr ⟨hn', hc'.trans hc⟩, .inl ⟨by simp [hc'], ?_⟩⟩
        rw [cfg_of_freed hn, cfg_of_freed hn']
    · cases he
  | close =>
    obtain ⟨ph, -, hst⟩ := Option.map_eq_some_iff.1 he
    cases hst
    refine ⟨rfl, ?_⟩
    rcases h with ⟨-, hv⟩ | ⟨hn, hc⟩
    · obtain ⟨priv, hw, -⟩ := hv.priv
      have hclose : mlfiClose c.world =
          (.accept, { c.world with priv := none, calls := [.retrieve, .release] }) := by
        simp [mlfiClose, mlfiFreepriv, hw, hv.calls]
      rw [hclose]
      exact ⟨.inr ⟨rfl, rfl⟩, .inr ⟨by simp [hv.calls], cfg_of_valid hv, cfg_of_freed rfl⟩⟩
    · have hclose : mlfiClose c.world = (.accept, c.world) := by
        simp [mlfiClose, mlfiFreepriv, hn]
      rw [hclose]
      exact ⟨.inr ⟨hn, hc⟩, .inl ⟨by simp, rfl⟩⟩

/-- `mlfi_connect` keeps the configuration, or gives it back at once. -/
theorem Conn.start_cases (p : Nat) (cfg : Config) (env : Env) :
    ((Conn.start p cfg env).cfg = some p ∧ (Conn.start p cfg env).Ok cfg ∧
      (Conn.start p cfg env).world.calls = [.retrieve]) ∨
    ((Conn.start p cfg env).cfg = none ∧
      (Conn.start p cfg env).world.calls = [.retrieve, .release]) := by
  unfold Conn.start Conn.cfg Conn.Ok mlfiConnect
  cases env.time with
  | none => exact .inr ⟨rfl, rfl⟩
  | some t => exact .inl ⟨rfl, .inl ⟨by simp, ⟨_, rfl, rfl⟩, rfl⟩, rfl⟩

end

/-! ## The calls on the configurations -/

section
variable {s : Store Unit} {held : List Nat}

theorem Held.retrieve_cur (hs : Held s held) : ∃ p s', configRetrieve s = some (p, s') ∧
    s.curCfg = some p ∧ s'.curCfg = s.curCfg ∧ s'.heap.next = s.heap.next ∧
      Held s' (p :: held) := by
  obtain ⟨p, s', he, hs'⟩ := hs.retrieve
  obtain ⟨q, c, hcur, hq⟩ := hs.cur
  have heq := configRetrieve_eq hcur hq (hs.unlocked.2 q c hq)
  obtain ⟨rfl, rfl⟩ := Prod.mk.inj (Option.some.inj (heq.symm.trans he))
  exact ⟨q, _, heq, hcur, rfl, rfl, hs'⟩

theorem Held.release_cur (hs : Held s held) {p : Nat} (hm : p ∈ held) :
    ∃ s', configRelease s p = some s' ∧ s'.curCfg = s.curCfg ∧ s'.heap.next = s.heap.next ∧
      Held s' (held.erase p) := by
  obtain ⟨c, hp⟩ : ∃ c, s.heap.cell p = some c := by
    refine Option.ne_none_iff_exists'.1 fun hn => ?_
    exact ((hs.live p (hs.old p hm)).1 hn).2 hm
  have hl := hs.unlocked.2 p c hp
  by_cases hk : c.cfReloaded = true ∧ c.cfRefCount - 1 < 1
  · exact ⟨_, configRelease_last hp hl hs.unlocked.1 hk, rfl, rfl, hs.release_last hm hp hk⟩
  · exact ⟨_, configRelease_keep hp hl hk, rfl, rfl, hs.release_keep hm hp hk⟩

/-- A reload that succeeds makes a new configuration the current one; another one does nothing. -/
theorem Held.reload_cur (hs : Held s held) (ok : Bool) : ∃ r s', reloadConfig s ok = some (r, s') ∧
    Held s' held ∧ ((r = .success ∧ ok = true ∧ s.configReloading = false ∧
      s'.curCfg = some s.heap.next ∧ s'.heap.next = s.heap.next + 1) ∨ (r ≠ .success ∧ s' = s)) := by
  by_cases hr : s.configReloading = true
  · exact ⟨.positive, s, by simp [reloadConfig, hr], hs, .inr ⟨by simp, rfl⟩⟩
  rw [Bool.not_eq_true] at hr
  cases ok with
  | false => exact ⟨.error, s, by simp [reloadConfig, hr], hs, .inr ⟨by simp, rfl⟩⟩
  | true =>
    obtain ⟨p, c, hcur, hp⟩ := hs.cur
    have hl := hs.unlocked.2 p c hp
    by_cases hk : c.cfRefCount < 1
    · exact ⟨.success, _, reloadConfig_free hr hs.unlocked.1 hcur hp hl hk,
        hs.reload_free hr hcur hp hk, .inl ⟨rfl, rfl, hr, rfl, rfl⟩⟩
    · exact ⟨.success, _, reloadConfig_mark hr hs.unlocked.1 hcur hp hl hk,
        hs.reload_mark hr hcur hp hk, .inl ⟨rfl, rfl, hr, rfl, rfl⟩⟩

end

/-! ## The invariant -/

/-- A handler holds a configuration while it compares the password of it. -/
def Handler.Ok (h : Handler) (loaded : Nat → Loaded) : Prop :=
  match h.cfg with
  | none => ∀ a pw, h.request.pc ≠ .compare a pw
  | some p => ∃ a, h.request.pc = .compare a (loaded p).cfAdminpassword

section
variable {loaded : Nat → Loaded} {c : Conn} {h : Handler}

/-- What is held does not change its contents when another configuration is loaded. -/
theorem Conn.Ok.mono (hok : c.Ok (loaded c.addr).config) {loaded' : Nat → Loaded}
    (heq : c.cfg = some c.addr → loaded' c.addr = loaded c.addr) :
    c.Ok (loaded' c.addr).config := by
  rcases hok with ⟨hph, hv⟩ | hf
  · rw [heq (Conn.cfg_of_valid hv)]
    exact .inl ⟨hph, hv⟩
  · exact .inr hf

theorem Handler.Ok.mono (hok : h.Ok loaded) {loaded' : Nat → Loaded}
    (heq : ∀ p, h.cfg = some p → loaded' p = loaded p) : h.Ok loaded' := by
  unfold Handler.Ok at hok ⊢
  split at hok
  · exact hok
  · rename_i p hp
    rw [heq p hp]
    exact hok

/-- Outside the comparison a handler holds nothing. -/
theorem Handler.Ok.cfg_none (hok : h.Ok loaded) (hpc : ∀ a pw, h.request.pc ≠ .compare a pw) :
    h.cfg = none := by
  unfold Handler.Ok at hok
  split at hok
  · assumption
  · obtain ⟨a, ha⟩ := hok
    exact absurd ha (hpc _ _)

end

namespace Server

/-- What holds between the events. -/
structure Inv (s : Server) : Prop where
  held : Held s.store s.held
  conns : ∀ c ∈ s.conns, c.Ok (s.loaded c.addr).config
  handlers : ∀ h ∈ s.handlers, h.Ok s.loaded

/-- The party of the event can go on. -/
def Ready (s : Server) : ServerEvent → Prop
  | .connect _ => True
  | .conn i e => ∃ c c', s.conns[i]? = some c ∧ c.step e = some c'
  | .accept => s.manager = none
  | .accepted _ => s.manager ≠ none
  | .line t r => ∃ h q, s.handlers[t]? = some h ∧ h.request.line r = some q
  | .go t => ∃ h q, s.handlers[t]? = some h ∧ h.request.go [] = some q
  | .reload t _ => ∃ h, s.handlers[t]? = some h ∧ h.request.pc = .reloading

/-- The store behind calls that load nothing. -/
structure Kept (old new : Store Unit) (held : List Nat) : Prop where
  cur : new.curCfg = old.curCfg
  next : new.heap.next = old.heap.next
  held : Held new held

/-- What the events do. -/
inductive Steps (s : Server) : ServerEvent → Server → Prop
  | connect {env : Env} {p : Nat} {store : Store Unit} : s.store.curCfg = some p →
      (Conn.start p (s.loaded p).config env).cfg = some p →
      (Conn.start p (s.loaded p).config env).Ok (s.loaded p).config →
      Kept s.store store (p :: s.held) →
      Steps s (.connect env)
        { s with store, conns := s.conns ++ [Conn.start p (s.loaded p).config env] }
  | refused {env : Env} {store : Store Unit} : Kept s.store store s.held →
      Steps s (.connect env) { s with store }
  | conn {i : Nat} {e : ConnEvent} {c c' : Conn} {store : Store Unit} : s.conns[i]? = some c →
      c.step e = some c' → Kept s.store store { s with conns := s.conns.set i c' }.held →
      Steps s (.conn i e) { s with store, conns := s.conns.set i c' }
  | accept {p : Nat} {store : Store Unit} : s.manager = none → s.store.curCfg = some p →
      Kept s.store store (p :: s.held) → Steps s .accept { s with store, manager := some p }
  | accepted {ok : Bool} {p : Nat} {store : Store Unit} : s.manager = some p →
      Kept s.store store { s with manager := none }.held →
      Steps s (.accepted ok) { s with
        store
        manager := none
        handlers := if ok then s.handlers ++ [⟨.start, none⟩] else s.handlers }
  | line {t : Nat} {r : ReadLine} {h : Handler} {q : Request} : s.handlers[t]? = some h →
      h.request.line r = some q → Steps s (.line t r) (s.setRequest t q h.cfg)
  | retrieve {t p : Nat} {h : Handler} {a : Str} {store : Store Unit} : s.handlers[t]? = some h →
      h.cfg = none → h.request.pc = .retrieve a → s.store.curCfg = some p →
      Kept s.store store (p :: s.held) →
      Steps s (.go t) ({ s with store }.setRequest t
        { h.request with pc := .compare a (s.loaded p).cfAdminpassword } (some p))
  | compare {t p : Nat} {h : Handler} {q : Request} {a : Str} {store : Store Unit} :
      s.handlers[t]? = some h → h.cfg = some p →
      h.request.pc = .compare a (s.loaded p).cfAdminpassword →
      h.request.go (s.loaded p).cfAdminpassword = some q →
      Kept s.store store (s.setRequest t q none).held →
      Steps s (.go t) ({ s with store }.setRequest t q none)
  | call {t : Nat} {h : Handler} : s.handlers[t]? = some h → h.cfg = none →
      h.request.pc = .reload →
      Steps s (.go t) (s.setRequest t { h.request with pc := .reloading } none)
  | reload {t : Nat} {h : Handler} {q : Request} {cfg : Loaded} {store : Store Unit} :
      s.handlers[t]? = some h → h.request.pc = .reloading →
      h.request.returned true = some q → s.store.configReloading = false →
      store.curCfg = some s.store.heap.next → store.heap.next = s.store.heap.next + 1 →
      Held store s.held →
      Steps s (.reload t (some cfg)) ({ s with
        store
        loaded := Function.update s.loaded s.store.heap.next cfg }.setRequest t q h.cfg)
  | failed {t : Nat} {h : Handler} {q : Request} {cfg : Option Loaded} : s.handlers[t]? = some h →
      h.request.pc = .reloading → h.request.returned false = some q →
      Steps s (.reload t cfg) (s.setRequest t q h.cfg)

section
variable {s s' : Server} {e : ServerEvent} {c : Conn} {h : Handler} {i t p : Nat}
  {loaded : Nat → Loaded}

theorem mem_held_conn (hm : c ∈ s.conns) (hc : c.cfg = some p) : p ∈ s.held :=
  List.mem_append_left _ (List.mem_filterMap.2 ⟨c, hm, hc⟩)

theorem mem_held_handler (hm : h ∈ s.handlers) (hc : h.cfg = some p) : p ∈ s.held :=
  List.mem_append_right _ (List.mem_append_left _ (List.mem_filterMap.2 ⟨h, hm, hc⟩))

/-! ## The holders behind an event -/

theorem count_held_conn (hc : s.conns[i]? = some c) (c' : Conn) (x : Nat) :
    { s with conns := s.conns.set i c' }.held.count x + c.cfg.toList.count x =
      s.held.count x + c'.cfg.toList.count x := by
  have := count_filterMap_set (f := Conn.cfg) hc c' x
  simp only [held, List.count_append]
  omega

theorem count_held_handler (hh : s.handlers[t]? = some h) (q : Request) (cfg : Option Nat)
    (x : Nat) : (s.setRequest t q cfg).held.count x + h.cfg.toList.count x =
      s.held.count x + cfg.toList.count x := by
  have := count_filterMap_set (f := Handler.cfg) hh ⟨q, cfg⟩ x
  dsimp only at this
  simp only [held, setRequest, List.count_append]
  omega

/-- Who gives `p` back no longer holds it. -/
theorem Kept.erase {store : Store Unit} {held' : List Nat} (hk : Kept s.store store (s.held.erase p))
    (hcount : ∀ x, held'.count x + [p].count x = s.held.count x) : Kept s.store store held' := by
  refine ⟨hk.cur, hk.next, hk.held.perm (List.perm_iff_count.2 fun x => ?_)⟩
  have := hcount x
  rw [List.count_erase]
  rw [List.count_singleton] at this
  split at this
  · rw [if_pos ‹_›]
    omega
  · rw [if_neg ‹_›]
    omega

/-! ## Each event -/

theorem Inv.release (hs : s.Inv) (hm : p ∈ s.held) :
    ∃ store, configRelease s.store p = some store ∧ Kept s.store store (s.held.erase p) := by
  obtain ⟨store, he, hcur, hn, hheld⟩ := hs.held.release_cur hm
  exact ⟨store, he, hcur, hn, hheld⟩

theorem Inv.retrieve (hs : s.Inv) : ∃ p store, configRetrieve s.store = some (p, store) ∧
    s.store.curCfg = some p ∧ Kept s.store store (p :: s.held) := by
  obtain ⟨p, store, he, hp, hcur, hn, hheld⟩ := hs.held.retrieve_cur
  exact ⟨p, store, he, hp, hcur, hn, hheld⟩

theorem Inv.connect (hs : s.Inv) (env : Env) :
    ∃ s', s.step (.connect env) = some s' ∧ s.Steps (.connect env) s' := by
  obtain ⟨p, store, hr, hcur, hk⟩ := hs.retrieve
  simp only [step, Server.connect, hr, Option.bind_eq_bind, Option.bind_some]
  rcases Conn.start_cases p (s.loaded p).config env with ⟨hcfg, hok, hcalls⟩ | ⟨hcfg, hcalls⟩
  · simp only [hcalls, hcfg, List.drop_succ_cons, List.drop_nil, perform, Option.bind_some,
      Option.isSome_some, if_true, Option.pure_def]
    exact ⟨_, rfl, .connect hcur hcfg hok hk⟩
  · obtain ⟨store', he, hcur', hn', hheld'⟩ :=
      hk.held.release_cur (List.mem_cons_self (a := p) (l := s.held))
    simp only [hcalls, hcfg, List.drop_succ_cons, List.drop_zero, perform, he, Option.bind_some,
      Option.isSome_none, Bool.false_eq_true, if_false, Option.pure_def]
    rw [List.erase_cons_head] at hheld'
    exact ⟨_, rfl, .refused ⟨hcur'.trans hk.cur, hn'.trans hk.next, hheld'⟩⟩

theorem Inv.conn (hs : s.Inv) {e : ConnEvent} {c' : Conn} (hc : s.conns[i]? = some c)
    (he : c.step e = some c') :
    ∃ s', s.step (.conn i e) = some s' ∧ s.Steps (.conn i e) s' := by
  have hm : c ∈ s.conns := List.mem_of_getElem? hc
  obtain ⟨haddr, -, ⟨hcalls, hcfg⟩ | ⟨hcalls, hcfg, hcfg'⟩⟩ := (hs.conns c hm).step he
  · refine ⟨{ s with conns := s.conns.set i c' }, ?_, ?_⟩
    · simp only [step, stepConn, hc, he, hcalls, perform, Option.bind_eq_bind, Option.bind_some,
        Option.pure_def]
    · refine @Steps.conn _ _ _ _ _ s.store hc he ⟨rfl, rfl, hs.held.perm ?_⟩
      refine List.perm_iff_count.2 fun x => ?_
      have := count_held_conn hc c' x
      rw [hcfg] at this
      omega
  · obtain ⟨store, hr, hk⟩ := hs.release (mem_held_conn hm hcfg)
    refine ⟨{ s with store, conns := s.conns.set i c' }, ?_, .conn hc he (hk.erase fun x => ?_)⟩
    · simp only [step, stepConn, hc, he, hcalls, perform, hr, Option.bind_eq_bind,
        Option.bind_some, Option.pure_def]
    · have := count_held_conn hc c' x
      rw [hcfg, hcfg'] at this
      simpa using this

theorem Inv.go (hs : s.Inv) {q : Request} (hh : s.handlers[t]? = some h)
    (hq : h.request.go [] = some q) : ∃ s', s.step (.go t) = some s' ∧ s.Steps (.go t) s' := by
  have hm : h ∈ s.handlers := List.mem_of_getElem? hh
  have hok := hs.handlers h hm
  unfold Handler.Ok at hok
  cases hcfg : h.cfg with
  | none =>
    rw [hcfg] at hok
    rcases Request.go_cases hq with ⟨a, hpc, -, -⟩ | ⟨a, w, hpc, -⟩ | ⟨a, hpc, -⟩ | ⟨hpc, -, -⟩
    · obtain ⟨p, store, hr, hcur, hk⟩ := hs.retrieve
      refine ⟨_, ?_, .retrieve hh hcfg hpc hcur hk⟩
      simp only [step, Server.go, hh, hcfg, hpc, hr, Request.go, Option.bind_eq_bind,
        Option.bind_some, Option.pure_def]
    · exact absurd hpc (hok _ _)
    · exact absurd hpc (hok _ _)
    · refine ⟨_, ?_, .call hh hcfg hpc⟩
      simp only [step, Server.go, hh, hcfg, hpc, Request.go, Option.bind_eq_bind,
        Option.bind_some, Option.pure_def]
  | some p =>
    rw [hcfg] at hok
    obtain ⟨a, hpc⟩ := hok
    obtain ⟨store, hr, hk⟩ := hs.release (mem_held_handler hm hcfg)
    obtain ⟨q', hq'⟩ : ∃ q', h.request.go (s.loaded p).cfAdminpassword = some q' := by
      simp only [Request.go, hpc]
      split <;> exact ⟨_, rfl⟩
    refine ⟨_, ?_, .compare hh hcfg hpc hq' (hk.erase fun x => ?_)⟩
    · simp only [step, Server.go, hh, hcfg, hq', hr, Option.bind_eq_bind, Option.bind_some,
        Option.pure_def]
    · have := count_held_handler hh q' none x
      rw [hcfg] at this
      simpa using this

theorem Inv.reload (hs : s.Inv) (hh : s.handlers[t]? = some h) (hpc : h.request.pc = .reloading)
    (cfg : Option Loaded) :
    ∃ s', s.step (.reload t cfg) = some s' ∧ s.Steps (.reload t cfg) s' := by
  have hret : ∀ ok, ∃ q, h.request.returned ok = some q := fun ok => by
    simp only [Request.returned, hpc]
    split <;> exact ⟨_, rfl⟩
  obtain ⟨r, store, hr, hheld, ⟨rfl, hcfg, hflag, hcur, hn⟩ | ⟨hne, rfl⟩⟩ :=
    hs.held.reload_cur cfg.isSome
  · obtain ⟨cfg, rfl⟩ := Option.isSome_iff_exists.1 hcfg
    obtain ⟨q, hq⟩ := hret true
    refine ⟨_, ?_, .reload hh hpc hq hflag hcur hn hheld⟩
    have htrue : (Rc.success == Rc.success) = true := by decide
    simp only [step, Server.reload, hh, hpc, if_true, hr, htrue, hq, Option.bind_eq_bind,
      Option.bind_some, Option.pure_def, Store.setConfig]
  · obtain ⟨q, hq⟩ := hret false
    refine ⟨_, ?_, .failed hh hpc hq⟩
    have hfalse : (r == Rc.success) = false := by simpa using hne
    simp only [step, Server.reload, hh, hpc, if_true, hr, hfalse, hq, Option.bind_eq_bind,
      Option.bind_some, Option.pure_def]
    cases r
    · exact absurd rfl hne
    · rfl
    · rfl

/-- Every event of a party that can go on has a result. -/
theorem Inv.steps (hs : s.Inv) (hready : s.Ready e) : ∃ s', s.step e = some s' ∧ s.Steps e s' := by
  cases e with
  | connect env => exact hs.connect env
  | conn i e =>
    obtain ⟨c, c', hc, he⟩ := hready
    exact hs.conn hc he
  | accept =>
    obtain ⟨p, store, hr, hcur, hk⟩ := hs.retrieve
    have hnone : s.manager = none := hready
    refine ⟨_, ?_, .accept hnone hcur hk⟩
    simp only [step, hnone, hr, Option.isSome_none, Bool.false_eq_true, if_false, Option.map_some]
  | accepted ok =>
    obtain ⟨p, hp⟩ := Option.ne_none_iff_exists'.1 hready
    have hm : p ∈ s.held := by simp [Server.held, hp]
    obtain ⟨store, hr, hk⟩ := hs.release hm
    refine ⟨_, ?_, .accepted hp (hk.erase fun x => ?_)⟩
    · simp only [step, hp, hr, Option.bind_some, Option.map_some]
    · simp [Server.held, hp, List.count_append, Nat.add_assoc]
  | line t r =>
    obtain ⟨h, q, hh, hq⟩ := hready
    refine ⟨_, ?_, .line hh hq⟩
    simp only [step, hh, hq, Option.bind_some, Option.map_some]
  | go t =>
    obtain ⟨h, q, hh, hq⟩ := hready
    exact hs.go hh hq
  | reload t cfg =>
    obtain ⟨h, hh, hpc⟩ := hready
    exact hs.reload hh hpc cfg

/-- An event that has a result was possible. -/
theorem ready_of_step (he : s.step e = some s') : s.Ready e := by
  cases e with
  | connect env => trivial
  | conn i e =>
    simp only [step, stepConn, Option.bind_eq_bind] at he
    obtain ⟨c, hc, he⟩ := Option.bind_eq_some_iff.1 he
    obtain ⟨c', hc', -⟩ := Option.bind_eq_some_iff.1 he
    exact ⟨c, c', hc, hc'⟩
  | accept =>
    by_contra hne
    obtain ⟨p, hp⟩ := Option.ne_none_iff_exists'.1 hne
    simp [step, hp] at he
  | accepted ok =>
    intro hnone
    simp [step, hnone] at he
  | line t r =>
    obtain ⟨h, hh, he⟩ := Option.bind_eq_some_iff.1 he
    obtain ⟨q, hq, -⟩ := Option.map_eq_some_iff.1 he
    exact ⟨h, q, hh, hq⟩
  | go t =>
    simp only [step, Server.go, Option.bind_eq_bind] at he
    obtain ⟨h, hh, he⟩ := Option.bind_eq_some_iff.1 he
    have hsome : ∀ pw pw', (h.request.go pw).isSome → ∃ q, h.request.go pw' = some q := by
      intro pw pw' hgo
      unfold Request.go at hgo ⊢
      split at hgo
      · exact ⟨_, rfl⟩
      · split <;> exact ⟨_, rfl⟩
      · exact ⟨_, rfl⟩
      · cases hgo
    have hgo : ∃ pw q, h.request.go pw = some q := by
      split at he
      · split at he
        · obtain ⟨⟨p, store⟩, -, he⟩ := Option.bind_eq_some_iff.1 he
          obtain ⟨q, hq, -⟩ := Option.bind_eq_some_iff.1 he
          exact ⟨_, q, hq⟩
        · obtain ⟨q, hq, -⟩ := Option.bind_eq_some_iff.1 he
          exact ⟨_, q, hq⟩
      · obtain ⟨q, hq, -⟩ := Option.bind_eq_some_iff.1 he
        exact ⟨_, q, hq⟩
    obtain ⟨pw, q, hq⟩ := hgo
    obtain ⟨q', hq'⟩ := hsome pw [] (by rw [hq]; rfl)
    exact ⟨h, q', hh, hq'⟩
  | reload t cfg =>
    simp only [step, Server.reload, Option.bind_eq_bind] at he
    obtain ⟨h, hh, he⟩ := Option.bind_eq_some_iff.1 he
    split at he
    · exact ⟨h, hh, ‹_›⟩
    · cases he

theorem Inv.step_cases (hs : s.Inv) (he : s.step e = some s') : s.Steps e s' := by
  obtain ⟨s1, he1, hsteps⟩ := hs.steps (ready_of_step he)
  obtain rfl := Option.some.inj (he1.symm.trans he)
  exact hsteps

/-! ## The invariant over runs -/

theorem Inv.start (first : Loaded) : (start first).Inv :=
  ⟨Held.start rfl, by simp [Server.start], by simp [Server.start]⟩

/-- The handlers behind an event of one of them. -/
theorem Inv.setRequest (hs : s.Inv) {q : Request} {cfg : Option Nat}
    (hok : Handler.Ok ⟨q, cfg⟩ loaded)
    (heq : ∀ p ∈ s.held, loaded p = s.loaded p) :
    ∀ h ∈ s.handlers.set t ⟨q, cfg⟩, h.Ok loaded := by
  intro h hm
  rcases List.mem_or_eq_of_mem_set hm with hm | rfl
  · exact (hs.handlers h hm).mono fun p hp => heq p (mem_held_handler hm hp)
  · exact hok

theorem perm_setRequest (hh : s.handlers[t]? = some h) (q : Request) :
    s.held.Perm (s.setRequest t q h.cfg).held :=
  List.perm_iff_count.2 fun x => by
    have := count_held_handler hh q h.cfg x
    omega

theorem Inv.returned (hs : s.Inv) (hh : s.handlers[t]? = some h) (hpc : h.request.pc = .reloading)
    {ok : Bool} {q : Request} (hq : h.request.returned ok = some q) :
    Handler.Ok ⟨q, h.cfg⟩ loaded := by
  have hnone := (hs.handlers h (List.mem_of_getElem? hh)).cfg_none
    fun a pw hpc' => (by cases hpc.symm.trans hpc')
  rw [hnone]
  intro a pw hpc'
  rcases (Request.returned_cases hq).2.2 with hn | hn <;> cases hn.symm.trans hpc'

/-- **Step.** -/
theorem Inv.step (hs : s.Inv) (hstep : s.Steps e s') : s'.Inv := by
  cases hstep with
  | connect hcur hcfg hok hk =>
    refine ⟨hk.held.perm (List.perm_iff_count.2 fun x => ?_), fun c hc => ?_, hs.handlers⟩
    · simp only [Server.held, List.filterMap_append, List.filterMap_cons, hcfg, List.filterMap_nil,
        List.count_append, List.count_cons, List.count_nil]
      omega
    · rcases List.mem_append.1 hc with hc | hc
      · exact hs.conns c hc
      · obtain rfl := List.mem_singleton.1 hc
        exact hok
  | refused hk => exact ⟨hk.held, hs.conns, hs.handlers⟩
  | @conn i e c c' store hc he hk =>
    refine ⟨hk.held, fun d hd => ?_, hs.handlers⟩
    rcases List.mem_or_eq_of_mem_set hd with hd | rfl
    · exact hs.conns d hd
    · obtain ⟨haddr, hok, -⟩ := (hs.conns c (List.mem_of_getElem? hc)).step he
      rw [← haddr] at hok
      exact hok
  | accept hnone hcur hk =>
    refine ⟨hk.held.perm (List.perm_iff_count.2 fun x => ?_), hs.conns, hs.handlers⟩
    simp only [Server.held, hnone, Option.toList_none, Option.toList_some, List.count_append,
      List.count_cons, List.count_nil]
    omega
  | @accepted ok p store hp hk =>
    refine ⟨?_, hs.conns, ?_⟩
    · cases ok
      · exact hk.held
      · have : ({ s with
            store, manager := none, handlers := s.handlers ++ [⟨.start, none⟩] } : Server).held =
            { s with manager := none }.held := by
          simp [Server.held]
        rw [if_pos rfl, this]
        exact hk.held
    · intro h hm
      cases ok
      · exact hs.handlers h hm
      · rcases List.mem_append.1 hm with hm | hm
        · exact hs.handlers h hm
        · obtain rfl := List.mem_singleton.1 hm
          intro a pw hpc
          cases hpc
  | @line t r h q hh hq =>
    have hm := List.mem_of_getElem? hh
    have hok := hs.handlers h hm
    obtain ⟨hpc, hq⟩ := Request.line_eq hq
    have hnone := hok.cfg_none fun a pw hpc' => (by cases hpc.symm.trans hpc')
    refine ⟨hs.held.perm (perm_setRequest hh q), hs.conns, hs.setRequest ?_ fun _ _ => rfl⟩
    · rw [hnone, hq]
      intro a pw hpc'
      rcases (requestLine_next h.request.mc r).2 with hn | hn | ⟨hn, -⟩ | ⟨b, line, hn, -⟩ <;>
        cases hn.symm.trans hpc'
  | @retrieve t p h a store hh hcfg hpc hcur hk =>
    refine ⟨hk.held.perm (List.perm_iff_count.2 fun x => ?_), hs.conns,
      hs.setRequest ⟨a, rfl⟩ fun _ _ => rfl⟩
    have := count_held_handler hh
      { h.request with pc := .compare a (s.loaded p).cfAdminpassword } (some p) x
    rw [hcfg] at this
    simp only [Option.toList_none, List.count_nil, Option.toList_some, List.count_cons] at this
    simp only [List.count_cons]
    exact (by omega : _ = _).trans this.symm
  | @compare t p h q a store hh hcfg hpc hq hk =>
    refine ⟨hk.held, hs.conns, hs.setRequest ?_ fun _ _ => rfl⟩
    intro b pw hpc'
    rcases Request.go_cases hq with ⟨b', hpc1, -⟩ | ⟨b', w, -, -, -, hpc1⟩ | ⟨b', -, hpc1⟩ |
      ⟨hpc1, -⟩
    · cases hpc.symm.trans hpc1
    · cases hpc1.symm.trans hpc'
    · cases hpc1.symm.trans hpc'
    · cases hpc.symm.trans hpc1
  | @call t h hh hcfg hpc =>
    rw [← hcfg]
    refine ⟨hs.held.perm (perm_setRequest hh _), hs.conns, hs.setRequest ?_ fun _ _ => rfl⟩
    rw [hcfg]
    intro a pw hpc'
    cases hpc'
  | @reload t h q cfg store hh hpc hq hflag hcur hn hheld =>
    have hold : ∀ p ∈ s.held,
        Function.update s.loaded s.store.heap.next cfg p = s.loaded p := fun p hp =>
      Function.update_of_ne (Nat.ne_of_lt (hs.held.old p hp)) _ _
    refine ⟨hheld.perm (perm_setRequest hh q), fun c hc => ?_,
      hs.setRequest (hs.returned hh hpc hq) hold⟩
    exact (hs.conns c hc).mono fun hcfg => hold _ (mem_held_conn hc hcfg)
  | @failed t h q cfg hh hpc hq =>
    exact ⟨hs.held.perm (perm_setRequest hh q), hs.conns,
      hs.setRequest (hs.returned hh hpc hq) fun _ _ => rfl⟩

/-- **Run.** -/
theorem Inv.run {first : Loaded} {events : List ServerEvent}
    (h : run events (.start first) = some s) : s.Inv :=
  run_induction (P := fun _ s => s.Inv) (.start first)
    (fun _ _ _ _ _ hs he => hs.step (hs.step_cases he)) h

end

end Server

/-- In every run the counters count the holders, a configuration is alive while it is current or
held, sessions and handlers work on live configurations only, and no call fails. -/
theorem server_configurations {first : Loaded} {events : List ServerEvent} {s : Server}
    (h : Server.run events (.start first) = some s) :
    (∀ p c, s.store.heap.cell p = some c → c.cfRefCount = s.held.count p) ∧
    (∀ p, s.store.heap.cell p ≠ none ↔ s.store.curCfg = some p ∨ p ∈ s.held) ∧
    (s.store.freed.Nodup ∧
      ∀ p, p ∈ s.store.freed ↔ p < s.store.heap.next ∧ s.store.heap.cell p = none) ∧
    (∀ c ∈ s.conns, ∀ priv, c.world.priv = some priv →
      priv.config = (s.loaded c.addr).config ∧ s.store.heap.cell c.addr ≠ none) ∧
    (∀ h ∈ s.handlers, ∀ p, h.cfg = some p →
      (∃ a, h.request.pc = .compare a (s.loaded p).cfAdminpassword) ∧
        s.store.heap.cell p ≠ none) ∧
    (s.store.configReloading = true ↔ ∃ p ∈ s.held, s.store.curCfg ≠ some p) ∧
    ∀ e, s.Ready e → s.step e ≠ none := by
  have hs := Server.Inv.run h
  have hlive : ∀ p, s.store.heap.cell p ≠ none ↔ s.store.curCfg = some p ∨ p ∈ s.held := by
    intro p
    constructor
    · intro hp
      obtain ⟨c, hc⟩ := Option.ne_none_iff_exists'.1 hp
      have := (hs.held.live p (Arena.lt_next hc)).not
      tauto
    · rintro (hcur | hm)
      · obtain ⟨q, c, hq, hc⟩ := hs.held.cur
        obtain rfl := Option.some.inj (hq.symm.trans hcur)
        rw [hc]
        exact Option.some_ne_none c
      · intro hnone
        exact ((hs.held.live p (hs.held.old p hm)).1 hnone).2 hm
  refine ⟨hs.held.count, hlive, ⟨hs.held.once, hs.held.gone⟩, fun c hc priv hpriv => ?_,
    fun h hh p hp => ?_, hs.held.flag, fun e hready => ?_⟩
  · have hcfg : c.cfg = some c.addr := by rw [Conn.cfg, hpriv, Option.map_some]
    refine ⟨?_, (hlive _).2 (.inr (Server.mem_held_conn hc hcfg))⟩
    rcases hs.conns c hc with ⟨-, hv⟩ | ⟨hn, -⟩
    · obtain ⟨priv', hpriv', hconfig⟩ := hv.priv
      rwa [← Option.some.inj (hpriv'.symm.trans hpriv)]
    · cases hn.symm.trans hpriv
  · have hok := hs.handlers h hh
    unfold Handler.Ok at hok
    rw [hp] at hok
    exact ⟨hok, (hlive p).2 (.inr (Server.mem_held_handler hh hp))⟩
  · obtain ⟨s', he, -⟩ := hs.steps hready
    rw [he]
    exact Option.some_ne_none s'

/-- A session is open while a handler logs in and reloads. -/
def reloadRun : List ServerEvent :=
  [.connect .fine, .accept, .accepted true, .line 0 (.line (bytes "LOGIN secret")), .go 0,
    .conn 0 (.callback .fine (.envfrom (bytes "<a@example.com>"))), .go 0,
    .line 0 (.line (bytes "RELOAD")), .go 0,
    .reload 0 (some ⟨failingConfig 0, bytes "other"⟩)]

/-- The session keeps the configuration it began with. -/
theorem server_configurations_reloaded : ∃ s : Server,
    Server.run reloadRun (.start ⟨failingConfig 0, bytes "secret"⟩) = some s ∧
      s.store.curCfg = some 1 ∧ s.held = [0] ∧ s.store.heap.cell 0 ≠ none := by
  obtain ⟨s, hs, hcur, hheld⟩ : ∃ s : Server,
      Server.run reloadRun (.start ⟨failingConfig 0, bytes "secret"⟩) = some s ∧
        s.store.curCfg = some 1 ∧ s.held = [0] :=
    ⟨_, rfl, rfl, rfl⟩
  refine ⟨s, hs, hcur, hheld, ((server_configurations hs).2.1 0).2 (.inr ?_)⟩
  rw [hheld]
  exact List.mem_singleton_self 0

end Messasy
