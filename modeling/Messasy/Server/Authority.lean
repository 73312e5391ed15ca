import Messasy.Server.Holders

/-!
# Who changes the current configuration

The configuration that new sessions begin with is replaced by the reload of a handler only, and by
none whose client has not sent the password that was current when the handler looked.
-/

namespace Messasy

open Lib

namespace Server

/-- The handler `t` has processed a `LOGIN` line whose only argument was the password that was
current when it retrieved the configuration. -/
def LoggedIn (first : Loaded) (events : List ServerEvent) (t : Nat) : Prop :=
  ∃ before line mid after s p,
    events = before ++ .line t (.line line) :: (mid ++ .go t :: after) ∧
    (∀ e ∈ mid, e.handler ≠ some t) ∧
    run (before ++ .line t (.line line) :: mid) (start first) = some s ∧
    s.store.curCfg = some p ∧ LoginLine (cstr line) (s.loaded p).cfAdminpassword

/-- What a handler proves about the events behind it. -/
structure Proves (first : Loaded) (events : List ServerEvent) (t : Nat) (q : Request) : Prop where
  auth : q.mc.isAuth = true → LoggedIn first events t
  retrieve : ∀ a, q.pc = .retrieve a → ∃ before line mid,
    events = before ++ .line t (.line line) :: mid ∧ (∀ e ∈ mid, e.handler ≠ some t) ∧
      LoginLine (cstr line) a
  compare : ∀ a, q.pc = .compare a a → LoggedIn first events t
  reload : q.pc = .reload ∨ q.pc = .reloading → q.mc.isAuth = true

section
variable {first : Loaded} {events : List ServerEvent} {s s' : Server} {e : ServerEvent} {t : Nat}
  {q q' : Request} {h : Handler}

theorem LoggedIn.append (hl : LoggedIn first events t) (l : List ServerEvent) :
    LoggedIn first (events ++ l) t := by
  obtain ⟨before, line, mid, after, s, p, rfl, hrest⟩ := hl
  exact ⟨before, line, mid, after ++ l, s, p, by simp, hrest⟩

theorem Proves.start : Proves first events t .start :=
  ⟨fun h => (by cases h), fun a h => (by cases h), fun a h => (by cases h),
    fun h => h.elim (fun h => (by cases h)) (fun h => (by cases h))⟩

/-- Another party's event. -/
theorem Proves.other (hp : Proves first events t q) (ht : e.handler ≠ some t) :
    Proves first (events ++ [e]) t q := by
  refine ⟨fun ha => (hp.auth ha).append _, fun a hpc => ?_,
    fun a hpc => (hp.compare a hpc).append _, hp.reload⟩
  obtain ⟨before, line, mid, rfl, hmid, hline⟩ := hp.retrieve a hpc
  refine ⟨before, line, mid ++ [e], by simp, fun e' he' => ?_, hline⟩
  rcases List.mem_append.1 he' with he' | he'
  · exact hmid e' he'
  · obtain rfl := List.mem_singleton.1 he'
    exact ht

/-- A line. -/
theorem Proves.line (hp : Proves first events t q) {r : ReadLine} (hq : q.line r = some q') :
    Proves first (events ++ [.line t r]) t q' := by
  obtain ⟨-, rfl⟩ := Request.line_eq hq
  obtain ⟨hauth, hnext⟩ := requestLine_next q.mc r
  refine ⟨fun ha => (hp.auth (hauth ▸ ha)).append _, fun a hpc => ?_, fun a hpc => ?_,
    fun hpc => ?_⟩
  · rcases hnext with hn | hn | ⟨hn, -⟩ | ⟨a', line, hn, rfl, hline⟩
    · cases hn.symm.trans hpc
    · cases hn.symm.trans hpc
    · cases hn.symm.trans hpc
    · cases hn.symm.trans hpc
      exact ⟨events, line, [], rfl, fun e he => (by cases he), hline⟩
  · rcases hnext with hn | hn | ⟨hn, -⟩ | ⟨a', line, hn, -, -⟩ <;> cases hn.symm.trans hpc
  · rcases hnext with hn | hn | ⟨-, ha⟩ | ⟨a', line, hn, -, -⟩
    · rcases hpc with hpc | hpc <;> cases hn.symm.trans hpc
    · rcases hpc with hpc | hpc <;> cases hn.symm.trans hpc
    · exact hauth.trans ha
    · rcases hpc with hpc | hpc <;> cases hn.symm.trans hpc

/-- A step inside a command, on the configuration that is current or was so. -/
theorem Proves.go (hp : Proves first events t q) (pw : Str) (hq : q.go pw = some q')
    (hcur : ∀ a, q.pc = .retrieve a → ∃ s p, run events (Server.start first) = some s ∧
      s.store.curCfg = some p ∧ (s.loaded p).cfAdminpassword = pw) :
    Proves first (events ++ [.go t]) t q' := by
  rcases Request.go_cases hq with ⟨a, hpc, hmc, hpc'⟩ | ⟨a, w, hpc, hne, ha, hpc'⟩ |
    ⟨a, hpc, hpc'⟩ | ⟨hpc, hmc, hpc'⟩
  · -- `config_retrieve`
    obtain ⟨s, p, hrun, hp', hpw⟩ := hcur a hpc
    refine ⟨fun ha => (hp.auth (hmc ▸ ha)).append _, fun b hb => ?_, fun b hb => ?_, fun hb => ?_⟩
    · cases hpc'.symm.trans hb
    · obtain ⟨before, line, mid, rfl, hmid, hline⟩ := hp.retrieve a hpc
      obtain ⟨rfl, rfl⟩ := RequestPc.compare.inj (hpc'.symm.trans hb)
      exact ⟨before, line, mid, [], s, p, by simp, hmid, hrun, hp', by rw [hpw]; exact hline⟩
    · rcases hb with hb | hb <;> cases hpc'.symm.trans hb
  · refine ⟨fun hb => (hp.auth (ha ▸ hb)).append _, fun b hb => ?_, fun b hb => ?_, fun hb => ?_⟩
    · cases hpc'.symm.trans hb
    · cases hpc'.symm.trans hb
    · rcases hb with hb | hb <;> cases hpc'.symm.trans hb
  · -- the password is right
    have hlogged := (hp.compare a hpc).append [.go t]
    refine ⟨fun _ => hlogged, fun b hb => ?_, fun b hb => ?_, fun hb => ?_⟩
    · cases hpc'.symm.trans hb
    · cases hpc'.symm.trans hb
    · rcases hb with hb | hb <;> cases hpc'.symm.trans hb
  · refine ⟨fun hb => (hp.auth (hmc ▸ hb)).append _, fun b hb => ?_, fun b hb => ?_,
      fun hb => hmc ▸ hp.reload (.inl hpc)⟩
    · cases hpc'.symm.trans hb
    · cases hpc'.symm.trans hb

theorem Proves.returned (hp : Proves first events t q) {ok : Bool} {cfg : Option Loaded}
    (hq : q.returned ok = some q') : Proves first (events ++ [.reload t cfg]) t q' := by
  obtain ⟨-, ha, hpc'⟩ := Request.returned_cases hq
  refine ⟨fun hb => (hp.auth (ha ▸ hb)).append _, fun b hb => ?_, fun b hb => ?_, fun hb => ?_⟩
  · rcases hpc' with hpc' | hpc' <;> cases hpc'.symm.trans hb
  · rcases hpc' with hpc' | hpc' <;> cases hpc'.symm.trans hb
  · rcases hb with hb | hb <;> rcases hpc' with hpc' | hpc' <;> cases hpc'.symm.trans hb

/-- The handler `t` when the one of `u` has been written. -/
theorem getElem_setRequest {u : Nat} {cfg : Option Nat}
    (hh : (s.setRequest u q cfg).handlers[t]? = some h) :
    (u ≠ t ∧ s.handlers[t]? = some h) ∨ (u = t ∧ h = ⟨q, cfg⟩) := by
  by_cases hut : u = t
  · subst hut
    have hlt : u < s.handlers.length := by
      have := (List.getElem?_eq_some_iff.1 hh).1
      simpa [setRequest] using this
    simp only [setRequest, List.getElem?_set_self hlt, Option.some.injEq] at hh
    exact .inr ⟨rfl, hh.symm⟩
  · simp only [setRequest, List.getElem?_set_ne hut] at hh
    exact .inl ⟨hut, hh⟩

/-- **Step.** -/
theorem Steps.proves (hrun : run events (start first) = some s)
    (hp : ∀ t h, s.handlers[t]? = some h → Proves first events t h.request) (hs : s.Steps e s') :
    ∀ t h, s'.handlers[t]? = some h → Proves first (events ++ [e]) t h.request := by
  intro t h hh
  have hset : ∀ (s1 : Server) {u : Nat} {q : Request} {cfg : Option Nat},
      s1.handlers = s.handlers → e.handler = some u →
      (u = t → Proves first (events ++ [e]) t q) →
      (s1.setRequest u q cfg).handlers[t]? = some h → Proves first (events ++ [e]) t h.request := by
    intro s1 u q cfg h1 hu hq hh
    rcases getElem_setRequest hh with ⟨hne, hh⟩ | ⟨hut, rfl⟩
    · rw [h1] at hh
      refine (hp t h hh).other fun ht => hne ?_
      rw [ht] at hu
      exact (Option.some.inj hu).symm
    · exact hq hut
  cases hs with
  | connect => exact (hp t h hh).other (by rintro ⟨⟩)
  | refused => exact (hp t h hh).other (by rintro ⟨⟩)
  | conn => exact (hp t h hh).other (by rintro ⟨⟩)
  | accept => exact (hp t h hh).other (by rintro ⟨⟩)
  | @accepted ok =>
    cases ok with
    | false => exact (hp t h hh).other (by rintro ⟨⟩)
    | true =>
      rcases Nat.lt_or_ge t s.handlers.length with hlt | hge
      · refine (hp t h ?_).other (by rintro ⟨⟩)
        rwa [if_pos rfl, List.getElem?_append_left hlt] at hh
      · rw [if_pos rfl, List.getElem?_append_right hge] at hh
        obtain ⟨hi, heq⟩ := List.getElem?_eq_some_iff.1 hh
        rw [List.getElem_singleton] at heq
        rw [← heq]
        exact .start
  | line hu hq => exact hset _ rfl rfl (fun hut => hut ▸ (hp _ _ hu).line hq) hh
  | @retrieve u p g a store hu hcfg hpc hcur =>
    refine hset { s with store } rfl rfl (fun hut => hut ▸ (hp _ _ hu).go
      (s.loaded p).cfAdminpassword ?_ ?_) hh
    · simp only [Request.go, hpc]
    · exact fun _ _ => ⟨s, p, hrun, hcur, rfl⟩
  | @compare u p g q a store hu hcfg hpc hq =>
    refine hset { s with store } rfl rfl (fun hut => hut ▸ (hp _ _ hu).go _ hq ?_) hh
    exact fun b hb => (by cases hpc.symm.trans hb)
  | @call u g hu hcfg hpc =>
    refine hset s rfl rfl (fun hut => hut ▸ (hp _ _ hu).go [] ?_ ?_) hh
    · simp only [Request.go, hpc]
    · exact fun b hb => (by cases hpc.symm.trans hb)
  | reload hu hpc hq => exact hset _ rfl rfl (fun hut => hut ▸ (hp _ _ hu).returned hq) hh
  | failed hu hpc hq => exact hset _ rfl rfl (fun hut => hut ▸ (hp _ _ hu).returned hq) hh

/-- **Run.** -/
theorem proves (hrun : run events (start first) = some s) :
    ∀ t h, s.handlers[t]? = some h → Proves first events t h.request := by
  refine run_induction (P := fun events s => ∀ t h, s.handlers[t]? = some h →
    Proves first events t h.request) ?_ ?_ hrun
  · intro t h hh
    cases hh
  · intro events s e s' hrun ih he
    exact ((Inv.run hrun).step_cases he).proves hrun ih

end

end Server

/-- The current configuration changes only by the reload of a handler that has logged in, to the
one that `set_config` has read, which nobody had before. -/
theorem server_authority {first : Loaded} {events : List ServerEvent} {s s' : Server}
    {e : ServerEvent} (h : Server.run events (.start first) = some s) (he : s.step e = some s')
    (hcur : s'.store.curCfg ≠ s.store.curCfg) :
    ∃ t cfg p, e = .reload t (some cfg) ∧ Server.LoggedIn first events t ∧
      s'.store.curCfg = some p ∧ s'.loaded p = cfg ∧ s.store.heap.cell p = none ∧
      s'.conns = s.conns ∧ s'.held.Perm s.held ∧ ∀ q ∈ s.held, s'.loaded q = s.loaded q := by
  have hs := Server.Inv.run h
  cases hs.step_cases he with
  | connect _ _ _ hk => exact absurd hk.cur hcur
  | refused hk => exact absurd hk.cur hcur
  | conn _ _ hk => exact absurd hk.cur hcur
  | accept _ _ hk => exact absurd hk.cur hcur
  | accepted _ hk => exact absurd hk.cur hcur
  | retrieve _ _ _ _ hk => exact absurd hk.cur hcur
  | compare _ _ _ _ hk => exact absurd hk.cur hcur
  | line => exact absurd rfl hcur
  | call => exact absurd rfl hcur
  | failed => exact absurd rfl hcur
  | @reload t g q cfg store hg hpc _ _ hnew _ _ =>
    have hp := Server.proves h t g hg
    refine ⟨t, cfg, s.store.heap.next, rfl, hp.auth (hp.reload (.inr hpc)), hnew,
      Function.update_self _ _ _, s.store.heap.bound _ (Nat.le_refl _), rfl, ?_, fun q hq => ?_⟩
    · exact (Server.perm_setRequest (s := s) hg q).symm
    · exact Function.update_of_ne (Nat.ne_of_lt (hs.held.old q hq)) _ _

/-- The reload of `reloadRun`. -/
theorem server_authority_reloaded : ∃ (first : Loaded) (events : List ServerEvent),
    Server.LoggedIn first events 0 := by
  obtain ⟨s, s', hs, he, hcur⟩ : ∃ s s' : Server,
      Server.run (reloadRun.take 9) (.start ⟨failingConfig 0, bytes "secret"⟩) = some s ∧
        s.step (.reload 0 (some ⟨failingConfig 0, bytes "other"⟩)) = some s' ∧
          s'.store.curCfg ≠ s.store.curCfg := ⟨_, _, rfl, rfl, by decide⟩
  obtain ⟨t, cfg, p, ht, hl, -⟩ := server_authority hs he hcur
  cases ht
  exact ⟨_, _, hl⟩

end Messasy
