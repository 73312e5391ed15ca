import Mathlib.Data.List.Induction
import Mathlib.Logic.Function.Basic
import Messasy.Client.Command

/-!
# Login and reload on all connections

The handlers of any set `T` of administration connections, beside the configuration they retrieve.
A run is a list of events: a handler reads a line, goes on, or returns from `reload_config`, and
a reload makes another configuration the current one at any moment.
-/

namespace Messasy

open Lib

/-- A `request_handler`. -/
structure Request where
  mc : ManagerControl
  pc : RequestPc

/-- The `AdminPassword` of the current configuration, and the handlers. -/
structure Requests (T : Type) where
  cfAdminpassword : Str
  request : T → Request

inductive RequestEvent (T : Type)
  | line (t : T) (r : ReadLine)
  | go (t : T)
  /-- `reload_config` returns to the handler. -/
  | returned (t : T) (ok : Bool)
  | configure (cfAdminpassword : Str)

/-- The handler an event belongs to. -/
def RequestEvent.thread {T : Type} : RequestEvent T → Option T
  | .line t _ | .go t | .returned t _ => some t
  | .configure _ => none

namespace Request

/-- `manager_main` starts the handler. -/
def start : Request := ⟨⟨LOGIN_STATE_NONE, []⟩, .readLine⟩

def line (q : Request) (r : ReadLine) : Option Request :=
  match q.pc with
  | .readLine => some ⟨(requestLine q.mc r).1, (requestLine q.mc r).2⟩
  | _ => none

/-- `manager_login` and `manager_reload` go on. -/
def go (q : Request) (cfAdminpassword : Str) : Option Request :=
  match q.pc with
  | .retrieve param0 => some { q with pc := .compare param0 cfAdminpassword }
  | .compare param0 pw =>
    if pw ≠ param0 then some ⟨q.mc.reply AUTH_ERR_STRING, .quit⟩
    else some ⟨{ q.mc.reply OK_LOGIN_STRING with mcState := q.mc.mcState ||| LOGIN_STATE_AUTH },
      .readLine⟩
  | .reload => some { q with pc := .reloading }
  | _ => none

def returned (q : Request) (ok : Bool) : Option Request :=
  match q.pc with
  | .reloading =>
    if ok then some ⟨q.mc.reply OK_RELOAD_STRING, .readLine⟩ else some ⟨q.mc.reply NG_STRING, .quit⟩
  | _ => none

end Request

namespace Requests

variable {T : Type}

def start (cfAdminpassword : Str) : Requests T := ⟨cfAdminpassword, fun _ => .start⟩

variable [DecidableEq T]

def set (s : Requests T) (t : T) (q : Request) : Requests T :=
  { s with request := Function.update s.request t q }

def step (s : Requests T) : RequestEvent T → Option (Requests T)
  | .line t r => ((s.request t).line r).map (s.set t)
  | .go t => ((s.request t).go s.cfAdminpassword).map (s.set t)
  | .returned t ok => ((s.request t).returned ok).map (s.set t)
  | .configure cfAdminpassword => some { s with cfAdminpassword }

def run : List (RequestEvent T) → Requests T → Option (Requests T)
  | [], s => some s
  | e :: events, s => (s.step e).bind (run events)

/-- The connection has processed a `LOGIN` line whose only argument was the password that was
current when it retrieved the configuration. -/
def LoggedIn (cfAdminpassword : Str) (events : List (RequestEvent T)) (t : T) : Prop :=
  ∃ before line mid after s,
    events = before ++ .line t (.line line) :: (mid ++ .go t :: after) ∧
    (∀ e ∈ mid, e.thread ≠ some t) ∧
    run (before ++ .line t (.line line) :: mid) (start cfAdminpassword) = some s ∧
    (s.request t).pc = .retrieve s.cfAdminpassword ∧ LoginLine (cstr line) s.cfAdminpassword

end Requests

namespace Requests

variable {T : Type} [DecidableEq T]

/-- What authorises a connection `t` in the state `s` behind the events. -/
structure Guarded (cfAdminpassword : Str) (events : List (RequestEvent T)) (s : Requests T)
    (t : T) : Prop where
  /-- Whoever calls `reload_config` has logged in. -/
  reload : (s.request t).pc = .reload → LoggedIn cfAdminpassword events t
  /-- What another connection does changes nothing. -/
  others : ∀ e s', s.step e = some s' → e.thread ≠ some t → s'.request t = s.request t
  /-- A login with a wrong password is the last line. -/
  wrong : ∀ line arg rest s', (s.request t).mc.isAuth = false → LoginLine (cstr line) arg →
    run (.line t (.line line) :: rest) s = some s' →
    (∀ mid after s1, rest = mid ++ .go t :: after → (∀ e ∈ mid, e.thread ≠ some t) →
      run (.line t (.line line) :: mid) s = some s1 → s1.cfAdminpassword ≠ arg) →
    ∀ r, .line t r ∉ rest
  /-- A reload before login is the last line. -/
  early : ∀ line rest s', (s.request t).mc.isAuth = false → ReloadLine (cstr line) →
    run (.line t (.line line) :: rest) s = some s' → ∀ r, .line t r ∉ rest

end Requests

/-! ## One connection -/

section
variable {mc : ManagerControl} {q q' : Request} {pw : Str}

/-- The test of `manager_login` assigns, and keeps what `IS_AUTH` tests. -/
theorem isAuth_and (mc : ManagerControl) :
    ManagerControl.isAuth { mc with mcState := mc.mcState &&& LOGIN_STATE_AUTH } = mc.isAuth := by
  simp only [ManagerControl.isAuth, Nat.and_assoc, Nat.and_self]

/-- `manager_login` up to the retrieval. -/
theorem managerLogin_cases (mc : ManagerControl) (arg : Str) :
    (managerLogin mc arg).1.isAuth = mc.isAuth ∧ ((managerLogin mc arg).2 = .readLine ∨
      ∃ a, (managerLogin mc arg).2 = .retrieve a ∧ loginArg arg = some a) := by
  unfold managerLogin
  cases loginArg arg with
  | none => exact ⟨rfl, .inl rfl⟩
  | some a =>
    simp only
    split
    · exact ⟨isAuth_and mc, .inl rfl⟩
    · exact ⟨isAuth_and mc, .inr ⟨a, rfl, rfl⟩⟩

theorem managerReload_cases (mc : ManagerControl) (arg : Str) :
    (managerReload mc arg).1.isAuth = mc.isAuth ∧
      ((managerReload mc arg).2 = .reload → mc.isAuth = true) ∧
      ((managerReload mc arg).2 = .reload ∨ (managerReload mc arg).2 = .readLine ∨
        (managerReload mc arg).2 = .quit) := by
  unfold managerReload
  split
  · split
    · rename_i ha
      exact ⟨rfl, fun _ => ha, .inl rfl⟩
    · exact ⟨rfl, fun h => (by cases h), .inr (.inr rfl)⟩
  · exact ⟨rfl, fun h => (by cases h), .inr (.inl rfl)⟩

/-- A line never logs in by itself: it leads to a retrieval, to a reload of a connection that is
logged in, or nowhere. -/
theorem requestLine_next (mc : ManagerControl) (r : ReadLine) :
    (requestLine mc r).1.isAuth = mc.isAuth ∧
      ((requestLine mc r).2 = .readLine ∨ (requestLine mc r).2 = .quit ∨
      ((requestLine mc r).2 = .reload ∧ mc.isAuth = true) ∨
      ∃ a line, (requestLine mc r).2 = .retrieve a ∧ r = .line line ∧ LoginLine (cstr line) a) := by
  rcases requestLine_cases mc r with ⟨line, rest, rfl, he, hl⟩ | ⟨rest, he⟩ | ⟨hs, hpc⟩
  · rw [he]
    obtain ⟨ha, hpc | ⟨a, hpc, harg⟩⟩ := managerLogin_cases mc rest
    · exact ⟨ha, .inl hpc⟩
    · exact ⟨ha, .inr (.inr (.inr ⟨a, line, hpc, rfl, hl a harg⟩))⟩
  · rw [he]
    obtain ⟨ha, hauth, hpc | hpc | hpc⟩ := managerReload_cases mc rest
    · exact ⟨ha, .inr (.inr (.inl ⟨hpc, hauth hpc⟩))⟩
    · exact ⟨ha, .inl hpc⟩
    · exact ⟨ha, .inr (.inl hpc)⟩
  · refine ⟨by simp only [ManagerControl.isAuth, hs], ?_⟩
    rcases hpc with hpc | hpc
    · exact .inl hpc
    · exact .inr (.inl hpc)

/-- The next step of a handler inside a command. -/
theorem Request.go_cases (h : q.go pw = some q') :
    (∃ a, q.pc = .retrieve a ∧ q'.mc = q.mc ∧ q'.pc = .compare a pw) ∨
    (∃ a w, q.pc = .compare a w ∧ w ≠ a ∧ q'.mc.isAuth = q.mc.isAuth ∧ q'.pc = .quit) ∨
    (∃ a, q.pc = .compare a a ∧ q'.pc = .readLine) ∨
    (q.pc = .reload ∧ q'.mc = q.mc ∧ q'.pc = .reloading) := by
  unfold Request.go at h
  split at h
  · rename_i a hpc
    cases h
    exact .inl ⟨a, hpc, rfl, rfl⟩
  · rename_i a w hpc
    split at h
    · rename_i hne
      cases h
      exact .inr (.inl ⟨a, w, hpc, hne, rfl, rfl⟩)
    · rename_i heq
      obtain rfl : w = a := by simpa using heq
      cases h
      exact .inr (.inr (.inl ⟨w, hpc, rfl⟩))
  · rename_i hpc
    cases h
    exact .inr (.inr (.inr ⟨hpc, rfl, rfl⟩))
  · cases h

theorem Request.line_eq {r : ReadLine} (h : q.line r = some q') :
    q.pc = .readLine ∧ q' = ⟨(requestLine q.mc r).1, (requestLine q.mc r).2⟩ := by
  unfold Request.line at h
  split at h
  · cases h
    exact ⟨‹_›, rfl⟩
  · cases h

theorem Request.returned_cases {ok : Bool} (h : q.returned ok = some q') :
    q.pc = .reloading ∧ q'.mc.isAuth = q.mc.isAuth ∧ (q'.pc = .readLine ∨ q'.pc = .quit) := by
  unfold Request.returned at h
  split at h
  · rename_i hpc
    split at h <;> cases h
    · exact ⟨hpc, rfl, .inl rfl⟩
    · exact ⟨hpc, rfl, .inr rfl⟩
  · cases h

/-- The handler reads no further line: it ends, or is about to find that the password is wrong. -/
def RequestPc.Doomed : RequestPc → Prop
  | .compare param0 pw => pw ≠ param0
  | .quit => True
  | _ => False

theorem Request.go_doomed (hd : q.pc.Doomed) (h : q.go pw = some q') : q'.pc.Doomed := by
  rcases Request.go_cases h with ⟨a, hpc, -, -⟩ | ⟨a, w, -, -, -, hpc'⟩ | ⟨a, hpc, -⟩ | ⟨hpc, -, -⟩
  · rw [hpc] at hd
    exact hd.elim
  · rw [hpc']
    trivial
  · rw [hpc] at hd
    exact absurd rfl hd
  · rw [hpc] at hd
    exact hd.elim

end

/-! ## All connections -/

namespace Requests

section
variable {T : Type} [DecidableEq T] {s s' : Requests T} {e : RequestEvent T} {t : T} {pw : Str}
  {events : List (RequestEvent T)}

theorem run_append (l₁ l₂ : List (RequestEvent T)) (s : Requests T) :
    run (l₁ ++ l₂) s = (run l₁ s).bind (run l₂) := by
  induction l₁ generalizing s with
  | nil => rfl
  | cons e l₁ ih =>
    simp only [List.cons_append, run, Option.bind_assoc]
    exact congrArg _ (funext ih)

theorem request_set (s : Requests T) (t : T) (q : Request) : (s.set t q).request t = q :=
  Function.update_self _ _ _

/-- An event changes the connection it belongs to. -/
theorem step_other (h : s.step e = some s') (ht : e.thread ≠ some t) :
    s'.request t = s.request t := by
  have hset : ∀ (u : T) (q : Request), some u ≠ some t →
      (s.set u q).request t = s.request t := by
    intro u q hu
    exact Function.update_of_ne (fun he => hu (congrArg some he.symm)) _ _
  cases e with
  | configure pw =>
    cases h
    rfl
  | line u r =>
    obtain ⟨q, -, rfl⟩ := Option.map_eq_some_iff.1 h
    exact hset u q ht
  | go u =>
    obtain ⟨q, -, rfl⟩ := Option.map_eq_some_iff.1 h
    exact hset u q ht
  | returned u ok =>
    obtain ⟨q, -, rfl⟩ := Option.map_eq_some_iff.1 h
    exact hset u q ht

/-- What an event does to its own connection. -/
theorem step_self (h : s.step e = some s') (ht : e.thread = some t) :
    (∃ r, e = .line t r ∧ (s.request t).line r = some (s'.request t)) ∨
    (e = .go t ∧ (s.request t).go s.cfAdminpassword = some (s'.request t)) ∨
    (∃ ok, e = .returned t ok ∧ (s.request t).returned ok = some (s'.request t)) := by
  cases e with
  | configure pw => cases ht
  | line u r =>
    cases ht
    obtain ⟨q, hq, rfl⟩ := Option.map_eq_some_iff.1 h
    exact .inl ⟨r, rfl, by rw [request_set, hq]⟩
  | go u =>
    cases ht
    obtain ⟨q, hq, rfl⟩ := Option.map_eq_some_iff.1 h
    exact .inr (.inl ⟨rfl, by rw [request_set, hq]⟩)
  | returned u ok =>
    cases ht
    obtain ⟨q, hq, rfl⟩ := Option.map_eq_some_iff.1 h
    exact .inr (.inr ⟨ok, rfl, by rw [request_set, hq]⟩)

/-- A doomed handler stays so and reads no line. -/
theorem doomed_stays : ∀ {events : List (RequestEvent T)} {s : Requests T},
    (s.request t).pc.Doomed → run events s = some s' → ∀ r, .line t r ∉ events
  | [], _, _, _, r => List.not_mem_nil
  | e :: events, s, hd, h, r => by
    obtain ⟨s1, hs, h⟩ := Option.bind_eq_some_iff.1 h
    have hnext : (s1.request t).pc.Doomed ∧ e ≠ .line t r := by
      by_cases ht : e.thread = some t
      · rcases step_self hs ht with ⟨r', rfl, hq⟩ | ⟨rfl, hq⟩ | ⟨ok, rfl, hq⟩
        · rw [(Request.line_eq hq).1] at hd
          exact hd.elim
        · exact ⟨Request.go_doomed hd hq, fun he => (by cases he)⟩
        · rw [(Request.returned_cases hq).1] at hd
          exact hd.elim
      · rw [step_other hs ht]
        refine ⟨hd, ?_⟩
        rintro rfl
        exact ht rfl
    rw [List.mem_cons]
    rintro (he | he)
    · exact hnext.2 he.symm
    · exact doomed_stays hnext.1 h r he

/-- A handler that retrieves another password than its argument reads no further line. -/
theorem retrieve_stays {arg : Str} : ∀ {events : List (RequestEvent T)} {s : Requests T},
    (s.request t).pc = .retrieve arg →
    (∀ mid after s1, events = mid ++ .go t :: after → (∀ e ∈ mid, e.thread ≠ some t) →
      run mid s = some s1 → s1.cfAdminpassword ≠ arg) →
    run events s = some s' → ∀ r, .line t r ∉ events
  | [], _, _, _, _, r => List.not_mem_nil
  | e :: events, s, hpc, hwrong, h, r => by
    obtain ⟨s1, hs, hrest⟩ := Option.bind_eq_some_iff.1 h
    by_cases ht : e.thread = some t
    · rcases step_self hs ht with ⟨r', rfl, hq⟩ | ⟨rfl, hq⟩ | ⟨ok, rfl, hq⟩
      · rw [(Request.line_eq hq).1] at hpc
        cases hpc
      · have hne := hwrong [] events s rfl (fun e he => by cases he) rfl
        have hdoomed : (s1.request t).pc.Doomed := by
          simp only [Request.go, hpc, Option.some.injEq] at hq
          rw [← hq]
          exact hne
        rw [List.mem_cons]
        rintro (he | he)
        · cases he
        · exact doomed_stays hdoomed hrest r he
      · rw [(Request.returned_cases hq).1] at hpc
        cases hpc
    · have hnone : ∀ r, .line t r ∉ events := by
        refine retrieve_stays ((congrArg Request.pc (step_other hs ht)).trans hpc) ?_ hrest
        intro mid after s2 he hmid hrun
        refine hwrong (e :: mid) after s2 (by rw [he, List.cons_append]) ?_ ?_
        · intro e' he'
          rcases List.mem_cons.1 he' with rfl | he'
          · exact ht
          · exact hmid e' he'
        · rw [run, hs]
          exact hrun
      rw [List.mem_cons]
      rintro (rfl | he)
      · exact ht rfl
      · exact hnone r he

/-! ## The invariant -/

theorem LoggedIn.append (h : LoggedIn pw events t) (l : List (RequestEvent T)) :
    LoggedIn pw (events ++ l) t := by
  obtain ⟨before, line, mid, after, s, rfl, hrest⟩ := h
  exact ⟨before, line, mid, after ++ l, s, by simp, hrest⟩

/-- What a connection proves about the events behind it. -/
structure Inv (pw : Str) (events : List (RequestEvent T)) (q : Request) (t : T) : Prop where
  auth : q.mc.isAuth = true → LoggedIn pw events t
  retrieve : ∀ a, q.pc = .retrieve a → ∃ before line mid,
    events = before ++ .line t (.line line) :: mid ∧ (∀ e ∈ mid, e.thread ≠ some t) ∧
      LoginLine (cstr line) a
  compare : ∀ a, q.pc = .compare a a → LoggedIn pw events t
  reload : q.pc = .reload → q.mc.isAuth = true

theorem Inv.start (pw : Str) (t : T) : Inv pw [] .start t :=
  ⟨fun h => (by cases h), fun a h => (by cases h), fun a h => (by cases h), fun h => (by cases h)⟩

/-- An event of another connection. -/
theorem Inv.other {q : Request} (h : Inv pw events q t) (ht : e.thread ≠ some t) :
    Inv pw (events ++ [e]) q t := by
  refine ⟨fun ha => (h.auth ha).append _, fun a hpc => ?_, fun a hpc => (h.compare a hpc).append _,
    h.reload⟩
  obtain ⟨before, line, mid, rfl, hmid, hline⟩ := h.retrieve a hpc
  refine ⟨before, line, mid ++ [e], by simp, ?_, hline⟩
  intro e' he'
  rcases List.mem_append.1 he' with he' | he'
  · exact hmid e' he'
  · obtain rfl := List.mem_singleton.1 he'
    exact ht

/-- An event of the connection. -/
theorem Inv.self (h : Inv pw events (s.request t) t) (hrun : run events (Requests.start pw) = some s)
    (hs : s.step e = some s') (ht : e.thread = some t) :
    Inv pw (events ++ [e]) (s'.request t) t := by
  rcases step_self hs ht with ⟨r, rfl, hq⟩ | ⟨rfl, hq⟩ | ⟨ok, rfl, hq⟩
  · obtain ⟨hpc, hq⟩ := Request.line_eq hq
    obtain ⟨hauth, hnext⟩ := requestLine_next (s.request t).mc r
    rw [hq]
    refine ⟨fun ha => (h.auth (hauth ▸ ha)).append _, fun a hpc => ?_, fun a hpc => ?_,
      fun hpc => ?_⟩
    · rcases hnext with hn | hn | ⟨hn, -⟩ | ⟨a', line, hn, rfl, hline⟩
      · cases hn.symm.trans hpc
      · cases hn.symm.trans hpc
      · cases hn.symm.trans hpc
      · cases hn.symm.trans hpc
        exact ⟨events, line, [], rfl, fun e he => (by cases he), hline⟩
    · rcases hnext with hn | hn | ⟨hn, -⟩ | ⟨a', line, hn, -, -⟩ <;> cases hn.symm.trans hpc
    · rcases hnext with hn | hn | ⟨-, ha⟩ | ⟨a', line, hn, -, -⟩
      · cases hn.symm.trans hpc
      · cases hn.symm.trans hpc
      · exact hauth.trans ha
      · cases hn.symm.trans hpc
  · rcases Request.go_cases hq with ⟨a, hpc, hmc, hpc'⟩ | ⟨a, w, hpc, hne, ha, hpc'⟩ |
      ⟨a, hpc, hpc'⟩ | ⟨hpc, hmc, hpc'⟩
    · -- `config_retrieve`
      refine ⟨fun ha => (h.auth (hmc ▸ ha)).append _, fun b hb => ?_, fun b hb => ?_, fun hb => ?_⟩
      · cases hpc'.symm.trans hb
      · obtain ⟨before, line, mid, rfl, hmid, hline⟩ := h.retrieve a hpc
        obtain ⟨rfl, hcur⟩ := RequestPc.compare.inj (hpc'.symm.trans hb)
        subst hcur
        exact ⟨before, line, mid, [], s, by simp, hmid, hrun, hpc, hline⟩
      · cases hpc'.symm.trans hb
    · refine ⟨fun hb => (h.auth (ha ▸ hb)).append _, fun b hb => ?_, fun b hb => ?_, fun hb => ?_⟩ <;>
        cases hpc'.symm.trans hb
    · -- the password is right
      have hlogged := (h.compare a hpc).append [.go t]
      refine ⟨fun _ => hlogged, fun b hb => ?_, fun b hb => ?_, fun hb => ?_⟩ <;>
        cases hpc'.symm.trans hb
    · refine ⟨fun hb => (h.auth (hmc ▸ hb)).append _, fun b hb => ?_, fun b hb => ?_, fun hb => ?_⟩ <;>
        cases hpc'.symm.trans hb
  · obtain ⟨-, ha, hpc'⟩ := Request.returned_cases hq
    refine ⟨fun hb => (h.auth (ha ▸ hb)).append _, fun b hb => ?_, fun b hb => ?_, fun hb => ?_⟩ <;>
      rcases hpc' with hpc' | hpc' <;> cases hpc'.symm.trans hb

theorem Inv.run (pw : Str) (t : T) : ∀ (events : List (RequestEvent T)) {s : Requests T},
    Requests.run events (Requests.start pw) = some s → Inv pw events (s.request t) t := by
  intro events
  induction events using List.reverseRecOn with
  | nil =>
    intro s h
    cases h
    exact .start pw t
  | append_singleton events e ih =>
    intro s h
    rw [run_append] at h
    obtain ⟨s1, hrun, hlast⟩ := Option.bind_eq_some_iff.1 h
    obtain ⟨s2, hs, hlast⟩ := Option.bind_eq_some_iff.1 hlast
    cases hlast
    by_cases ht : e.thread = some t
    · exact (ih hrun).self hrun hs ht
    · rw [step_other hs ht]
      exact (ih hrun).other ht

/-- A line leads the connection to where `requestLine` says. -/
theorem step_line {r : ReadLine} (hs : s.step (.line t r) = some s') :
    (s'.request t).pc = (requestLine (s.request t).mc r).2 := by
  obtain ⟨q, hq, rfl⟩ := Option.map_eq_some_iff.1 hs
  rw [request_set, (Request.line_eq hq).2]

end

end Requests

/-- **Reload needs login**, in every state of every run. -/
theorem reload_needs_login {T : Type} [DecidableEq T] {pw : Str} {events : List (RequestEvent T)}
    {s : Requests T} (h : Requests.run events (.start pw) = some s) (t : T) :
    s.Guarded pw events t := by
  have hinv := Requests.Inv.run pw t events h
  refine ⟨fun hpc => hinv.auth (hinv.reload hpc), fun e s' hs ht => Requests.step_other hs ht,
    ?_, ?_⟩
  · intro line arg rest s' hauth hline hrun hwrong
    obtain ⟨s1, hs, hrest⟩ := Option.bind_eq_some_iff.1 hrun
    obtain ⟨rest', hcall, harg⟩ := requestLine_login (s.request t).mc hline
    have hpc : (s1.request t).pc = .retrieve arg := by
      have hstate : (s.request t).mc.mcState &&& LOGIN_STATE_AUTH = 0 := by
        simpa [ManagerControl.isAuth] using hauth
      rw [Requests.step_line hs, hcall, managerLogin, harg]
      simp only [hstate, ne_eq, not_true_eq_false, if_false]
    refine Requests.retrieve_stays hpc ?_ hrest
    intro mid after s2 he hmid hrun2
    refine hwrong mid after s2 he hmid ?_
    rw [Requests.run, hs]
    exact hrun2
  · intro line rest s' hauth hline hrun
    obtain ⟨s1, hs, hrest⟩ := Option.bind_eq_some_iff.1 hrun
    obtain ⟨rest', hcall, harg⟩ := requestLine_reload (s.request t).mc hline
    refine Requests.doomed_stays ?_ hrest
    rw [Requests.step_line hs, hcall, managerReload, if_pos harg, hauth]
    trivial

/-- The first connection logs in and asks for a reload; the second one has sent a `RELOAD`. -/
theorem reload_needs_login_two : ∃ (events : List (RequestEvent (Fin 2))) (s : Requests (Fin 2)),
    (s.request 0).pc = .reload ∧ ∀ t, s.Guarded (bytes "secret") events t := by
  have h : (Requests.run [.line 1 (.line (bytes "RELOAD")), .line 0 (.line (bytes " login secret ")),
      .go 0, .go 0, .line 0 (.line (bytes "Reload"))] (.start (T := Fin 2) (bytes "secret"))).map
        (fun s => (s.request 0).pc) = some .reload := by decide +kernel
  obtain ⟨s, hs, hpc⟩ := Option.map_eq_some_iff.1 h
  exact ⟨_, s, hpc, reload_needs_login hs⟩

end Messasy
