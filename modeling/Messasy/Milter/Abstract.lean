import Messasy.Filter.Directory
import Messasy.Milter.Session

/-!
# Sessions by their values

What the callbacks come to, without list nodes and stale pointers: a `Session` has the addresses
themselves, and `Session.step` is one callback on it. The hooks are the configuration's own.
-/

namespace Messasy

open Lib

/-- The private record by its values. -/
structure Session where
  envfrom : Option Str
  rcptto : List Str
  addrmatched : List Str
  headerExistence : Bool
  extrapriv : List Extrapriv

/-- As `mlfi_connect` leaves it. -/
def Session.fresh : Session := ⟨none, [], [], false, []⟩

/-- The hooks registered for a call. -/
def Config.registered (cfg : Config) : HookCall → List Hook
  | .header f v => cfg.cfExecHeader.map fun func => func f v
  | .body b => cfg.cfExecBody.map fun func => func b
  | .eom => cfg.cfExecEom
  | .abort => cfg.cfExecAbort

namespace Session

/-- The message is over: the private list stays as the hooks have left it. -/
def ended (s : Session) : Session := { fresh with extrapriv := s.extrapriv }

/-- The save list is made. -/
def matched (s : Session) (list : List Str) : Session :=
  { s with headerExistence := true, addrmatched := list }

variable (cfg : Config) (t : Nat) (env : Env)

/-- What the hooks see of the session; `t` is the time of the connection. -/
def view (s : Session) : View := ⟨cfg.toSettings, t, s.envfrom, some s.rcptto, some s.addrmatched⟩

/-- A pass over the hooks for a call. -/
def pass (c : HookCall) (s : Session) (os : Os) : Option (Int × Session × Os) :=
  (msyExec (cfg.registered c) env (s.view cfg t) ⟨s.extrapriv, os⟩).map fun (n, st) =>
    (n, { s with extrapriv := st.mlfiExtrapriv }, st.os)

/-- The abort pass and the end of the message; when the pass fails, so does the session. -/
def aborted (r : Option Sfsistat) (s : Session) (os : Os) : Option (Reply × Option Session) :=
  (s.pass cfg t env .abort os).map fun (n, s, os) =>
    if n = 0 then (⟨r.getD .continue_, os.out⟩, some s.ended)
    else (⟨r.getD cfg.cfErroractionConv.sfsistat, os.out⟩, none)

/-- A pass that goes on with `next`, or ends in an abort. -/
def passing (c : HookCall) (next : Session → Session) (s : Session) (os : Os) :
    Option (Reply × Option Session) :=
  (s.pass cfg t env c os).bind fun (n, s, os) =>
    if n = 0 then some (⟨.continue_, os.out⟩, some (next s))
    else s.aborted cfg t env (some cfg.cfErroractionConv.sfsistat) os

/-- What the filter makes of the envelope; a missing sender is only read when the policy asks. -/
def filtered (s : Session) : Filtered :=
  match s.envfrom with
  | some a => Messasy.filtered cfg.toSettings env.ldap a s.rcptto
  | none =>
    if FROM &&& cfg.cfSavepolicyConv.conv ≠ 0 then .undefined
    else Messasy.filtered cfg.toSettings env.ldap [] s.rcptto

/-- The first header that is not ignored. -/
def firstHeader (headerf : Str) (headerv : Option Str) (s : Session) :
    Option (Reply × Option Session) :=
  match s.filtered cfg env with
  | .undefined => none
  | .failed => (s.matched []).aborted cfg t env (some cfg.cfErroractionConv.sfsistat) .start
  | .selected [] => (s.matched []).aborted cfg t env (some .accept) .start
  | .selected list => (s.matched list).passing cfg t env (.header headerf headerv) id .start

/-- **One callback**: its reply, and the session behind it when there still is one. -/
def step : Callback → Session → Option (Reply × Option Session)
  | .envfrom a, s => some (⟨.continue_, []⟩, some { s with envfrom := some (getAddrpart a) })
  | .envrcpt a, s => some (⟨.continue_, []⟩, some { s with rcptto := s.rcptto ++ [getAddrpart a] })
  | .header f v, s =>
    match ignoreHeader cfg.toSettings f v with
    | none => none
    | some .positive => s.aborted cfg t env (some .accept) .start
    | some _ =>
      if s.headerExistence then s.passing cfg t env (.header f v) id .start
      else s.firstHeader cfg t env f v
  | .body b, s => s.passing cfg t env (.body b) id .start
  | .eom, s => s.passing cfg t env .eom ended .start
  | .abort, s => s.aborted cfg t env none .start

/-- Deliver callbacks until one of them does not answer `SMFIS_CONTINUE`. -/
def deliver : List (Env × Callback) → Session → Option (List Reply × Option Session)
  | [], s => some ([], some s)
  | (env, cb) :: cbs, s =>
    match s.step cfg t env cb with
    | none => none
    | some (reply, none) => some ([reply], none)
    | some (reply, some s) =>
      if reply.stat = .continue_ then
        (deliver cbs s).map fun (replies, s) => (reply :: replies, s)
      else some ([reply], some s)

end Session

/-! ## What a callback can do -/

/-- The pass that a callback makes, and the session it starts from. -/
def Session.Makes (cfg : Config) (env : Env) (s : Session) :
    Callback → HookCall → Session → Prop
  | .header f v, c, s1 => c = .header f v ∧ (s.headerExistence = true ∧ s1 = s ∨
      s.headerExistence = false ∧ ∃ list, list ≠ [] ∧ s.filtered cfg env = .selected list ∧
        s1 = s.matched list)
  | .body b, c, s1 => c = .body b ∧ s1 = s
  | .eom, c, s1 => c = .eom ∧ s1 = s
  | _, _, _ => False

/-- The callback that makes a pass for the call. -/
def HookCall.callback : HookCall → Callback
  | .header f v => .header f v
  | .body b => .body b
  | .eom => .eom
  | .abort => .abort

/-- The session behind a pass that has succeeded. -/
def Session.behind (s : Session) : Callback → Session
  | .eom => s.ended
  | _ => s

/-- The ways of a callback: the envelope, a pass that succeeds, and the three ways into an abort. -/
inductive Session.Steps (cfg : Config) (t : Nat) (env : Env) (s : Session) :
    Callback → Reply → Option Session → Prop
  | envfrom (a : Str) : Steps cfg t env s (.envfrom a) ⟨.continue_, []⟩
      (some { s with envfrom := some (getAddrpart a) })
  | envrcpt (a : Str) : Steps cfg t env s (.envrcpt a) ⟨.continue_, []⟩
      (some { s with rcptto := s.rcptto ++ [getAddrpart a] })
  | passed {cb : Callback} {c : HookCall} {s1 s2 : Session} {os : Os} : s.Makes cfg env cb c s1 →
      s1.pass cfg t env c .start = some (0, s2, os) →
      Steps cfg t env s cb ⟨.continue_, os.out⟩ (some (s2.behind cb))
  | failed {cb : Callback} {c : HookCall} {s1 s2 : Session} {n : Int} {os : Os} {reply : Reply}
      {s' : Option Session} : s.Makes cfg env cb c s1 →
      s1.pass cfg t env c .start = some (n, s2, os) → n ≠ 0 →
      s2.aborted cfg t env (some cfg.cfErroractionConv.sfsistat) os = some (reply, s') →
      Steps cfg t env s cb reply s'
  | gaveUp {cb : Callback} {s1 : Session} {r : Option Sfsistat} {reply : Reply}
      {s' : Option Session} : s1 = s ∨ s1 = s.matched [] → cb = .abort ∧ r = none ∨
        (∃ f v, cb = .header f v) ∧ (∃ r', r = some r' ∧ r' ≠ .continue_) →
      s1.aborted cfg t env r .start = some (reply, s') → Steps cfg t env s cb reply s'

section
variable {cfg : Config} {t : Nat} {env : Env} {s : Session} {reply : Reply} {s' : Option Session}

/-- The pass starts from the session's own envelope and private list. -/
theorem Session.Makes.same {c c' : HookCall} {s1 : Session}
    (h : s.Makes cfg env c.callback c' s1) : c' = c ∧ s1.envfrom = s.envfrom ∧
      s1.rcptto = s.rcptto ∧ s1.extrapriv = s.extrapriv := by
  cases c with
  | header f v =>
    obtain ⟨rfl, ⟨-, rfl⟩ | ⟨-, list, -, -, rfl⟩⟩ := h
    · exact ⟨rfl, rfl, rfl, rfl⟩
    · exact ⟨rfl, rfl, rfl, rfl⟩
  | body b => obtain ⟨rfl, rfl⟩ := h; exact ⟨rfl, rfl, rfl, rfl⟩
  | eom => obtain ⟨rfl, rfl⟩ := h; exact ⟨rfl, rfl, rfl, rfl⟩
  | abort => exact h.elim

theorem Session.Makes.callback {cb : Callback} {c : HookCall} {s1 : Session}
    (h : s.Makes cfg env cb c s1) : cb = c.callback := by
  cases cb with
  | header f v => obtain ⟨rfl, -⟩ := h; rfl
  | body b => obtain ⟨rfl, -⟩ := h; rfl
  | eom => obtain ⟨rfl, -⟩ := h; rfl
  | _ => exact h.elim

theorem Session.passing_cases {cb : Callback} {c : HookCall} {s1 : Session}
    (hm : s.Makes cfg env cb c s1) {next : Session → Session} (hn : ∀ s, next s = s.behind cb)
    (h : s1.passing cfg t env c next .start = some (reply, s')) : s.Steps cfg t env cb reply s' := by
  obtain ⟨⟨n, s2, os⟩, hp, hx⟩ := Option.bind_eq_some_iff.1 h
  dsimp only at hx
  split at hx
  · rename_i hz
    subst hz
    cases hx
    rw [hn]
    exact .passed hm hp
  · rename_i hz
    exact .failed hm hp hz hx

/-- **Inversion.** Every callback goes one of the ways. -/
theorem Session.step_cases {cb : Callback} (h : s.step cfg t env cb = some (reply, s')) :
    s.Steps cfg t env cb reply s' := by
  have herr : cfg.cfErroractionConv.sfsistat ≠ .continue_ := ErrorAction.sfsistat_ne _
  cases cb with
  | envfrom a => cases h; exact .envfrom a
  | envrcpt a => cases h; exact .envrcpt a
  | header f v =>
    unfold step at h
    dsimp only at h
    split at h
    · cases h
    · exact .gaveUp (.inl rfl) (.inr ⟨⟨f, v, rfl⟩, _, rfl, by decide⟩) h
    · split at h
      · rename_i he
        exact passing_cases ⟨rfl, .inl ⟨he, rfl⟩⟩ (fun _ => rfl) h
      · rename_i he
        unfold Session.firstHeader at h
        split at h
        · cases h
        · exact .gaveUp (.inr rfl) (.inr ⟨⟨f, v, rfl⟩, _, rfl, herr⟩) h
        · exact .gaveUp (.inr rfl) (.inr ⟨⟨f, v, rfl⟩, _, rfl, by decide⟩) h
        · rename_i list hne hsel
          refine passing_cases ⟨rfl, .inr ⟨by simpa using he, list, ?_, hsel,
            rfl⟩⟩ (fun _ => rfl) h
          rintro rfl
          exact hne rfl
  | body b => exact passing_cases ⟨rfl, rfl⟩ (fun _ => rfl) h
  | eom => exact passing_cases ⟨rfl, rfl⟩ (fun _ => rfl) h
  | abort => exact .gaveUp (.inl rfl) (.inl ⟨rfl, rfl⟩) h

theorem Session.aborted_stat {r : Sfsistat} (hr : r ≠ .continue_) {os : Os}
    (h : s.aborted cfg t env (some r) os = some (reply, s')) : reply.stat ≠ .continue_ := by
  obtain ⟨⟨n, s1, os1⟩, -, hx⟩ := Option.map_eq_some_iff.1 h
  dsimp only at hx
  split at hx <;> cases hx <;> exact hr

/-- An abort that leaves a session behind. -/
theorem Session.aborted_some {r : Option Sfsistat} {os : Os} {s2 : Session}
    (h : s.aborted cfg t env r os = some (reply, some s2)) :
    ∃ s1 os1, s.pass cfg t env .abort os = some (0, s1, os1) ∧ s2 = s1.ended ∧
      reply = ⟨r.getD .continue_, os1.out⟩ := by
  obtain ⟨⟨n, s1, os1⟩, hp, hx⟩ := Option.map_eq_some_iff.1 h
  dsimp only at hx
  split at hx
  · rename_i hn
    subst hn
    cases hx
    exact ⟨s1, os1, hp, rfl, rfl⟩
  · cases hx

end

/-! ## The record shows the session -/

/-- The record's fields and lists are the session's values. -/
structure MlfiPriv.Shows (cfg : Config) (t : Nat) (heap : StrHeap) (priv : MlfiPriv)
    (s : Session) (R A : List (Nat × Str)) : Prop where
  config : priv.config = cfg
  recvtime : priv.mlfiRecvtime = t
  envfrom : priv.mlfiEnvfrom = s.envfrom
  rcptto : Queue heap priv.mlfiRcpttoH priv.mlfiRcpttoT R
  rcpttoVals : vals R = s.rcptto
  addrmatched : Chain heap priv.mlfiAddrmatchedH A
  addrmatchedVals : vals A = s.addrmatched
  disj : ∀ q ∈ ids R, q ∉ ids A
  headerExistence : priv.headerExistence = s.headerExistence
  unmatched : s.headerExistence = false → s.addrmatched = []
  extrapriv : priv.mlfiExtrapriv = s.extrapriv

/-- The world's record shows the session; without a session there is no record. -/
def World.Shows (cfg : Config) (t : Nat) (w : World) : Option Session → Prop
  | none => w.priv = none
  | some s => ∃ priv R A, w.priv = some priv ∧ priv.Shows cfg t w.heap s R A

/-- A callback's result is the one that the session has. -/
def Agree (cfg : Config) (t : Nat) :
    Option (Sfsistat × World) → Option (Reply × Option Session) → Prop
  | none, none => True
  | some (r, w), some (reply, s) => reply = ⟨r, w.os.out⟩ ∧ w.Shows cfg t s
  | _, _ => False

section
variable {cfg : Config} {t : Nat} {env : Env} {w : World} {priv : MlfiPriv} {s : Session}
  {R A : List (Nat × Str)}

theorem MlfiPriv.Shows.view_eq {heap : StrHeap} (h : priv.Shows cfg t heap s R A) :
    priv.view heap = s.view cfg t := by
  have hr := h.rcptto.chain.contents_eq h.rcptto.chain.length_le
  have ha := h.addrmatched.contents_eq h.addrmatched.length_le
  simp only [MlfiPriv.view, Session.view, h.config, h.recvtime, h.envfrom, hr, ha, h.rcpttoVals,
    h.addrmatchedVals]

/-- The message's lists are released; they share no node. -/
theorem MlfiPriv.Shows.freed {heap : StrHeap} (h : priv.Shows cfg t heap s R A) :
    ∃ h1 h2, freeStrlist heap priv.mlfiRcpttoH = some h1 ∧
      freeStrlist h1 priv.mlfiAddrmatchedH = some h2 := by
  obtain ⟨h1, he1, -, -, hsame⟩ := freeStrlist_eq h.rcptto.chain
  have ha : Chain h1 priv.mlfiAddrmatchedH A :=
    h.addrmatched.frame fun q hq => hsame q fun hr => h.disj q hr hq
  obtain ⟨h2, he2, -⟩ := freeStrlist_eq ha
  exact ⟨h1, h2, he1, he2⟩

theorem eomCleanup_shows (hw : w.priv = some priv) (h : priv.Shows cfg t w.heap s R A) :
    ∃ w', eomCleanup w = some (.continue_, w') ∧ w'.os = w.os ∧ w'.Shows cfg t (some s.ended) := by
  obtain ⟨h1, h2, he1, he2⟩ := h.freed
  unfold eomCleanup
  simp only [hw, he1, he2, Option.map_some]
  refine ⟨_, rfl, rfl, _, [], [], rfl, ?_⟩
  exact ⟨h.config, h.recvtime, rfl, Queue.nil _ _, rfl, Chain.nil _, rfl, by simp, rfl,
    fun _ => rfl, h.extrapriv⟩

theorem mlfiCleanup_shows (hw : w.priv = some priv) (h : priv.Shows cfg t w.heap s R A) :
    ∃ w', mlfiCleanup w = some (.continue_, w') ∧ w'.os = w.os ∧ w'.priv = none := by
  obtain ⟨h1, h2, he1, he2⟩ := h.freed
  unfold mlfiCleanup
  simp only [hw, he1, he2, Option.map_some]
  exact ⟨_, rfl, rfl, rfl⟩

/-- A pass over the record's hooks is the session's. -/
theorem exec_pass (env : Env) (h : priv.Shows cfg t w.heap s R A) (c : HookCall) :
    (s.pass cfg t env c w.os = none ∧ w.exec priv (msyExec (cfg.registered c)) env = none) ∨
    ∃ n s' os' w' priv', s.pass cfg t env c w.os = some (n, s', os') ∧
      w.exec priv (msyExec (cfg.registered c)) env = some (n, w') ∧ w'.os = os' ∧
      w'.priv = some priv' ∧ priv'.Shows cfg t w'.heap s' R A := by
  unfold World.exec Session.pass
  rw [h.view_eq, h.extrapriv]
  cases msyExec (cfg.registered c) env (s.view cfg t) ⟨s.extrapriv, w.os⟩ with
  | none => exact .inl ⟨rfl, rfl⟩
  | some nst =>
    obtain ⟨n, st⟩ := nst
    refine .inr ⟨n, _, _, _, _, rfl, rfl, rfl, rfl, ?_⟩
    exact ⟨h.config, h.recvtime, h.envfrom, h.rcptto, h.rcpttoVals, h.addrmatched,
      h.addrmatchedVals, h.disj, h.headerExistence, h.unmatched, rfl⟩

/-- **`mlfi_abort`** is the abort of the session. -/
theorem aborted_agree (hw : w.priv = some priv) (h : priv.Shows cfg t w.heap s R A)
    (r : Option Sfsistat) :
    Agree cfg t (Ending.finish env (.abort r w)) (s.aborted cfg t env r w.os) := by
  have hc : msyExecAbort priv.config = msyExec (cfg.registered .abort) := by rw [h.config]; rfl
  show Agree cfg t ((mlfiAbort env w).map _) _
  rw [mlfiAbort_eq hw, hc, Session.aborted]
  rcases exec_pass env h .abort with
    ⟨hp, he⟩ | ⟨n, s', os', w', priv', hp, he, rfl, hw', h'⟩
  · rw [hp, he]
    trivial
  · rw [hp, he]
    by_cases hn : n = 0
    · obtain ⟨w2, he2, hos, hsh⟩ := eomCleanup_shows hw' h'
      simp only [Option.bind_some, Option.map_some, if_pos hn, he2]
      exact ⟨by rw [hos], hsh⟩
    · obtain ⟨w2, he2, hos, hnone⟩ := mlfiCleanup_shows hw' h'
      simp only [Option.bind_some, Option.map_some, if_neg hn, he2, mlfiFreepriv, hnone, h.config]
      exact ⟨by rw [hos], hnone⟩

/-- **`execOrAbort`** is the pass of the session. -/
theorem passing_agree (h : priv.Shows cfg t w.heap s R A) (c : HookCall)
    {next : World → Option Ending} {nextS : Session → Session}
    (hnext : ∀ w' priv' s', w'.priv = some priv' → priv'.Shows cfg t w'.heap s' R A →
      Agree cfg t ((next w').bind (Ending.finish env))
        (some (⟨.continue_, w'.os.out⟩, some (nextS s')))) :
    Agree cfg t ((execOrAbort env priv (msyExec (cfg.registered c)) next w).bind
      (Ending.finish env)) (s.passing cfg t env c nextS w.os) := by
  rw [execOrAbort_eq, Session.passing]
  rcases exec_pass env h c with
    ⟨hp, he⟩ | ⟨n, s', os', w', priv', hp, he, rfl, hw', h'⟩
  · rw [hp, he]
    trivial
  · rw [hp, he]
    by_cases hn : n = 0
    · simp only [Option.bind_some, if_pos hn]
      exact hnext w' priv' s' hw' h'
    · simp only [Option.bind_some, if_neg hn, h.config]
      exact aborted_agree hw' h' _

/-- The hooks of `mlfi_header` and `mlfi_body`. -/
theorem hooks_agree (h : priv.Shows cfg t w.heap s R A) (c : HookCall) :
    Agree cfg t ((execOrAbort env priv (msyExec (cfg.registered c))
      (fun w => some (.return_ .continue_ w)) w).bind (Ending.finish env))
      (s.passing cfg t env c id w.os) :=
  passing_agree h c fun _ priv' _ hw' h' => ⟨rfl, priv', R, A, hw', h'⟩

/-! ## The callbacks agree -/

/-- The filter on the record is the filter on the session. -/
theorem makeSavelist_session (env : Env) (h : priv.Shows cfg t w.heap s R A)
    (hA : priv.mlfiAddrmatchedH = none) :
    (s.filtered cfg env).Meets w.heap (makeSavelist priv.mlfiEnvfrom priv.mlfiRcpttoH w.heap
      priv.mlfiAddrmatchedH priv.mlfiAddrmatchedT priv.config.toSettings env.ldap) := by
  have hf := fun a => makeSavelist_filtered h.rcptto.chain cfg.toSettings a priv.mlfiAddrmatchedT
    env.ldap
  rw [hA, h.config, h.envfrom]
  unfold Session.filtered
  rw [h.rcpttoVals] at hf
  cases s.envfrom with
  | some a => exact hf a
  | none =>
    by_cases hp : FROM &&& cfg.cfSavepolicyConv.conv ≠ 0
    · simp only [if_pos hp]
      exact makeSavelist_null hp ..
    · simp only [if_neg hp]
      rw [makeSavelist_unread hp]
      exact hf []

/-- The record behind `make_savelist`. -/
theorem MlfiPriv.Shows.matched_shows (h : priv.Shows cfg t w.heap s R A) {heap : StrHeap}
    {hd : Option Nat} (tl : Option Nat) {S : List (Nat × Str)} (hold : ∀ q < w.heap.next, heap.cell q = w.heap.cell q)
    (hS : Chain heap hd S) (hfresh : ∀ q ∈ ids S, w.heap.next ≤ q) :
    MlfiPriv.Shows cfg t heap { priv with
      headerExistence := true, mlfiAddrmatchedH := hd, mlfiAddrmatchedT := tl }
      (s.matched (vals S)) R S := by
  have hlt := h.rcptto.chain.id_lt
  refine ⟨h.config, h.recvtime, h.envfrom, h.rcptto.frame fun q hq => hold q (hlt q hq),
    h.rcpttoVals, hS, rfl, fun q hr hs => ?_, rfl, fun hf => (by cases hf), h.extrapriv⟩
  have := hlt q hr
  have := hfresh q hs
  omega

theorem firstHeader_agree (h : priv.Shows cfg t w.heap s R A) (hA : priv.mlfiAddrmatchedH = none)
    (hos : w.os = .start) (headerf : Str) (headerv : Option Str) :
    Agree cfg t ((Messasy.firstHeader env priv (fun priv => execOrAbort env priv
      (msyExecHeader priv.config headerf headerv) fun w => some (.return_ .continue_ w)) w).bind
        (Ending.finish env)) (s.firstHeader cfg t env headerf headerv) := by
  obtain rfl := h.config
  have hm := makeSavelist_session env h hA
  unfold Messasy.firstHeader Session.firstHeader
  cases hf : s.filtered priv.config env with
  | undefined =>
    rw [hf] at hm
    have hm : _ = none := hm
    simp only [hm]
    trivial
  | failed =>
    rw [hf] at hm
    obtain ⟨st, he, hnone, hold, -⟩ := hm
    have hsh := h.matched_shows st.savelistT hold (S := []) hnone (by simp)
    have hne : Rc.error ≠ Rc.success := by decide
    simp only [he, if_pos hne]
    rw [← hos]
    exact aborted_agree (w := { w with heap := st.heap, priv := some _ }) rfl hsh _
  | selected list =>
    rw [hf] at hm
    obtain ⟨st, S, he, hs, rfl⟩ := hm
    have hsh := h.matched_shows st.savelistT hs.old hs.save.chain
      fun q hq => hs.fresh q (by simp [hq])
    simp only [he]
    rw [← hos]
    cases S with
    | nil =>
      have hnone : st.savelistH = none := hs.save.chain
      simp only [hnone, ne_eq, not_true_eq_false, if_false, if_true] at hsh ⊢
      exact aborted_agree (w := { w with heap := st.heap, priv := some _ }) rfl hsh _
    | cons x S =>
      have hne : st.savelistH ≠ none := by
        rw [hs.save.chain.1]
        simp
      simp only [ne_eq, not_true_eq_false, if_false, if_neg hne]
      exact hooks_agree (w := { w with heap := st.heap, priv := some _ }) hsh
        (.header headerf headerv)

/-- **`mlfi_header`** is the session's. -/
theorem header_agree (hw : w.priv = some priv) (h : priv.Shows cfg t w.heap s R A)
    (hos : w.os = .start) (headerf : Str) (headerv : Option Str) :
    Agree cfg t ((mlfiHeader env headerf headerv w).bind (Ending.finish env))
      (s.step cfg t env (.header headerf headerv)) := by
  obtain rfl := h.config
  simp only [mlfiHeader, Session.step, hw, h.headerExistence]
  have hpass : Agree priv.config t ((if s.headerExistence = true then execOrAbort env priv
      (msyExecHeader priv.config headerf headerv) (fun w => some (.return_ .continue_ w)) w
      else Messasy.firstHeader env priv (fun priv => execOrAbort env priv
        (msyExecHeader priv.config headerf headerv) fun w => some (.return_ .continue_ w)) w).bind
          (Ending.finish env))
      (if s.headerExistence = true then s.passing priv.config t env (.header headerf headerv) id
        .start else s.firstHeader priv.config t env headerf headerv) := by
    by_cases he : s.headerExistence = true
    · simp only [if_pos he]
      rw [← hos]
      exact hooks_agree h (.header headerf headerv)
    · simp only [if_neg he]
      have hn := h.addrmatchedVals.trans (h.unmatched (by simpa using he))
      have hA : priv.mlfiAddrmatchedH = none := by
        have hc := h.addrmatched
        rw [List.map_eq_nil_iff.1 hn] at hc
        exact hc
      exact firstHeader_agree h hA hos headerf headerv
  cases ignoreHeader priv.config.toSettings headerf headerv with
  | none => trivial
  | some rc =>
    cases rc with
    | positive =>
      rw [← hos]
      exact aborted_agree hw h _
    | _ => exact hpass

/-- **Step.** A callback on a record that shows a session does what the session does. -/
theorem step_agree (env : Env) (h : w.Shows cfg t (some s)) (cb : Callback) :
    Agree cfg t (w.step env cb) (s.step cfg t env cb) := by
  obtain ⟨priv, R, A, hw, h⟩ := h
  obtain rfl := h.config
  unfold World.step
  cases cb with
  | envfrom a =>
    simp only [World.main, mlfiEnvfrom, hw, Option.map_some, Option.bind_some]
    exact ⟨rfl, _, R, A, rfl, h.config, h.recvtime, rfl, h.rcptto, h.rcpttoVals, h.addrmatched,
      h.addrmatchedVals, h.disj, h.headerExistence, h.unmatched, h.extrapriv⟩
  | envrcpt a =>
    obtain ⟨heap, hd, tl, he, hq, -, hsame⟩ := pushStrlist_eq h.rcptto (getAddrpart a)
    have hlt := h.addrmatched.id_lt
    simp only [World.main, mlfiEnvrcpt, hw, he, Option.map_some, Option.bind_some]
    refine ⟨rfl, _, _, A, rfl, h.config, h.recvtime, h.envfrom, hq, ?_, ?_, h.addrmatchedVals,
      fun q hr ha => ?_, h.headerExistence, h.unmatched, h.extrapriv⟩
    · simp [h.rcpttoVals]
    · exact h.addrmatched.frame fun q hq => hsame q (hlt q hq) fun hr => h.disj q hr hq
    · simp only [ids_append, ids_cons, ids_nil, List.mem_append, List.mem_singleton] at hr
      rcases hr with hr | rfl
      · exact h.disj q hr ha
      · exact Nat.lt_irrefl _ (hlt _ ha)
  | header f v => exact header_agree (w := { w with os := .start }) hw h rfl f v
  | body b =>
    have hmain : ({ w with os := .start } : World).main env (.body b) = execOrAbort env priv
        (msyExecBody priv.config b) (fun w => some (.return_ .continue_ w))
        { w with os := .start } := by
      simp only [World.main, mlfiBody, hw]
    rw [hmain]
    exact hooks_agree (w := { w with os := .start }) h (.body b)
  | eom =>
    have hmain : ({ w with os := .start } : World).main env .eom = execOrAbort env priv
        (msyExecEom priv.config) (fun w => (eomCleanup w).map fun x => .return_ x.1 x.2)
        { w with os := .start } := by
      simp only [World.main, mlfiEom, hw]
    rw [hmain]
    refine passing_agree (w := { w with os := .start }) h .eom fun w' priv' s' hw' h' => ?_
    obtain ⟨w2, he2, hos, hsh⟩ := eomCleanup_shows hw' h'
    simp only [he2, Option.map_some, Option.bind_some]
    exact ⟨by rw [hos], hsh⟩
  | abort => exact aborted_agree (w := { w with os := .start }) hw h none

/-! ## Runs -/

/-- A callback that costs the session does not answer `SMFIS_CONTINUE`. -/
theorem Session.step_gone {cb : Callback} {reply : Reply}
    (h : s.step cfg t env cb = some (reply, none)) : reply.stat ≠ .continue_ := by
  cases step_cases h with
  | failed _ _ _ ha => exact aborted_stat (ErrorAction.sfsistat_ne _) ha
  | gaveUp _ hr ha =>
    rcases hr with ⟨-, rfl⟩ | ⟨-, r', rfl, hne⟩
    · obtain ⟨⟨n, s', os'⟩, -, hx⟩ := Option.map_eq_some_iff.1 ha
      dsimp only at hx
      split at hx
      · cases hx
      · cases hx
        exact ErrorAction.sfsistat_ne _
    · exact aborted_stat hne ha

/-- **Run.** Callbacks delivered to a record that shows a session have the session's replies. -/
theorem deliver_agree : ∀ (cbs : List (Env × Callback)) {w : World} {s : Session},
    w.Shows cfg t (some s) →
    (deliver cbs w = none ∧ s.deliver cfg t cbs = none) ∨
    ∃ replies w' s', deliver cbs w = some (replies, w') ∧
      s.deliver cfg t cbs = some (replies, s') ∧ w'.Shows cfg t s'
  | [], w, s, h => .inr ⟨[], w, some s, rfl, rfl, h⟩
  | (env, cb) :: cbs, w, s, h => by
    have ha := step_agree env h cb
    unfold deliver Session.deliver
    cases hw : w.step env cb with
    | none =>
      cases hs : s.step cfg t env cb with
      | none => exact .inl ⟨rfl, rfl⟩
      | some x => rw [hw, hs] at ha; exact ha.elim
    | some rw' =>
      obtain ⟨r, w'⟩ := rw'
      cases hs : s.step cfg t env cb with
      | none => rw [hw, hs] at ha; exact ha.elim
      | some x =>
        obtain ⟨reply, s'⟩ := x
        rw [hw, hs] at ha
        obtain ⟨rfl, hsh⟩ := ha
        cases s' with
        | none =>
          have hr : r ≠ .continue_ := Session.step_gone hs
          exact .inr ⟨_, _, _, if_neg hr, rfl, hsh⟩
        | some s' =>
          by_cases hr : r = .continue_
          · simp only [if_pos hr]
            rcases deliver_agree cbs hsh with ⟨h1, h2⟩ | ⟨replies, w2, s2, h1, h2, hsh2⟩
            · exact .inl ⟨by rw [h1]; rfl, by rw [h2]; rfl⟩
            · exact .inr ⟨_, w2, s2, by rw [h1]; rfl, by rw [h2]; rfl, hsh2⟩
          · simp only [if_neg hr]
            exact .inr ⟨_, w', some s', rfl, rfl, hsh⟩

theorem Session.deliver_single {cb : Callback} {replies : List Reply} {x : Option Session}
    (h : s.deliver cfg t [(env, cb)] = some (replies, x)) :
    ∃ reply y, s.step cfg t env cb = some (reply, y) ∧ replies = [reply] := by
  unfold Session.deliver at h
  split at h
  · cases h
  · rename_i reply hst
    cases h
    exact ⟨reply, none, hst, rfl⟩
  · rename_i reply s1 hst
    split at h
    · cases h
      exact ⟨reply, some s1, hst, rfl⟩
    · cases h
      exact ⟨reply, some s1, hst, rfl⟩

/-- **A stretch of callbacks** of one kind: `J` is what the session keeps as long as they go on,
and `Q` what holds of every reply. -/
theorem Session.deliver_stretch {α : Type} (f : α → Callback) {J : List α → Session → Prop}
    {E : Env → Prop} {Q : Reply → Prop}
    (hstep : ∀ {done x env s reply s'}, E env → J done s →
      s.step cfg t env (f x) = some (reply, s') →
      Q reply ∧ (reply.stat = .continue_ → ∃ s1, s' = some s1 ∧ J (done ++ [x]) s1)) :
    ∀ (xs : List α) {done : List α} {calls : List (Env × Callback)} {todo : List Callback}
      {s : Session} {replies : List Reply} {s' : Option Session},
      calls.map Prod.snd = xs.map f ++ todo → (∀ c ∈ calls, E c.1) → J done s →
      s.deliver cfg t calls = some (replies, s') →
      (∀ r ∈ replies, Q r) ∨ ∃ calls2 s2 replies1 replies2, calls2.map Prod.snd = todo ∧
        (∀ c ∈ calls2, E c.1) ∧ J (done ++ xs) s2 ∧
        s2.deliver cfg t calls2 = some (replies2, s') ∧ replies = replies1 ++ replies2 ∧
        ∀ r ∈ replies1, Q r
  | [], done, calls, todo, s, replies, s', hc, hE, hJ, h =>
    .inr ⟨calls, s, [], replies, hc, hE, by rwa [List.append_nil], h, rfl, by simp⟩
  | x :: xs, done, [], todo, s, replies, s', hc, _, _, _ => by simp at hc
  | x :: xs, done, (env, cb) :: calls, todo, s, replies, s', hc, hE, hJ, h => by
    simp only [List.map_cons, List.cons_append, List.cons.injEq] at hc
    obtain ⟨rfl, hc⟩ := hc
    have hE' : ∀ c ∈ calls, E c.1 := fun c hm => hE c (List.mem_cons_of_mem _ hm)
    unfold Session.deliver at h
    cases hst : s.step cfg t env (f x) with
    | none => simp [hst] at h
    | some y =>
      obtain ⟨reply, s1⟩ := y
      obtain ⟨hq, hgo⟩ := hstep (hE _ List.mem_cons_self) hJ hst
      have hstop : some ([reply], s1) = some (replies, s') → ∀ r ∈ replies, Q r := by
        intro he
        cases he
        simpa using hq
      cases s1 with
      | none =>
        simp only [hst] at h
        exact .inl (hstop h)
      | some s1 =>
        simp only [hst] at h
        by_cases hr : reply.stat = .continue_
        · obtain ⟨s2, he, hJ2⟩ := hgo hr
          cases he
          rw [if_pos hr] at h
          obtain ⟨⟨replies2, s2⟩, h2, hx⟩ := Option.map_eq_some_iff.1 h
          cases hx
          rcases deliver_stretch f hstep xs hc hE' hJ2 h2 with
            hall | ⟨calls2, s3, r1, r2, hc2, hE2, hJ3, h3, rfl, hq1⟩
          · exact .inl (by simpa [hq] using hall)
          · rw [List.append_assoc] at hJ3
            exact .inr ⟨calls2, s3, reply :: r1, r2, hc2, hE2, hJ3, h3, rfl, by simpa [hq] using hq1⟩
        · rw [if_neg hr] at h
          exact .inl (hstop h)

/-- A stretch of callbacks that all go on. -/
theorem Session.deliver_goes {α : Type} (f : α → Callback) {J : List α → Session → Prop}
    {E : Env → Prop} {D : α → Prop} {Q : Reply → Prop}
    (hstep : ∀ {done x env s}, E env → D x → J done s → ∃ reply s1,
      s.step cfg t env (f x) = some (reply, some s1) ∧ reply.stat = .continue_ ∧ Q reply ∧
        J (done ++ [x]) s1) :
    ∀ (xs done : List α) {calls : List (Env × Callback)} {todo : List Callback}
      {s : Session}, (∀ x ∈ xs, D x) → calls.map Prod.snd = xs.map f ++ todo →
      (∀ c ∈ calls, E c.1) → J done s →
      ∃ calls2 s2 replies1, calls2.map Prod.snd = todo ∧ (∀ c ∈ calls2, E c.1) ∧
        J (done ++ xs) s2 ∧ (∀ r ∈ replies1, Q r) ∧ s.deliver cfg t calls =
          (s2.deliver cfg t calls2).map fun (replies, x) => (replies1 ++ replies, x)
  | [], done, calls, todo, s, _, hc, hE, hJ =>
    ⟨calls, s, [], hc, hE, by rwa [List.append_nil], by simp, by simp⟩
  | x :: xs, done, [], todo, s, _, hc, _, _ => by simp at hc
  | x :: xs, done, (env, cb) :: calls, todo, s, hD, hc, hE, hJ => by
    simp only [List.map_cons, List.cons_append, List.cons.injEq] at hc
    obtain ⟨rfl, hc⟩ := hc
    obtain ⟨reply, s1, hst, hr, hq, hJ1⟩ := hstep (hE _ List.mem_cons_self)
      (hD x List.mem_cons_self) hJ
    obtain ⟨calls2, s2, replies1, hc2, hE2, hJ2, hq2, he⟩ := deliver_goes f hstep xs _
      (fun y hy => hD y (List.mem_cons_of_mem _ hy)) hc
      (fun c hm => hE c (List.mem_cons_of_mem _ hm)) hJ1
    rw [List.append_assoc] at hJ2
    refine ⟨calls2, s2, reply :: replies1, hc2, hE2, hJ2, by simpa [hq] using hq2, ?_⟩
    simp only [Session.deliver, hst, if_pos hr, he, Option.map_map]
    rfl

/-- A connection starts with a fresh session, at the time that `time` answers. -/
theorem connect_fresh (ht : env.time = some t) (h : mlfiConnect cfg env .start = (.continue_, w)) :
    w.Shows cfg t (some .fresh) := by
  simp only [mlfiConnect, ht, Prod.mk.injEq, true_and] at h
  subst h
  exact ⟨_, [], [], rfl, rfl, rfl, rfl, Queue.nil _ _, rfl, Chain.nil _, rfl, by simp, rfl,
    fun _ => rfl, rfl⟩

theorem connect_shows (h : mlfiConnect cfg env .start = (.continue_, w)) :
    ∃ t, w.Shows cfg t (some .fresh) := by
  cases ht : env.time with
  | none =>
    simp only [mlfiConnect, ht, Prod.mk.injEq] at h
    exact absurd h.1 (ErrorAction.sfsistat_ne _)
  | some t => exact ⟨t, connect_fresh ht h⟩

end

end Messasy
