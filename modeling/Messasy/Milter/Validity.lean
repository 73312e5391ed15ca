import Messasy.Milter.Session

/-!
# Session validity

`Connection C cfg ph w`: a connection under the configuration `cfg` has come to `w` in libmilter's
order, every callback under the condition `C`; `ph` says which callbacks may follow. When every
abort pass succeeds, the private record is there before each callback and the reference to the
configuration is held, up to the one release at the end.
-/

namespace Messasy

open Lib

/-- Where a connection stands: between two messages, or behind a callback of a message. -/
inductive Phase
  | idle
  | envelope
  | header
  | body
  deriving DecidableEq

/-- The callbacks that may follow. -/
def Phase.Allows : Phase → Callback → Prop
  | .idle, .envfrom _ => True
  | .envelope, .envrcpt _ => True
  | .envelope, .header _ _ => True
  | .header, .header _ _ => True
  | .envelope, .body _ => True
  | .header, .body _ => True
  | .body, .body _ => True
  | .envelope, .eom => True
  | .header, .eom => True
  | .body, .eom => True
  | .envelope, .abort => True
  | .header, .abort => True
  | .body, .abort => True
  | _, _ => False

/-- The phase behind a callback that has answered `r`. -/
def Phase.behind : Callback → Sfsistat → Phase
  | .envfrom _, .continue_ => .envelope
  | .envrcpt _, .continue_ => .envelope
  | .header _ _, .continue_ => .header
  | .body _, .continue_ => .body
  | _, _ => .idle

/-- The worlds between the callbacks of a connection: `mlfi_connect` first, then messages. -/
inductive Connection (C : World → Env → Callback → Prop) (cfg : Config) : Phase → World → Prop
  | connect {env : Env} {w : World} : mlfiConnect cfg env .start = (.continue_, w) →
      Connection C cfg .idle w
  | callback {ph : Phase} {w w' : World} {env : Env} {cb : Callback} {r : Sfsistat} :
      Connection C cfg ph w → ph.Allows cb → C w env cb → w.step env cb = some (r, w') →
      Connection C cfg (.behind cb r) w'

/-- The abort pass that the callback makes, if it makes one, returns 0. -/
def AbortPasses (w : World) (env : Env) (cb : Callback) : Prop :=
  ∀ r w1, { w with os := .start }.main env cb = some (.abort r w1) → ∀ priv, w1.priv = some priv →
    ∀ n w2, w1.exec priv (msyExecAbort priv.config) env = some (n, w2) → n = 0

/-- The record is there and the configuration is held. -/
structure Valid (cfg : Config) (w : World) : Prop where
  priv : ∃ priv, w.priv = some priv ∧ priv.config = cfg
  calls : w.calls = [.retrieve]

/-! ## What each part of a callback keeps -/

section
variable {cfg : Config} {env : Env} {w w' : World} {priv : MlfiPriv} {r : Sfsistat} {e : Ending}

/-- The world at the end of a callback, before a possible abort. -/
def Ending.world : Ending → World
  | .return_ _ w => w
  | .abort _ w => w

theorem Valid.exec (h : Valid cfg w) (hp : priv.config = cfg) {hook : Hook} {n : Int}
    (he : w.exec priv hook env = some (n, w')) : Valid cfg w' := by
  obtain ⟨⟨k, st⟩, -, hst⟩ := Option.map_eq_some_iff.1 he
  cases hst
  exact ⟨⟨_, rfl, hp⟩, h.calls⟩

theorem Valid.eomCleanup (h : Valid cfg w) (he : eomCleanup w = some (r, w')) : Valid cfg w' := by
  obtain ⟨priv, hw, hp⟩ := h.priv
  unfold Messasy.eomCleanup at he
  rw [hw] at he
  cases h1 : freeStrlist w.heap priv.mlfiRcpttoH with
  | none => simp [h1] at he
  | some heap =>
    simp only [h1, Option.map_eq_some_iff] at he
    obtain ⟨heap', -, hst⟩ := he
    cases hst
    exact ⟨⟨_, rfl, hp⟩, h.calls⟩

theorem Valid.execOrAbort (h : Valid cfg w) (hp : priv.config = cfg) {hook : Hook}
    {next : World → Option Ending}
    (hnext : ∀ w1, Valid cfg w1 → next w1 = some e → Valid cfg e.world)
    (he : execOrAbort env priv hook next w = some e) : Valid cfg e.world := by
  unfold Messasy.execOrAbort at he
  cases hx : w.exec priv hook env with
  | none => simp [hx] at he
  | some nw =>
    obtain ⟨n, w1⟩ := nw
    have hv := h.exec hp hx
    rw [hx] at he
    by_cases hn : n = 0
    · subst hn
      exact hnext w1 hv he
    · have he' : some (Ending.abort (some priv.config.cfErroractionConv.sfsistat) w1) = some e := by
        rw [← he]
        split
        · rename_i heq; cases heq
        · rename_i heq; cases heq; exact absurd rfl hn
        · rename_i heq; cases heq; rfl
      cases he'
      exact hv

/-- The hooks of `mlfi_header` and `mlfi_body`. -/
theorem Valid.hooks (h : Valid cfg w) (hp : priv.config = cfg) {hook : Hook}
    (he : Messasy.execOrAbort env priv hook (fun w => some (.return_ .continue_ w)) w = some e) :
    Valid cfg e.world :=
  h.execOrAbort hp (fun w1 hv h1 => by cases h1; exact hv) he

theorem Valid.header (h : Valid cfg w) {headerf : Str} {headerv : Option Str}
    (he : mlfiHeader env headerf headerv w = some e) : Valid cfg e.world := by
  obtain ⟨priv, hw, hp⟩ := h.priv
  unfold mlfiHeader at he
  rw [hw] at he
  dsimp only at he
  split at he
  · cases he
  · cases he; exact h
  · split at he
    · exact h.hooks hp he
    · unfold firstHeader at he
      split at he
      · cases he
      · dsimp only at he
        have hv : ∀ (heap : StrHeap) (hd tl : Option Nat), Valid cfg { w with
            heap, priv := some { priv with
              headerExistence := true, mlfiAddrmatchedH := hd, mlfiAddrmatchedT := tl } } :=
          fun heap hd tl => ⟨⟨_, rfl, hp⟩, h.calls⟩
        split at he
        · cases he; exact hv ..
        · split at he
          · cases he; exact hv ..
          · refine (hv ..).hooks ?_ he
            exact hp

theorem Valid.main (h : Valid cfg w) {cb : Callback} (he : w.main env cb = some e) :
    Valid cfg e.world := by
  obtain ⟨priv, hw, hp⟩ := h.priv
  cases cb with
  | envfrom a =>
    simp only [World.main, mlfiEnvfrom, hw, Option.map_some, Option.some.injEq] at he
    subst he
    exact ⟨⟨_, rfl, hp⟩, h.calls⟩
  | envrcpt a =>
    simp only [World.main, mlfiEnvrcpt, hw, Option.map_map, Option.map_eq_some_iff] at he
    obtain ⟨x, -, rfl⟩ := he
    exact ⟨⟨_, rfl, hp⟩, h.calls⟩
  | header f v => exact h.header he
  | body b =>
    simp only [World.main, mlfiBody, hw] at he
    exact h.hooks hp he
  | eom =>
    simp only [World.main, mlfiEom, hw] at he
    refine h.execOrAbort hp (fun w1 hv h1 => ?_) he
    obtain ⟨⟨r, w2⟩, h2, rfl⟩ := Option.map_eq_some_iff.1 h1
    exact hv.eomCleanup h2
  | abort =>
    cases he
    exact h

/-- An abort whose pass succeeds ends in `eom_cleanup`. -/
theorem Valid.abort (h : Valid cfg w) (hpass : ∀ priv, w.priv = some priv → ∀ n w2,
      w.exec priv (msyExecAbort priv.config) env = some (n, w2) → n = 0)
    (he : mlfiAbort env w = some (r, w')) : Valid cfg w' := by
  obtain ⟨priv, hw, hp⟩ := h.priv
  unfold mlfiAbort at he
  rw [hw] at he
  dsimp only at he
  split at he
  · cases he
  · rename_i w1 h1
    exact (h.exec hp h1).eomCleanup he
  · rename_i n w1 hn h1
    exact absurd (hpass priv hw n w1 h1) fun h0 => hn (h0 ▸ rfl)

/-- **Step.** A callback whose abort pass succeeds keeps the session valid. -/
theorem Valid.step (h : Valid cfg w) {cb : Callback} (hpass : AbortPasses w env cb)
    (he : w.step env cb = some (r, w')) : Valid cfg w' := by
  obtain ⟨e, hmain, hfin⟩ := Option.bind_eq_some_iff.1 he
  have h0 : Valid cfg { w with os := .start } := ⟨h.priv, h.calls⟩
  have hv := h0.main hmain
  cases e with
  | return_ r1 w1 =>
    cases hfin
    exact hv
  | abort r1 w1 =>
    obtain ⟨⟨r2, w2⟩, h2, hst⟩ := Option.map_eq_some_iff.1 hfin
    cases hst
    exact hv.abort (hpass r1 w1 hmain) h2

theorem Valid.connect (he : mlfiConnect cfg env .start = (.continue_, w)) : Valid cfg w := by
  unfold mlfiConnect at he
  cases ht : env.time with
  | none =>
    simp only [ht, Prod.mk.injEq] at he
    exact absurd he.1 (ErrorAction.sfsistat_ne _)
  | some t =>
    simp only [ht, Prod.mk.injEq, true_and] at he
    subst he
    exact ⟨⟨_, rfl, rfl⟩, rfl⟩

/-- **Run.** -/
theorem Connection.valid {ph : Phase} (h : Connection AbortPasses cfg ph w) : Valid cfg w := by
  induction h with
  | connect he => exact .connect he
  | callback _ _ hpass he ih => exact ih.step hpass he

end

/-- While every abort pass succeeds, each callback finds the record with its reference held, and
`mlfi_close` makes the only release. -/
theorem session_valid {cfg : Config} {ph : Phase} {w : World}
    (h : Connection AbortPasses cfg ph w) :
    (∃ priv, w.priv = some priv ∧ priv.config = cfg) ∧ w.calls = [.retrieve] ∧
      (mlfiClose w).2.priv = none ∧ (mlfiClose w).2.calls = [.retrieve, .release] := by
  obtain ⟨⟨priv, hw, hp⟩, hcalls⟩ := h.valid
  exact ⟨⟨priv, hw, hp⟩, hcalls, by simp [mlfiClose, mlfiFreepriv, hw],
    by simp [mlfiClose, mlfiFreepriv, hw, hcalls]⟩

/-! ## Failing hooks -/

/-- A module with one body hook, which fails, and one abort hook. -/
def failingConfig (aborted : Int) : Config :=
  { exampleConfig with
    cfExecHeader := []
    cfExecBody := [fun _ _ _ st => some (-1, st)]
    cfExecEom := []
    cfExecAbort := [fun _ _ st => some (aborted, st)] }

/-- A message that failed in the body hook leaves the session valid when the abort hook returns
0. -/
theorem session_valid_failed : ∃ w, Connection AbortPasses (failingConfig 0) .idle w ∧
    (mlfiClose w).2.calls = [.retrieve, .release] := by
  have h0 : Connection AbortPasses (failingConfig 0) .idle _ :=
    .connect (rfl : mlfiConnect (failingConfig 0) .fine .start = (.continue_, _))
  have h1 := h0.callback (by exact trivial) (fun r w1 h => by cases h)
    (rfl : World.step _ .fine (.envfrom (bytes "<a@example.com>")) = some (.continue_, _))
  have h2 := h1.callback (by exact trivial)
    (fun r w1 h priv hp n w2 he => by cases h; cases hp; cases he; rfl)
    (rfl : World.step _ .fine (.body []) = some (.accept, _))
  exact ⟨_, h2, (session_valid h2).2.2.2⟩

/-- Without the condition the next message finds no record: the body hook and then the abort hook
failed. -/
theorem session_invalid : ∃ w, Connection (fun _ _ _ => True) (failingConfig (-1)) .idle w ∧
    w.priv = none ∧ w.step .fine (.envfrom (bytes "<a@example.com>")) = none := by
  have h0 : Connection (fun _ _ _ => True) (failingConfig (-1)) .idle _ :=
    .connect (rfl : mlfiConnect (failingConfig (-1)) .fine .start = (.continue_, _))
  have h1 := h0.callback (by exact trivial) trivial
    (rfl : World.step _ .fine (.envfrom (bytes "<a@example.com>")) = some (.continue_, _))
  have h2 := h1.callback (by exact trivial) trivial
    (rfl : World.step _ .fine (.body []) = some (.accept, _))
  exact ⟨_, h2, rfl, rfl⟩

end Messasy
