import Messasy.Milter.Slots
import Messasy.Module.Lda
import Messasy.Module.Maildrop
import Messasy.Module.Zip

/-!
# Messages on one connection

However the messages before it have ended, a message finds the session as `mlfi_connect` has left
it: the callbacks answer as they would for the first message of the connection
(`messages_independent`). The stale tail pointers of the two lists stay behind; nothing reads them
while the heads are NULL.
-/

namespace Messasy

open Lib

/-- What the callbacks read of the record is as `mlfi_connect` leaves it. -/
structure MlfiPriv.AsConnected (priv : MlfiPriv) : Prop where
  envfrom : priv.mlfiEnvfrom = none
  rcptto : priv.mlfiRcpttoH = none
  addrmatched : priv.mlfiAddrmatchedH = none
  headerExistence : priv.headerExistence = false
  extrapriv : priv.mlfiExtrapriv = []

/-- From both worlds on, the callbacks have the same replies. -/
def SameReplies (w w' : World) : Prop :=
  ∀ calls, (deliver calls w).map Prod.fst = (deliver calls w').map Prod.fst

/-! ## The abort hooks -/

section
variable {env : Env} {view : View} {st st' : HookSt} {n : Int}

theorem Module.execAbort_zero {m : Module} (h : m.call .abort env view st = some (n, st')) :
    n = 0 := by
  simp only [Module.call, Module.execAbort] at h
  split at h
  · cases h
    rfl
  · cases h
    rfl
  · cases h

theorem msyExec_zero {l : List Hook} (hzero : ∀ hook ∈ l, ∀ {st n st'},
    hook env view st = some (n, st') → n = 0) (h : msyExec l env view st = some (n, st')) :
    n = 0 := by
  induction l generalizing st with
  | nil =>
    cases h
    rfl
  | cons hook l ih =>
    rw [msyExec_cons] at h
    obtain ⟨⟨k, st1⟩, hx, hrest⟩ := Option.bind_eq_some_iff.1 h
    obtain rfl := hzero hook List.mem_cons_self hx
    exact ih (fun hook hm => hzero hook (List.mem_cons_of_mem _ hm)) hrest

end

section
variable {settings : Settings} {mods : List Module} {t : Nat} {env : Env} {s : Session}
  {reply : Reply} {w : World}

/-- An abort does not cost the session. -/
theorem Session.aborted_kept {r : Option Sfsistat} {os : Os} :
    s.aborted (settings.loading mods) t env r os ≠ some (reply, none) := by
  intro h
  obtain ⟨⟨n, s1, os1⟩, hp, hx⟩ := Option.map_eq_some_iff.1 h
  rw [pass_loading] at hp
  obtain ⟨⟨k, st⟩, hex, hst⟩ := Option.map_eq_some_iff.1 hp
  have hk : k = 0 := by
    refine msyExec_zero ?_ hex
    intro hook hm st n st' hcall
    obtain ⟨m, -, rfl⟩ := List.mem_map.1 hm
    exact m.execAbort_zero hcall
  cases hst
  simp only [hk, if_true, Prod.mk.injEq] at hx
  cases hx.2

theorem Session.step_kept {cb : Callback} :
    s.step (settings.loading mods) t env cb ≠ some (reply, none) := by
  intro h
  generalize hs : (none : Option Session) = x at h
  cases step_cases h with
  | envfrom a => cases hs
  | envrcpt a => cases hs
  | passed hm hp => cases hs
  | failed hm hp hn ha =>
    subst hs
    exact aborted_kept ha
  | gaveUp hs1 hr ha =>
    subst hs
    exact aborted_kept ha

/-- The record is there as long as the callbacks return. -/
theorem Connection.kept {C : World → Env → Callback → Prop} {ph : Phase}
    (h : Connection C (settings.loading mods) ph w) : w.priv ≠ none := by
  induction h with
  | connect he =>
    obtain ⟨t, priv, R, A, hw, -⟩ := connect_shows he
    rw [hw]
    simp
  | @callback ph w w' env cb r h _ _ he ih =>
    obtain ⟨t, s, hsh, -⟩ := (h.session (J := fun _ _ _ => True) (fun _ => trivial)
      fun _ _ _ => trivial).resolve_left ih
    have hagree := step_agree env hsh cb
    rw [he] at hagree
    cases hst : s.step (settings.loading mods) t env cb with
    | none =>
      rw [hst] at hagree
      exact hagree.elim
    | some x =>
      obtain ⟨reply, s'⟩ := x
      rw [hst] at hagree
      obtain ⟨-, hsh'⟩ := hagree
      cases s' with
      | none => exact absurd hst Session.step_kept
      | some s' =>
        obtain ⟨priv, R, A, hw, -⟩ := hsh'
        rw [hw]
        simp

end

/-! ## Between two messages -/

section
variable {cfg : Config} {t : Nat} {w w' : World} {s : Session}

/-- Two records of one session have the same replies. -/
theorem World.Shows.same (h : w.Shows cfg t (some s)) (h' : w'.Shows cfg t (some s)) :
    SameReplies w w' := by
  intro calls
  rcases deliver_agree calls h with ⟨he, hs⟩ | ⟨replies, w1, s1, he, hs, -⟩
  · rcases deliver_agree calls h' with ⟨he', -⟩ | ⟨replies', w1', s1', he', hs', -⟩
    · rw [he, he']
    · rw [hs] at hs'
      cases hs'
  · rcases deliver_agree calls h' with ⟨-, hs'⟩ | ⟨replies', w1', s1', he', hs', -⟩
    · rw [hs] at hs'
      cases hs'
    · rw [hs] at hs'
      cases hs'
      rw [he, he']
      rfl

theorem World.Shows.asConnected (h : w.Shows cfg t (some .fresh)) :
    ∃ priv, w.priv = some priv ∧ priv.AsConnected ∧ priv.mlfiRecvtime = t := by
  obtain ⟨priv, R, A, hw, hp⟩ := h
  have hR : R = [] := List.map_eq_nil_iff.1 hp.rcpttoVals
  have hA : A = [] := List.map_eq_nil_iff.1 hp.addrmatchedVals
  subst hR hA
  exact ⟨priv, hw, ⟨hp.envfrom, hp.rcptto.chain, hp.addrmatched, hp.headerExistence,
    hp.extrapriv⟩, hp.recvtime⟩

end

/-- A message leaves nothing behind in the session. -/
theorem Session.Holds.fresh {K : Str → List Str → Slot → Prop} {mods : List Module} {s : Session}
    (h : s.Holds K mods .idle) : s = .fresh := by
  obtain ⟨slots, hown, -, habs, -⟩ := h.slots
  have hnil : s.extrapriv = [] := hown.eq_nil (habs (.inl rfl))
  rw [h.ended rfl, Session.ended, hnil]
  rfl

/-- **Between two messages** the session is as `mlfi_connect` has left it, whatever modules are
loaded and however the messages so far have ended, and the callbacks of the next messages have the
replies that they would have right behind `mlfi_connect`. -/
theorem messages_independent {settings : Settings} {mods : List Module}
    {C : World → Env → Callback → Prop} {w : World}
    (h : Connection C (settings.loading mods) .idle w) :
    ∃ priv, w.priv = some priv ∧ priv.AsConnected ∧
      ∀ env w0, env.time = some priv.mlfiRecvtime →
        mlfiConnect (settings.loading mods) env .start = (.continue_, w0) → SameReplies w w0 := by
  have hK : ∀ t, SlotInv settings mods t fun _ _ _ => True := fun t =>
    ⟨fun _ _ => trivial, fun _ _ _ _ _ _ _ _ _ _ _ _ => trivial⟩
  obtain ⟨t, s, hsh, hholds⟩ := (h.holds hK).resolve_left h.kept
  obtain rfl := hholds.fresh
  obtain ⟨priv, hw, hp, ht⟩ := hsh.asConnected
  refine ⟨priv, hw, hp, fun env w0 htime he => hsh.same ?_⟩
  rw [← ht]
  exact connect_fresh htime he

/-- The settings of the four modules. -/
def fourModules : Settings :=
  { exampleConfig with cfExtraconfig :=
      [⟨bytes "maildrop", .maildrop exampleFolder⟩,
        ⟨bytes "gzip", .gzip (bytes "/bin/gzip") exampleFolder⟩,
        ⟨bytes "enczip", .enczip (bytes "/bin/zip") (bytes "p") exampleFolder⟩,
        ⟨bytes "lda", .lda (bytes "deliver -d %m")⟩] }

/-- A message whose first header cannot be written, one that gzip refuses at its end, and one that
the client aborts. -/
theorem messages_independent_three : ∃ w priv,
    Connection (fun _ _ _ => True) (fourModules.loading [maildrop, gzip, enczip, lda]) .idle w ∧
    w.priv = some priv ∧ priv.AsConnected := by
  have message : ∀ {w w1 w2 : World},
      Connection (fun _ _ _ => True) (fourModules.loading [maildrop, gzip, enczip, lda]) .idle w →
      w.step .fine (.envfrom (bytes "<a@example.org>")) = some (.continue_, w1) →
      w1.step .fine (.envrcpt (bytes "<b@example.com>")) = some (.continue_, w2) →
      Connection (fun _ _ _ => True) (fourModules.loading [maildrop, gzip, enczip, lda]) .envelope
        w2 := fun h h1 h2 =>
    (h.callback (by exact trivial) trivial h1).callback (by exact trivial) trivial h2
  have h0 : Connection (fun _ _ _ => True) (fourModules.loading [maildrop, gzip, enczip, lda])
      .idle _ := .connect (rfl : mlfiConnect _ .fine .start = (.continue_, _))
  have h1 := (message h0 rfl rfl).callback (by exact trivial) trivial
    (rfl : World.step _ { Env.fine with write := fun _ _ => none }
      (.header (bytes "Subject") (some (bytes "s"))) = some (.accept, _))
  have h2 := (message h1 rfl rfl).callback (by exact trivial) trivial
    (rfl : World.step _ .fine (.header (bytes "Subject") (some (bytes "s"))) = some (.continue_, _))
  have h3 := h2.callback (by exact trivial) trivial
    (rfl : World.step _ { Env.fine with fork := fun _ => false } .eom = some (.accept, _))
  have h4 := (message h3 rfl rfl).callback (by exact trivial) trivial
    (rfl : World.step _ .fine (.header (bytes "Subject") (some (bytes "s"))) = some (.continue_, _))
  have h5 := h4.callback (by exact trivial) trivial
    (rfl : World.step _ .fine .abort = some (.continue_, _))
  obtain ⟨priv, hw, hp, -⟩ := messages_independent h5
  exact ⟨_, priv, h5, hw, hp⟩

end Messasy
