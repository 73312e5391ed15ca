import Messasy.Server.Holders

/-!
# Sessions beside each other

Whatever the other connections, the handlers and the reloads do in between, a milter connection
goes through the states, and answers the replies, of the same callbacks on their own under the
configuration that was current when it connected.
-/

namespace Messasy

open Lib

namespace Server

/-- The events of the connection `i`. -/
def own (i : Nat) : List ServerEvent → List ConnEvent
  | [] => []
  | .conn j e :: events => if j = i then e :: own i events else own i events
  | _ :: events => own i events

theorem own_append (i : Nat) (l₁ l₂ : List ServerEvent) :
    own i (l₁ ++ l₂) = own i l₁ ++ own i l₂ := by
  induction l₁ with
  | nil => rfl
  | cons e l₁ ih =>
    cases e with
    | conn j e =>
      simp only [List.cons_append, own, ih]
      split <;> rfl
    | _ => simpa only [List.cons_append, own] using ih

end Server

namespace Conn

theorem run_append (l₁ l₂ : List ConnEvent) (c : Conn) :
    run (l₁ ++ l₂) c = (run l₁ c).bind (run l₂) := by
  induction l₁ generalizing c with
  | nil => rfl
  | cons e l₁ ih =>
    simp only [List.cons_append, run, Option.bind_assoc]
    exact congrArg _ (funext ih)

theorem run_addr : ∀ {events : List ConnEvent} {c c' : Conn}, run events c = some c' →
    c'.addr = c.addr
  | [], c, c', h => by
    cases h
    rfl
  | e :: events, c, c', h => by
    obtain ⟨c1, he, h⟩ := Option.bind_eq_some_iff.1 h
    rw [run_addr h]
    cases e with
    | callback env cb =>
      obtain ⟨ph, -, he⟩ := Option.bind_eq_some_iff.1 he
      split at he
      · obtain ⟨rw, -, hst⟩ := Option.map_eq_some_iff.1 he
        cases hst
        rfl
      · cases he
    | close =>
      obtain ⟨ph, -, hst⟩ := Option.map_eq_some_iff.1 he
      cases hst
      rfl

/-- A connection that is open has come to its world in libmilter's order. -/
theorem run_connection {cfg : Config} : ∀ {events : List ConnEvent} {c c' : Conn},
    run events c = some c' →
    (∀ ph, c.phase = some ph → Connection (fun _ _ _ => True) cfg ph c.world) →
    ∀ ph, c'.phase = some ph → Connection (fun _ _ _ => True) cfg ph c'.world
  | [], c, c', h, hc => by
    cases h
    exact hc
  | e :: events, c, c', h, hc => by
    obtain ⟨c1, he, h⟩ := Option.bind_eq_some_iff.1 h
    refine run_connection h fun ph hph => ?_
    cases e with
    | callback env cb =>
      obtain ⟨ph0, hph0, he⟩ := Option.bind_eq_some_iff.1 he
      split at he
      · obtain ⟨⟨r, w⟩, hstep, hst⟩ := Option.map_eq_some_iff.1 he
        cases hst
        obtain rfl := Option.some.inj hph
        exact (hc ph0 hph0).callback ‹_› trivial hstep
      · cases he
    | close =>
      obtain ⟨ph0, -, hst⟩ := Option.map_eq_some_iff.1 he
      cases hst
      cases hph

theorem start_continue {p : Nat} {cfg : Config} {env : Env}
    (h : (start p cfg env).cfg = some p) :
    mlfiConnect cfg env .start = (.continue_, (start p cfg env).world) := by
  refine Prod.ext ?_ rfl
  unfold start Conn.cfg mlfiConnect at h
  unfold mlfiConnect
  cases ht : env.time with
  | none => simp [ht, World.start] at h
  | some t => rfl

theorem start_connection {p : Nat} {cfg : Config} {env : Env} (h : (start p cfg env).cfg = some p) :
    Connection (fun _ _ _ => True) cfg .idle (start p cfg env).world :=
  .connect (start_continue h)

end Conn

namespace Server

section
variable {s s' : Server} {e : ServerEvent} {c : Conn} {i p : Nat}

/-- What an event does to the connection `i`, which may be the new one. -/
theorem Steps.conns (h : s.Steps e s') (hc : s'.conns[i]? = some c) :
    (∃ c0, s.conns[i]? = some c0 ∧ Conn.run (own i [e]) c0 = some c) ∨
    (∃ env p, e = .connect env ∧ i = s.conns.length ∧ s.store.curCfg = some p ∧
      c = Conn.start p (s.loaded p).config env ∧ c.cfg = some p) := by
  cases h with
  | @connect env p store hcur hcfg =>
    dsimp only at hc
    rcases Nat.lt_or_ge i s.conns.length with hlt | hge
    · rw [List.getElem?_append_left hlt] at hc
      exact .inl ⟨c, hc, rfl⟩
    · rw [List.getElem?_append_right hge] at hc
      obtain ⟨hi, heq⟩ := List.getElem?_eq_some_iff.1 hc
      rw [List.getElem_singleton] at heq
      rw [List.length_singleton] at hi
      subst heq
      exact .inr ⟨env, p, rfl, by omega, hcur, rfl, hcfg⟩
  | @conn j e c0 c' store hj he hk =>
    dsimp only at hc
    by_cases hij : j = i
    · subst hij
      obtain rfl : c' = c := by
        rw [List.getElem?_set_self (List.getElem?_eq_some_iff.1 hj).1] at hc
        exact Option.some.inj hc
      refine .inl ⟨c0, hj, ?_⟩
      simp only [own, if_true, Conn.run, he, Option.bind_some]
    · rw [List.getElem?_set_ne hij] at hc
      refine .inl ⟨c, hc, ?_⟩
      simp only [own, if_neg hij, Conn.run]
  | _ => exact .inl ⟨c, hc, rfl⟩

/-- What is loaded once stays. -/
theorem Steps.loaded (h : s.Steps e s') (hp : p < s.store.heap.next) :
    s'.loaded p = s.loaded p ∧ p < s'.store.heap.next := by
  cases h with
  | connect _ _ _ hk => exact ⟨rfl, hk.next ▸ hp⟩
  | refused hk => exact ⟨rfl, hk.next ▸ hp⟩
  | conn _ _ hk => exact ⟨rfl, hk.next ▸ hp⟩
  | accept _ _ hk => exact ⟨rfl, hk.next ▸ hp⟩
  | accepted _ hk => exact ⟨rfl, hk.next ▸ hp⟩
  | retrieve _ _ _ _ hk => exact ⟨rfl, hk.next ▸ hp⟩
  | compare _ _ _ _ hk => exact ⟨rfl, hk.next ▸ hp⟩
  | @reload _ _ _ _ store _ _ _ _ _ hn _ =>
    refine ⟨Function.update_of_ne (Nat.ne_of_lt hp) _ _, ?_⟩
    change p < store.heap.next
    omega
  | line => exact ⟨rfl, hp⟩
  | call => exact ⟨rfl, hp⟩
  | failed => exact ⟨rfl, hp⟩

end

/-- How the connection `i` has come about: it connected behind `before`, and its own events led it
from there to `c`. -/
def History (first : Loaded) (events : List ServerEvent) (s : Server) (i : Nat) (c : Conn) : Prop :=
  ∃ before env after s0 p, events = before ++ .connect env :: after ∧
    run before (start first) = some s0 ∧ s0.conns.length = i ∧ s0.store.curCfg = some p ∧
    s.loaded p = s0.loaded p ∧ (Conn.start p (s0.loaded p).config env).cfg = some p ∧
    Conn.run (own i after) (Conn.start p (s0.loaded p).config env) = some c ∧
    p < s.store.heap.next

theorem history {first : Loaded} {events : List ServerEvent} {s : Server}
    (h : run events (start first) = some s) :
    ∀ i c, s.conns[i]? = some c → History first events s i c := by
  refine run_induction (P := fun events s => ∀ i c, s.conns[i]? = some c →
    History first events s i c) ?_ ?_ h
  · intro i c hc
    cases hc
  · intro events s e s' hrun ih he i c hc
    have hs := Inv.run hrun
    have hstep := hs.step_cases he
    rcases hstep.conns hc with ⟨c0, hc0, hown⟩ | ⟨env, p, rfl, hi, hcur, rfl, hcfg⟩
    · obtain ⟨before, env, after, s0, p, rfl, hbefore, hi, hcur, hload, hcfg, hafter, hp⟩ :=
        ih i c0 hc0
      obtain ⟨hload', hp'⟩ := hstep.loaded hp
      refine ⟨before, env, after ++ [e], s0, p, by simp, hbefore, hi, hcur, hload'.trans hload,
        hcfg, ?_, hp'⟩
      rw [own_append, Conn.run_append, hafter, Option.bind_some, hown]
    · have hp : p < s.store.heap.next := by
        obtain ⟨q, d, hq, hd⟩ := hs.held.cur
        obtain rfl := Option.some.inj (hq.symm.trans hcur)
        exact Arena.lt_next hd
      obtain ⟨hload, hp'⟩ := hstep.loaded hp
      exact ⟨events, env, [], s, p, rfl, hrun, hi.symm, hcur, hload, hcfg, rfl, hp'⟩

end Server

end Messasy
