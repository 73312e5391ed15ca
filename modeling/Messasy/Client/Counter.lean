import Mathlib.Algebra.Group.Nat.Defs
import Mathlib.Data.List.Count

/-!
# The client counter (`client_side.c`)

`thread_count` and its mutex `tc_lock`, one atomic action at a time: the accept loop of
`manager_main` counts a client with `increment_tc` or refuses it, and every `request_handler` ends
with `decrement_tc`. The refusal gives `tc_lock` free although `manager_main` does not hold it.
A client that `hosts_ctl` turns away does not reach the counter, and a failing `malloc` or
`pthread_create` ends the program.

* The counter is right at rest when no refusal comes while the mutex is held
  (`threadCount_accurate`).
* A refusal between two handlers that finish loses an update (`threadCount_lost`).
-/

namespace Messasy

/-- `thread_count` and `tc_lock`. -/
structure Tc where
  threadCount : UInt32
  tcLock : Bool
  deriving DecidableEq, Repr

/-- Where a thread stands inside `increment_tc` or `decrement_tc`; `v` is the value to store. -/
inductive UpdateTc
  | lock
  | load
  | store (v : UInt32)
  | unlock
  deriving DecidableEq, Repr

/-- The next action of `increment_tc` (`f` adds 1) or `decrement_tc` (`f` takes 1 away), and where
the thread stands behind it. -/
def UpdateTc.step (f : UInt32 → UInt32) : UpdateTc → Tc → Option (Option UpdateTc × Tc)
  | .lock, tc => if tc.tcLock then none else some (some .load, { tc with tcLock := true })
  | .load, tc => some (some (.store (f tc.threadCount)), tc)
  | .store v, tc => some (some .unlock, { tc with threadCount := v })
  | .unlock, tc => some (none, { tc with tcLock := false })

def incrementTc : UpdateTc → Tc → Option (Option UpdateTc × Tc) := UpdateTc.step (· + 1)

def decrementTc : UpdateTc → Tc → Option (Option UpdateTc × Tc) := UpdateTc.step (· - 1)

/-- Where `manager_main` stands. `limit` is `cf_commandmaxclients` as it is compared. -/
inductive ManagerPc
  | accept
  | test (limit : UInt32)
  /-- `ERR_MANY_CONNECT` reads the counter for its text. -/
  | report
  /-- `pthread_mutex_unlock(&tc_lock)`. -/
  | refuse
  | increment (u : UpdateTc)
  /-- `pthread_create`. -/
  | create
  deriving DecidableEq, Repr

/-- Where a `request_handler` stands. -/
inductive HandlerPc
  | running
  | decrement (u : UpdateTc)
  | ended
  deriving DecidableEq, Repr

/-- The counter, the accept loop, and a handler for every client that got one. -/
structure Clients where
  tc : Tc
  manager : ManagerPc
  handlers : List HandlerPc
  deriving DecidableEq, Repr

inductive ClientAct
  /-- `accept` returns a client, and the configuration is retrieved. -/
  | accept (limit : UInt32)
  | manager
  | handler (i : Nat)
  deriving DecidableEq, Repr

namespace Clients

def start : Clients := ⟨⟨0, false⟩, .accept, []⟩

/-- The next action of `manager_main` on a client. -/
def managerMain (s : Clients) : Option Clients :=
  match s.manager with
  | .accept => none
  | .test limit =>
    if limit ≤ s.tc.threadCount then some { s with manager := .report }
    else some { s with manager := .increment .lock }
  | .report => some { s with manager := .refuse }
  | .refuse => some { s with manager := .accept, tc := { s.tc with tcLock := false } }
  | .increment u => (incrementTc u s.tc).map fun (u', tc) =>
    { s with tc, manager := u'.elim .create .increment }
  | .create => some { s with manager := .accept, handlers := s.handlers ++ [.running] }

/-- The next action of the handler `i` at its end. -/
def requestHandler (s : Clients) (i : Nat) : HandlerPc → Option Clients
  | .running => some { s with handlers := s.handlers.set i (.decrement .lock) }
  | .decrement u => (decrementTc u s.tc).map fun (u', tc) =>
    { s with tc, handlers := s.handlers.set i (u'.elim .ended .decrement) }
  | .ended => none

def step (s : Clients) : ClientAct → Option Clients
  | .accept limit => if s.manager = .accept then some { s with manager := .test limit } else none
  | .manager => s.managerMain
  | .handler i => s.handlers[i]?.bind (s.requestHandler i)

/-- A run, in which every action meets the condition `ok`. -/
def run (ok : Clients → ClientAct → Prop) [∀ s a, Decidable (ok s a)] :
    List ClientAct → Clients → Option Clients
  | [], s => some s
  | a :: acts, s => if ok s a then (s.step a).bind (run ok acts) else none

/-! ## What the counter is for -/

end Clients

/-- The client is accepted, and its handler does not exist yet. -/
def ManagerPc.accepted : ManagerPc → Bool
  | .increment _ | .create => true
  | _ => false

/-- The handler has not decremented the counter yet. -/
def HandlerPc.counted : HandlerPc → Bool
  | .decrement .unlock | .ended => false
  | _ => true

namespace Clients

/-- The accepted clients whose handler has not yet decremented the counter. -/
def clients (s : Clients) : Nat := s.handlers.countP HandlerPc.counted + s.manager.accepted.toNat

/-- No thread is inside `increment_tc` or `decrement_tc`. -/
def Quiet (s : Clients) : Prop :=
  (∀ u, s.manager ≠ .increment u) ∧ ∀ u, .decrement u ∉ s.handlers

def Accurate (s : Clients) : Prop := s.Quiet → s.tc.threadCount.toNat = s.clients

/-- A refusal finds the mutex free. -/
def Undisturbed (s : Clients) (a : ClientAct) : Prop :=
  a = .manager ∧ s.manager = .refuse → s.tc.tcLock = false

instance (s : Clients) (a : ClientAct) : Decidable (s.Undisturbed a) :=
  inferInstanceAs (Decidable (_ → _))

end Clients

/-! ## The invariant -/

/-- The thread holds the mutex. -/
def UpdateTc.holds : UpdateTc → Bool
  | .lock => false
  | _ => true

def ManagerPc.holds : ManagerPc → Bool
  | .increment u => u.holds
  | _ => false

def HandlerPc.holds : HandlerPc → Bool
  | .decrement u => u.holds
  | _ => false

/-- A value that waits to be stored is `v`. -/
def UpdateTc.Stores (v : UInt32) (u : UpdateTc) : Prop := ∀ w, u = .store w → w = v

/-- The client is accepted, and the counter does not count it yet. -/
def ManagerPc.uncounted : ManagerPc → Bool
  | .increment .unlock => false
  | .increment _ => true
  | _ => false

namespace Clients

/-- The mutex is held by the one thread behind its lock, a value that was loaded is still the
counter's, and the counter is right but for a client that is being counted. -/
structure Inv (s : Clients) : Prop where
  owner : s.handlers.countP HandlerPc.holds + s.manager.holds.toNat = s.tc.tcLock.toNat
  decrements : ∀ (i : Nat) u, s.handlers[i]? = some (.decrement u) →
    u.Stores (s.tc.threadCount - 1)
  increments : ∀ u, s.manager = .increment u → u.Stores (s.tc.threadCount + 1)
  count : s.tc.threadCount.toNat + s.manager.uncounted.toNat = s.clients
  room : s.manager.uncounted = true → s.tc.threadCount.toNat + 1 < 2 ^ 32

theorem Inv.start : Inv start := by
  refine ⟨rfl, ?_, ?_, rfl, ?_⟩
  · intro i u h
    simp [Clients.start] at h
  · intro u h
    cases h
  · intro h
    cases h

/-- Replacing one element changes a count by that element. -/
theorem countP_set_add {α : Type} (p : α → Bool) {a : α} (b : α) : ∀ {l : List α} {i : Nat},
    l[i]? = some a → (l.set i b).countP p + (p a).toNat = l.countP p + (p b).toNat
  | [], i, h => by simp at h
  | x :: l, 0, h => by
    obtain rfl : x = a := by simpa using h
    simp only [List.set_cons_zero, List.countP_cons]
    cases p x <;> cases p b <;> simp
  | x :: l, i + 1, h => by
    have ih := countP_set_add p b (l := l) (i := i) (by simpa using h)
    simp only [List.set_cons_succ, List.countP_cons]
    omega

section
variable {s s' : Clients} {i : Nat} {pc : HandlerPc}

/-- A handler that holds the mutex is the only thread to hold it. -/
theorem Inv.alone (h : Inv s) (hi : s.handlers[i]? = some pc) (hpc : pc.holds = true) :
    s.tc.tcLock = true ∧ s.manager.holds = false ∧
      ∀ j pc', j ≠ i → s.handlers[j]? = some pc' → pc'.holds = false := by
  have howner := h.owner
  have hset := countP_set_add HandlerPc.holds .ended hi
  rw [hpc, show HandlerPc.holds .ended = false from rfl] at hset
  have hlock : s.tc.tcLock = true := by
    cases ht : s.tc.tcLock with
    | true => rfl
    | false =>
      simp only [ht, Bool.toNat_false, Bool.toNat_true] at howner hset
      omega
  simp only [hlock, Bool.toNat_true, Bool.toNat_false] at howner hset
  have hmanager : s.manager.holds = false := by
    cases hm : s.manager.holds with
    | false => rfl
    | true =>
      simp only [hm, Bool.toNat_true] at howner
      omega
  refine ⟨hlock, hmanager, ?_⟩
  intro j pc' hj hpc'
  have hzero : (s.handlers.set i .ended).countP HandlerPc.holds = 0 := by omega
  have hmem : pc' ∈ s.handlers.set i .ended :=
    List.mem_of_getElem? (i := j) (by rw [List.getElem?_set_ne (Ne.symm hj), hpc'])
  simpa using List.countP_eq_zero.1 hzero pc' hmem

/-- A handler that is still counted is in the counter. -/
theorem Inv.pos (h : Inv s) (hi : s.handlers[i]? = some pc) (hpc : pc.counted = true) :
    1 ≤ s.tc.threadCount.toNat := by
  have hpos : 0 < s.handlers.countP HandlerPc.counted :=
    List.countP_pos_iff.2 ⟨pc, List.mem_of_getElem? hi, hpc⟩
  have hmanager : s.manager.uncounted.toNat ≤ s.manager.accepted.toNat := by
    cases s.manager with
    | increment u => cases u <;> exact Bool.toNat_le _
    | _ => exact Nat.zero_le _
  have hcount := h.count
  simp only [clients] at hcount
  omega

/-- A handler moves from `pc` to `pc'`, and the counter and the mutex with it. -/
theorem Inv.move (h : Inv s) (hi : s.handlers[i]? = some pc) {pc' : HandlerPc} {tc : Tc}
    (hlock : tc.tcLock.toNat + pc.holds.toNat = s.tc.tcLock.toNat + pc'.holds.toNat)
    (hcount : tc.threadCount.toNat + pc.counted.toNat =
      s.tc.threadCount.toNat + pc'.counted.toNat)
    (hsame : tc.threadCount = s.tc.threadCount ∨ pc.holds = true)
    (hstores : ∀ u, pc' = .decrement u → u.Stores (tc.threadCount - 1))
    (hle : pc'.counted.toNat ≤ pc.counted.toNat) :
    Inv { s with tc, handlers := s.handlers.set i pc' } := by
  have hholds := countP_set_add HandlerPc.holds pc' hi
  have hcounted := countP_set_add HandlerPc.counted pc' hi
  refine ⟨?_, ?_, ?_, ?_, ?_⟩
  · have howner := h.owner
    show (s.handlers.set i pc').countP HandlerPc.holds + s.manager.holds.toNat = tc.tcLock.toNat
    omega
  · intro j u hj
    by_cases hji : j = i
    · subst hji
      rw [List.getElem?_set_self (List.getElem?_eq_some_iff.1 hi).1] at hj
      exact hstores u (Option.some.inj hj)
    · rw [List.getElem?_set_ne (Ne.symm hji)] at hj
      rcases hsame with hsame | hpc
      · rw [hsame]
        exact h.decrements j u hj
      · intro w hw
        have hno := (h.alone hi hpc).2.2 j _ hji hj
        rw [hw] at hno
        cases hno
  · intro u hu
    rcases hsame with hsame | hpc
    · rw [hsame]
      exact h.increments u hu
    · intro w hw
      have hno := (h.alone hi hpc).2.1
      have hu : s.manager = .increment u := hu
      rw [hu, hw] at hno
      cases hno
  · have hold := h.count
    simp only [clients] at hold ⊢
    omega
  · intro hroom
    have hold := h.room hroom
    show tc.threadCount.toNat + 1 < 2 ^ 32
    omega

/-- A handler goes on. -/
theorem Inv.requestHandler (h : Inv s) (hi : s.handlers[i]? = some pc)
    (hs : s.requestHandler i pc = some s') : Inv s' := by
  cases pc with
  | running =>
    cases hs
    refine h.move hi rfl rfl (.inl rfl) ?_ (Nat.le_refl _)
    rintro u ⟨⟩ w hw
    cases hw
  | ended => cases hs
  | decrement u =>
    obtain ⟨⟨u', tc⟩, hu, rfl⟩ := Option.map_eq_some_iff.1 hs
    cases u with
    | lock =>
      simp only [decrementTc, UpdateTc.step] at hu
      split at hu
      · cases hu
      · rename_i hfree
        have hfree : s.tc.tcLock = false := by simpa using hfree
        cases hu
        refine h.move hi (by rw [hfree]; rfl) rfl (.inl rfl) ?_ (Nat.le_refl _)
        rintro u ⟨⟩ w hw
        cases hw
    | load =>
      cases hu
      refine h.move hi rfl rfl (.inl rfl) ?_ (Nat.le_refl _)
      rintro u ⟨⟩ w ⟨⟩
      rfl
    | store v =>
      cases hu
      obtain rfl := h.decrements i _ hi v rfl
      refine h.move hi rfl ?_ (.inr rfl) ?_ (Nat.zero_le _)
      · have hpos := h.pos hi rfl
        have hone : 1 ≤ s.tc.threadCount := UInt32.le_iff_toNat_le.2 hpos
        show (s.tc.threadCount - 1).toNat + 1 = s.tc.threadCount.toNat + 0
        rw [UInt32.toNat_sub_of_le _ _ hone]
        exact Nat.sub_add_cancel hpos
      · rintro u ⟨⟩ w hw
        cases hw
    | unlock =>
      cases hu
      have hlock := (h.alone hi rfl).1
      refine h.move hi (by rw [hlock]; rfl) rfl (.inl rfl) ?_ (Nat.le_refl _)
      rintro u ⟨⟩

/-- `manager_main` inside `increment_tc`. -/
theorem Inv.increment (h : Inv s) {u : UpdateTc} (hm : s.manager = .increment u)
    {u' : Option UpdateTc} {tc : Tc} (hu : incrementTc u s.tc = some (u', tc)) :
    Inv { s with tc, manager := u'.elim .create .increment } := by
  have howner := h.owner
  have hcount := h.count
  have hroom := h.room
  have hle := Bool.toNat_le s.tc.tcLock
  simp only [hm, clients] at howner hcount hroom
  cases u with
  | lock =>
    simp only [incrementTc, UpdateTc.step] at hu
    split at hu
    · cases hu
    · rename_i hfree
      have hfree : s.tc.tcLock = false := by simpa using hfree
      rw [hfree] at howner
      cases hu
      refine ⟨?_, h.decrements, ?_, hcount, hroom⟩
      · show s.handlers.countP HandlerPc.holds + 1 = 1
        rw [show s.handlers.countP HandlerPc.holds = 0 from howner]
      · rintro u ⟨⟩ w hw
        cases hw
  | load =>
    cases hu
    refine ⟨howner, h.decrements, ?_, hcount, hroom⟩
    rintro u ⟨⟩ w ⟨⟩
    rfl
  | store v =>
    cases hu
    obtain rfl := h.increments _ hm v rfl
    have howner : s.handlers.countP HandlerPc.holds + 1 = s.tc.tcLock.toNat := howner
    have hnone : s.handlers.countP HandlerPc.holds = 0 := by omega
    refine ⟨howner, ?_, ?_, ?_, fun hr => (by cases hr)⟩
    · intro j u hj w hw
      subst hw
      exact absurd rfl (List.countP_eq_zero.1 hnone _ (List.mem_of_getElem? hj))
    · rintro u ⟨⟩ w hw
      cases hw
    · show (s.tc.threadCount + 1).toNat + 0 = s.handlers.countP HandlerPc.counted + 1
      rw [UInt32.toNat_add, UInt32.toNat_one, Nat.mod_eq_of_lt (hroom rfl)]
      exact hcount
  | unlock =>
    cases hu
    have howner : s.handlers.countP HandlerPc.holds + 1 = s.tc.tcLock.toNat := howner
    refine ⟨?_, h.decrements, fun u hu => (by cases hu), hcount, fun hr => (by cases hr)⟩
    show s.handlers.countP HandlerPc.holds + 0 = 0
    omega

/-- The accept loop goes on. -/
theorem Inv.managerMain (h : Inv s) (hfree : s.manager = .refuse → s.tc.tcLock = false)
    (hs : s.managerMain = some s') : Inv s' := by
  have howner := h.owner
  have hcount := h.count
  unfold Clients.managerMain at hs
  simp only [clients] at hcount
  split at hs <;> rename_i hm <;> rw [hm] at howner hcount
  · cases hs
  · rename_i limit
    split at hs
    · cases hs
      exact ⟨howner, h.decrements, fun u hu => (by cases hu), hcount, fun hr => (by cases hr)⟩
    · rename_i hlimit
      cases hs
      refine ⟨howner, h.decrements, ?_, congrArg (· + 1) hcount, ?_⟩
      · rintro u ⟨⟩ w hw
        cases hw
      · intro _
        have hlt := UInt32.lt_iff_toNat_lt.1 (UInt32.not_le.1 hlimit)
        have hmax := limit.toNat_lt
        show s.tc.threadCount.toNat + 1 < 2 ^ 32
        omega
  · cases hs
    exact ⟨howner, h.decrements, fun u hu => (by cases hu), hcount, fun hr => (by cases hr)⟩
  · cases hs
    rw [hfree hm] at howner
    exact ⟨howner, h.decrements, fun u hu => (by cases hu), hcount, fun hr => (by cases hr)⟩
  · obtain ⟨⟨u', tc⟩, hu, rfl⟩ := Option.map_eq_some_iff.1 hs
    exact h.increment hm hu
  · cases hs
    refine ⟨?_, ?_, fun u hu => (by cases hu), ?_, fun hr => (by cases hr)⟩
    · show (s.handlers ++ [HandlerPc.running]).countP HandlerPc.holds + 0 = s.tc.tcLock.toNat
      rw [List.countP_append]
      exact howner
    · intro j u hj
      simp only [List.getElem?_append, List.getElem?_singleton] at hj
      split at hj
      · exact h.decrements j u hj
      · split at hj <;> cases hj
    · show s.tc.threadCount.toNat + 0 =
        (s.handlers ++ [HandlerPc.running]).countP HandlerPc.counted + 0
      rw [List.countP_append]
      exact hcount

/-- One action, when a refusal finds the mutex free. -/
theorem Inv.step (h : Inv s) {a : ClientAct} (ha : s.Undisturbed a) (hs : s.step a = some s') :
    Inv s' := by
  cases a with
  | accept limit =>
    simp only [Clients.step] at hs
    split at hs
    · rename_i hm
      cases hs
      have hcount := h.count
      have howner := h.owner
      rw [hm] at howner
      simp only [clients, hm] at hcount
      exact ⟨howner, h.decrements, fun u hu => (by cases hu), hcount, fun hr => (by cases hr)⟩
    · cases hs
  | manager => exact h.managerMain (fun hm => ha ⟨rfl, hm⟩) hs
  | handler i =>
    obtain ⟨pc, hi, hs⟩ := Option.bind_eq_some_iff.1 hs
    exact h.requestHandler hi hs

theorem Inv.run : ∀ {acts : List ClientAct} {s : Clients}, Inv s →
    Clients.run Undisturbed acts s = some s' → Inv s'
  | [], s, h, hr => by
    cases hr
    exact h
  | a :: acts, s, h, hr => by
    simp only [Clients.run] at hr
    split at hr
    · rename_i ha
      obtain ⟨s1, hs, hr⟩ := Option.bind_eq_some_iff.1 hr
      exact (h.step ha hs).run hr
    · cases hr

/-- At rest the counter is right. -/
theorem Inv.accurate (h : Inv s) : s.Accurate := by
  intro hq
  have huncounted : s.manager.uncounted = false := by
    cases hm : s.manager with
    | increment u => exact absurd hm (hq.1 u)
    | _ => rfl
  have hcount := h.count
  rw [huncounted] at hcount
  exact hcount

end

end Clients

/-- **The client counter**: in a run in which every refusal finds the mutex free, the counter is
right at rest. -/
theorem threadCount_accurate {acts : List ClientAct} {s : Clients}
    (h : Clients.run Clients.Undisturbed acts .start = some s) : s.Accurate :=
  (Clients.Inv.run .start h).accurate

/-- `manager_main` accepts a client under the limit and gives it a handler. -/
def acceptClient (limit : UInt32) : List ClientAct := .accept limit :: List.replicate 6 .manager

/-- A client comes, a second one is refused, and the first one goes. -/
theorem threadCount_accurate_refused : ∃ s : Clients, s.handlers = [.ended] ∧ s.Accurate := by
  have h : Clients.run Clients.Undisturbed (acceptClient 1 ++ .accept 1 ::
      List.replicate 3 .manager ++ List.replicate 5 (.handler 0)) .start =
      some ⟨⟨0, false⟩, .accept, [.ended]⟩ := by decide +kernel
  exact ⟨_, rfl, threadCount_accurate h⟩

/-- A client is refused while two others go: both load the counter before one stores it. -/
theorem threadCount_lost : ¬ ∀ (acts : List ClientAct) (s : Clients),
    Clients.run (fun _ _ => True) acts .start = some s → s.Accurate := by
  intro h
  have hs := h (acceptClient 2 ++ acceptClient 2 ++ .accept 2 :: List.replicate 2 .manager ++
    [.handler 0, .handler 0, .handler 0, .manager, .handler 1, .handler 1, .handler 1,
      .handler 0, .handler 0, .handler 1, .handler 1])
    ⟨⟨1, false⟩, .accept, [.ended, .ended]⟩ (by decide +kernel)
  have hquiet : Clients.Quiet ⟨⟨1, false⟩, .accept, [.ended, .ended]⟩ :=
    ⟨fun u hu => (by cases hu), fun u hu => (by simp at hu)⟩
  exact absurd (hs hquiet) (by decide)

end Messasy
