import Messasy.Client.Counter

/-!
# The limit on administration clients

What the counter is for: `manager_main` compares it with `CommandMaxClients` before it counts the
client, so in a run without a disturbed decrement there are never more clients than the largest
limit it has compared with, and nobody is refused while there are fewer than the limit.
-/

namespace Messasy

namespace Clients

/-- A refusal finds the mutex free, and no limit is above `max`. -/
def Within (max : UInt32) (s : Clients) (a : ClientAct) : Prop :=
  s.Undisturbed a ∧ ∀ limit, a = .accept limit → limit ≤ max

instance (max : UInt32) (s : Clients) (a : ClientAct) : Decidable (s.Within max a) := by
  unfold Within
  cases a with
  | accept limit => exact decidable_of_iff (s.Undisturbed (.accept limit) ∧ limit ≤ max) (by simp)
  | manager => exact decidable_of_iff (s.Undisturbed .manager) (by simp)
  | handler i => exact decidable_of_iff (s.Undisturbed (.handler i)) (by simp)

/-- The clients are within the limit, and so is the limit that is being compared. -/
structure Bounded (max : UInt32) (s : Clients) : Prop where
  inv : s.Inv
  clients : s.clients ≤ max.toNat
  limit : ∀ limit, s.manager = .test limit → limit ≤ max

section
variable {max : UInt32} {s s' : Clients} {i : Nat} {a : ClientAct}

/-- A handler leaves the clients or keeps their number. -/
theorem clients_requestHandler {pc : HandlerPc} (hi : s.handlers[i]? = some pc)
    (hs : s.requestHandler i pc = some s') : s'.clients ≤ s.clients ∧ s'.manager = s.manager := by
  have hset : ∀ (tc : Tc) (pc' : HandlerPc), pc'.counted.toNat ≤ pc.counted.toNat →
      ({ s with tc, handlers := s.handlers.set i pc' } : Clients).clients ≤ s.clients := by
    intro tc pc' hle
    have := countP_set_add HandlerPc.counted pc' hi
    simp only [Clients.clients]
    omega
  cases pc with
  | running =>
    cases hs
    exact ⟨hset s.tc _ (Nat.le_refl _), rfl⟩
  | ended => cases hs
  | decrement u =>
    obtain ⟨⟨u', tc⟩, hu, rfl⟩ := Option.map_eq_some_iff.1 hs
    refine ⟨hset tc _ ?_, rfl⟩
    cases u with
    | lock =>
      simp only [decrementTc, UpdateTc.step] at hu
      split at hu
      · cases hu
      · cases hu
        exact Nat.le_refl _
    | load =>
      cases hu
      exact Nat.le_refl _
    | store v =>
      cases hu
      exact Nat.zero_le _
    | unlock =>
      cases hu
      exact Nat.zero_le _

/-- `manager_main` counts a client when there are fewer than the limit. -/
theorem clients_managerMain (h : s.Inv) (hs : s.managerMain = some s') :
    (∀ limit, s'.manager ≠ .test limit) ∧
    (s'.clients = s.clients ∨
      ∃ limit, s.manager = .test limit ∧ s.clients < limit.toNat ∧ s'.clients = s.clients + 1) := by
  unfold managerMain at hs
  have hcount := h.count
  simp only [Clients.clients] at hcount
  split at hs <;> rename_i hm
  · cases hs
  · rename_i limit
    rw [hm] at hcount
    split at hs
    · cases hs
      exact ⟨fun _ => by simp, .inl (by simp [Clients.clients, hm, ManagerPc.accepted])⟩
    · rename_i hlimit
      cases hs
      have hlt := UInt32.lt_iff_toNat_lt.1 (UInt32.not_le.1 hlimit)
      refine ⟨fun _ => by simp, .inr ⟨limit, hm, ?_, ?_⟩⟩
      · simp only [Clients.clients, hm]
        simp only [ManagerPc.uncounted, Bool.toNat_false] at hcount
        omega
      · simp [Clients.clients, hm, ManagerPc.accepted]
  · cases hs
    exact ⟨fun _ => by simp, .inl (by simp [Clients.clients, hm, ManagerPc.accepted])⟩
  · cases hs
    exact ⟨fun _ => by simp, .inl (by simp [Clients.clients, hm, ManagerPc.accepted])⟩
  · obtain ⟨⟨u', tc⟩, hu, rfl⟩ := Option.map_eq_some_iff.1 hs
    cases u' with
    | none => exact ⟨fun _ => by simp, .inl (by simp [Clients.clients, hm, ManagerPc.accepted])⟩
    | some u' => exact ⟨fun _ => by simp, .inl (by simp [Clients.clients, hm, ManagerPc.accepted])⟩
  · cases hs
    exact ⟨fun _ => by simp, .inl (by
      simp [Clients.clients, hm, ManagerPc.accepted, HandlerPc.counted])⟩

/-- **Step.** -/
theorem Bounded.step (h : Bounded max s) (ha : s.Within max a) (hs : s.step a = some s') :
    Bounded max s' := by
  have hinv := h.inv.step ha.1 hs
  cases a with
  | accept limit =>
    simp only [Clients.step] at hs
    split at hs
    · rename_i hm
      cases hs
      refine ⟨hinv, ?_, fun l hl => ?_⟩
      · have := h.clients
        simpa [Clients.clients, hm, ManagerPc.accepted] using this
      · cases hl
        exact ha.2 _ rfl
    · cases hs
  | manager =>
    obtain ⟨htest, heq | ⟨limit, hm, hlt, heq⟩⟩ := clients_managerMain h.inv hs
    · exact ⟨hinv, heq ▸ h.clients, fun l hl => absurd hl (htest l)⟩
    · refine ⟨hinv, ?_, fun l hl => absurd hl (htest l)⟩
      have := UInt32.le_iff_toNat_le.1 (h.limit limit hm)
      omega
  | handler i =>
    obtain ⟨pc, hi, hs⟩ := Option.bind_eq_some_iff.1 hs
    obtain ⟨hle, hm⟩ := clients_requestHandler hi hs
    exact ⟨hinv, Nat.le_trans hle h.clients, fun l hl => h.limit l (hm ▸ hl)⟩

/-- **Run.** -/
theorem Bounded.run : ∀ {acts : List ClientAct} {s : Clients}, Bounded max s →
    Clients.run (Within max) acts s = some s' → Bounded max s'
  | [], s, h, hr => by
    cases hr
    exact h
  | a :: acts, s, h, hr => by
    simp only [Clients.run] at hr
    split at hr
    · rename_i ha
      obtain ⟨s1, hs, hr⟩ := Option.bind_eq_some_iff.1 hr
      exact (h.step ha hs).run hr
    · cases hr

end

end Clients

/-- **The client limit.** Never more clients than the largest limit, and a client that is about to
be refused has as many others before it as its limit allows. -/
theorem clients_limited {max : UInt32} {acts : List ClientAct} {s : Clients}
    (h : Clients.run (Clients.Within max) acts .start = some s) :
    s.clients ≤ max.toNat ∧
      ∀ limit s', s.manager = .test limit → s.step .manager = some s' →
        (s'.manager = .report ↔ limit.toNat ≤ s.clients) := by
  have hs : Clients.Bounded max s :=
    Clients.Bounded.run ⟨.start, Nat.zero_le _, fun limit hl => (by cases hl)⟩ h
  refine ⟨hs.clients, fun limit s' hm hstep => ?_⟩
  have hcount := hs.inv.count
  rw [hm] at hcount
  simp only [ManagerPc.uncounted, Bool.toNat_false, Nat.add_zero] at hcount
  simp only [Clients.step, Clients.managerMain, hm] at hstep
  rw [← hcount, ← UInt32.le_iff_toNat_le]
  split at hstep
  · rename_i hle
    cases hstep
    exact ⟨fun _ => hle, fun _ => rfl⟩
  · rename_i hlt
    cases hstep
    exact ⟨fun hpc => (by cases hpc), fun hle => absurd hle hlt⟩

/-- With the limit 1 the second client is refused. -/
theorem clients_limited_one : ∃ s : Clients, s.manager = .test 1 ∧ s.clients = 1 ∧
    ∀ s', s.step .manager = some s' → s'.manager = .report := by
  have h : Clients.run (Clients.Within 1) (acceptClient 1 ++ [.accept 1]) .start =
      some ⟨⟨1, false⟩, .test 1, [.running]⟩ := by decide +kernel
  exact ⟨_, rfl, rfl, fun s' hs => ((clients_limited h).2 1 s' rfl hs).2 (Nat.le_refl 1)⟩

end Messasy
