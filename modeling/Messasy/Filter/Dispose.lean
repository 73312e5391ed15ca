import Messasy.Filter.Directory

/-!
# The nodes of `make_savelist`

A node is known by its address, which is handed out once: the nodes that a call builds are those
from the `next` of the heap at its start on. Reading, linking or releasing a released node is
undefined, so in a call that returns, a built node that is not live has been released once.
-/

namespace Messasy

open Lib

/-- What a call that has returned owes the nodes it has built. -/
def Disposed (h0 : StrHeap) : Rc → Lists → Prop
  | .success, st => ∃ S, Chain st.heap st.savelistH S ∧ (ids S).Nodup ∧
      ∀ q, h0.next ≤ q → (st.heap.cell q ≠ none ↔ q ∈ ids S)
  | .error, st => st.savelistH = none ∧ ∀ q, h0.next ≤ q → st.heap.cell q = none
  | .positive, _ => False

/-- The call ends where `check_ldap` reads the missing filter text, with both lists as they were
built. -/
def StopsAtFilter (from_ : Str) (rcptlist : Option Nat) (h0 : StrHeap) (tail : Option Nat)
    (cfg : Settings) (ldap : Ldap) : Prop :=
  ∃ st1 st, fromStage (some from_) ⟨h0, none, tail, none, none⟩ cfg = some (.success, st1) ∧
    toStage rcptlist st1 cfg = some (.success, st) ∧ st.ldaplistH ≠ none ∧ ldap.Up ∧
    cfg.cfLdapmailfilter = none

/-- **Every node is disposed of once**, in a call that returns or stops for another reason. -/
def DisposesOnce (from_ : Str) (rcptlist : Option Nat) (h0 : StrHeap) (tail : Option Nat)
    (cfg : Settings) (ldap : Ldap) : Prop :=
  match makeSavelist (some from_) rcptlist h0 none tail cfg ldap with
  | some (rc, st) => Disposed h0 rc st
  | none => StopsAtFilter from_ rcptlist h0 tail cfg ldap

/-- The search for the `i`-th address to look up fails. -/
def SearchFails (cfg : Settings) (ldap : Ldap) (lookups : List Str) (i : Nat) : Prop :=
  ∃ template a, cfg.cfLdapmailfilter = some template ∧ lookups[i]? = some a ∧
    ldap.search i (ldapFilter template a) = none

section
variable {h0 : StrHeap} {cfg : Settings} {ldap : Ldap} {st : Lists} {S : List (Nat × Str)}
  {lookups : List Str}

theorem Sorted.disposed (hs : Sorted h0 { st with ldaplistH := none } S []) :
    Disposed h0 .success st := by
  refine ⟨S, hs.save.chain, hs.save.chain.nodup, fun q hq => ⟨fun hlive => ?_, fun hS => ?_⟩⟩
  · simpa using hs.owned q hq hlive
  · obtain ⟨x, hx, rfl⟩ := List.mem_map.1 hS
    obtain ⟨nx, hcx⟩ := hs.save.chain.live x hx
    exact Option.isSome_iff_ne_none.1 (Option.isSome_of_eq_some hcx)

theorem searchFails_iff (ldap : Ldap) (lookups : List Str) {template : Str}
    (ht : cfg.cfLdapmailfilter = some template) :
    (∃ i, SearchFails cfg ldap lookups i) ↔ searched template ldap.search 0 lookups = none := by
  simp [searched_eq_none, SearchFails, ht]

theorem searchFails_zero {template a : Str} {l : List Str}
    (ht : cfg.cfLdapmailfilter = some template) :
    SearchFails cfg ldap (a :: l) 0 ↔ ldap.search 0 (ldapFilter template a) = none := by
  simp [SearchFails, ht]

/-- The call disposes of its nodes when the LDAP stage has a list, or no answer at all. -/
theorem disposesOnce_of_meets {from_ : Str} {rcptlist tail : Option Nat} {list : List Str}
    (h : Filtered.Meets h0 (makeSavelist (some from_) rcptlist h0 none tail cfg ldap)
      (.selected list)) :
    DisposesOnce from_ rcptlist h0 tail cfg ldap := by
  obtain ⟨st, S, he, hs, -⟩ := h
  unfold DisposesOnce
  rw [he]
  exact hs.disposed

theorem disposesOnce_of_failed {from_ : Str} {rcptlist tail : Option Nat}
    (h : Filtered.Meets h0 (makeSavelist (some from_) rcptlist h0 none tail cfg ldap) .failed) :
    DisposesOnce from_ rcptlist h0 tail cfg ldap := by
  obtain ⟨st, he, hnone, -, -, hdead⟩ := h
  unfold DisposesOnce
  rw [he]
  exact ⟨hnone, hdead⟩

/-- **The nodes of `make_savelist`.** Each is disposed of once if and only if no search fails
after an answered one. -/
theorem disposesOnce_iff {rcptlist : Option Nat} {l : List (Nat × Str)} (hc : Chain h0 rcptlist l)
    (from_ : Str) (tail : Option Nat) (cfg : Settings) (ldap : Ldap) :
    DisposesOnce from_ rcptlist h0 tail cfg ldap ↔
      (ldap.Up → ∀ i, SearchFails cfg ldap (routed cfg .ldap (candidates cfg from_ (vals l))) i →
        SearchFails cfg ldap (routed cfg .ldap (candidates cfg from_ (vals l))) 0) := by
  obtain ⟨st1, st, S, L, he1, he2, hs, hS, hL⟩ := policyStages_sorted cfg hc from_ tail
  have hmeets := makeSavelist_filtered hc cfg from_ tail ldap
  simp only [filtered] at hmeets
  generalize routed cfg .ldap (candidates cfg from_ (vals l)) = lookups at hL hmeets
  generalize routed cfg .save (candidates cfg from_ (vals l)) = direct at hmeets
  subst hL
  cases L with
  | nil =>
    refine iff_of_true (disposesOnce_of_meets hmeets) fun _ i hi => ?_
    obtain ⟨_, _, _, ha, _⟩ := hi
    cases ha
  | cons x L =>
    by_cases hup : ldap.Up
    · have hb : (ldap.open_ && ldap.setOption && ldap.bind) = true := by
        simp [hup.1, hup.2.1, hup.2.2]
      cases ht : cfg.cfLdapmailfilter with
      | none =>
        simp only [vals_cons, lookedUp, hb, if_true, ht, Filtered.Meets] at hmeets
        refine iff_of_true ?_ fun _ i hi => ?_
        · have hlist : st.ldaplistH ≠ none := by
            rw [hs.ldap.chain.1]
            simp
          simp only [DisposesOnce, hmeets]
          exact ⟨st1, st, he1, he2, hlist, hup, ht⟩
        · obtain ⟨_, _, hsome, _⟩ := hi
          rw [ht] at hsome
          cases hsome
      | some template =>
        have hiff := searchFails_iff ldap (vals (x :: L)) ht
        simp only [vals_cons] at hmeets hiff ⊢
        cases hf : searched template ldap.search 0 (x.2 :: vals L) with
        | some found =>
          simp only [lookedUp, hb, if_true, ht, hf] at hmeets
          refine iff_of_true (disposesOnce_of_meets hmeets) fun _ i hi => ?_
          rw [hiff.1 ⟨i, hi⟩] at hf
          cases hf
        | none =>
          cases hz : ldap.search 0 (ldapFilter template x.2) with
          | none =>
            simp only [lookedUp, hb, if_true, ht, hf, hz] at hmeets
            exact iff_of_true (disposesOnce_of_failed hmeets) fun _ _ _ =>
              (searchFails_zero ht).2 hz
          | some count =>
            -- the head of the LDAP list is spent when the clean-up starts from it
            simp only [lookedUp, hb, if_true, ht, hf, hz, Filtered.Meets] at hmeets
            refine iff_of_false (fun h => ?_) fun h => ?_
            · simp only [DisposesOnce, hmeets] at h
              obtain ⟨_, _, _, _, _, _, hnone⟩ := h
              rw [ht] at hnone
              cases hnone
            · obtain ⟨i, hi⟩ := hiff.2 hf
              rw [(searchFails_zero ht).1 (h hup i hi)] at hz
              cases hz
    · have hb : (ldap.open_ && ldap.setOption && ldap.bind) = false := by
        simpa [Ldap.Up, and_assoc] using hup
      simp only [vals_cons, lookedUp, hb, Bool.false_eq_true, if_false] at hmeets
      exact iff_of_true (disposesOnce_of_failed hmeets) fun h => absurd h hup

end

/-- The example configuration with a direct match only for another domain, and the LDAP check on. -/
def lookupConfig : Settings :=
  { exampleConfig with cfSavemailaddress := bytes "@example.org", cfLdapcheck := 1 }

/-- A directory that knows nobody and fails at the second search. -/
def failingDirectory : Ldap := ⟨true, true, true, fun i _ => if i = 0 then some 0 else none⟩

/-- The sender is not found and released; the search for the recipient fails, and the clean-up
releases the sender's node again. -/
theorem not_disposesOnce_second : ¬ DisposesOnce (bytes "a@example.com") (some 0)
    (Arena.empty.alloc ⟨bytes "b@example.com", none⟩) none lookupConfig failingDirectory := by
  have h : makeSavelist (some (bytes "a@example.com")) (some 0)
      (Arena.empty.alloc ⟨bytes "b@example.com", none⟩) none none lookupConfig failingDirectory =
        none := rfl
  simp only [DisposesOnce, h]
  rintro ⟨_, _, _, _, _, _, hnone⟩
  cases hnone

/-- The first search fails: both new nodes are released. -/
theorem disposesOnce_first : DisposesOnce (bytes "a@example.com") (some 0)
    (Arena.empty.alloc ⟨bytes "b@example.com", none⟩) none lookupConfig
    ⟨true, true, true, fun _ _ => none⟩ := by
  have hc : Chain (Arena.empty.alloc ⟨bytes "b@example.com", none⟩) (some 0)
      [(0, bytes "b@example.com")] := ⟨rfl, none, rfl, rfl⟩
  refine (disposesOnce_iff hc (bytes "a@example.com") none lookupConfig _).2 fun _ _ _ => ?_
  exact ⟨bytes "(mail=%M)", bytes "a@example.com", rfl, by decide +kernel, rfl⟩

end Messasy
