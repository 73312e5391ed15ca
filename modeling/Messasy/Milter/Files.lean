import Messasy.Milter.Slots
import Messasy.Module.Book

/-!
# The files of a session

A session has one file for each module that keeps a book (`Module.Books`). The calls of a pass, and
of a callback, each belong to one of these files, and each file's calls go on with its book
(`Session.step_books`).
-/

namespace Messasy

open Lib

/-- The events, told apart by module, take each slot's book along. -/
def Slots.Books (slots : Slots) (evs : List Event) (slots' : Slots) : Prop :=
  ∃ labelled : List (Str × Event), labelled.map Prod.snd = evs ∧
    ∀ n, Book.run ((callsOf n labelled).map Event.fileOp) (slots n).book = some (slots' n).book

section
variable {slots slots' slots'' : Slots} {evs evs' : List Event} {os os' : Os}

theorem Slots.Books.refl (slots : Slots) : slots.Books [] slots := ⟨[], rfl, fun _ => rfl⟩

theorem Slots.Books.trans (h : slots.Books evs slots') (h' : slots'.Books evs' slots'') :
    slots.Books (evs ++ evs') slots'' := by
  obtain ⟨l, rfl, hr⟩ := h
  obtain ⟨l', rfl, hr'⟩ := h'
  refine ⟨l ++ l', by rw [List.map_append], fun n => ?_⟩
  rw [callsOf_append, List.map_append, Book.run_append, hr n]
  exact hr' n

/-- A hook's calls at its own slot. -/
theorem Slots.Books.update {n : Str} {slot : Slot}
    (h : Messasy.Books (slots n).book os slot.book os') :
    ∃ evs, os'.out = os.out ++ evs ∧ slots.Books evs (Function.update slots n slot) := by
  obtain ⟨evs, ho, hr⟩ := h
  refine ⟨evs, ho, evs.map fun e => (n, e), by simp [Function.comp_def], fun n' => ?_⟩
  by_cases hn : n' = n
  · subst hn
    have hall : callsOf n' (evs.map fun e => (n', e)) = evs := by simp [callsOf]
    rw [hall, Function.update_self]
    exact hr
  · have hnone : callsOf n' (evs.map fun e => (n, e)) = [] := by simp [callsOf, Ne.symm hn]
    rw [hnone, Function.update_of_ne hn]
    rfl

end

/-! ## A pass -/

/-- No slot has a record with a descriptor below 0. -/
def Slots.Closable (slots : Slots) : Prop := ∀ n md, slots n = .spooling md → 0 ≤ md.mdTempfileFd

theorem Slots.closable {slots : Slots} (h : ∀ n, (slots n).Open) : slots.Closable := by
  intro n md hn
  have := h n
  rw [hn] at this
  exact Int.le_of_lt this

section
variable {mods : List Module} {env : Env} {view : View} {c : HookCall} {slots slots' : Slots}
  {os os' : Os} {r : Int}

/-- A pass keeps the books. -/
theorem execSlots_books (hmods : ∀ m ∈ mods, m.Books) (hzero : env.ZeroTaken) (hc : c ≠ .abort)
    (hx : execSlots env view c mods slots os = some (r, slots', os'))
    (hopen : ∀ n, (slots n).Open) :
    (c ≠ .eom ∨ r = 0 → ∀ n, (slots' n).Open) ∧ slots'.Closable ∧
      ∃ evs, os'.out = os.out ++ evs ∧ slots.Books evs slots' := by
  induction mods generalizing slots os with
  | nil =>
    cases hx
    exact ⟨fun _ => hopen, Slots.closable hopen, [], (List.append_nil _).symm, .refl _⟩
  | cons m mods ih =>
    obtain ⟨k, slot, os1, hcall, hrest⟩ := execSlots_cons hx
    obtain ⟨hslot, hfd, hb⟩ := m.slotCall_books (hmods m List.mem_cons_self) hzero hc
      (hopen m.mymodule) hcall
    obtain ⟨evs, ho, hbooks⟩ := Slots.Books.update hb
    have hopen' : slot.Open → ∀ n, (Function.update slots m.mymodule slot n).Open := by
      intro hslot n
      rw [Function.update_apply]
      split
      · exact hslot
      · exact hopen n
    rcases hrest with ⟨rfl, hx'⟩ | ⟨hk, rfl, rfl, rfl⟩
    · obtain ⟨hr, hcl, evs', ho', hbooks'⟩ :=
        ih (fun m hm => hmods m (List.mem_cons_of_mem _ hm)) hx' (hopen' (hslot (.inr rfl)))
      exact ⟨hr, hcl, evs ++ evs', by rw [ho', ho, List.append_assoc], hbooks.trans hbooks'⟩
    · refine ⟨fun h => hopen' (hslot h), fun n md hn => ?_, evs, ho, hbooks⟩
      rw [Function.update_apply] at hn
      split at hn
      · exact hfd md hn
      · exact Slots.closable hopen n md hn

/-- An abort pass removes the files. -/
theorem execSlots_abort_books (hx : execSlots env view .abort mods slots os = some (r, slots', os'))
    (hcl : slots.Closable) :
    slots'.Closable ∧ ∃ evs, os'.out = os.out ++ evs ∧ slots.Books evs slots' := by
  refine execSlots_inv (I := fun slots1 os1 => slots1.Closable ∧
    ∃ evs, os1.out = os.out ++ evs ∧ slots.Books evs slots1) ?_ hx
    ⟨hcl, [], (List.append_nil _).symm, .refl _⟩
  rintro m - slots1 os1 k slot os2 ⟨hcl1, evs, ho, hb⟩ hcall
  obtain ⟨rfl, hbooks⟩ := Module.slotAbort_books (hcl1 m.mymodule) hcall
  obtain ⟨evs', ho', hb'⟩ := Slots.Books.update hbooks
  refine ⟨fun n md hn => ?_, evs ++ evs', by rw [ho', ho, List.append_assoc], hb.trans hb'⟩
  rw [Function.update_apply] at hn
  split at hn
  · cases hn
  · exact hcl1 n md hn

end

/-! ## A callback -/

/-- What the session's slots are between two callbacks. -/
structure Session.Filed (mods : List Module) (slots : Slots) (s : Session) : Prop where
  slotted : Slotted slots s.extrapriv
  opened : ∀ n, (slots n).Open
  others : ∀ n, (∀ m ∈ mods, m.mymodule ≠ n) → slots n = .absent

section
variable {settings : Settings} {mods : List Module} {t : Nat} {env : Env} {s s' : Session}
  {slots : Slots} {os : Os} {reply : Reply} {x : Option Session}

theorem Session.aborted_books (hown : Slotted slots s.extrapriv) (hcl : slots.Closable)
    (hothers : ∀ n, (∀ m ∈ mods, m.mymodule ≠ n) → slots n = .absent) {r : Option Sfsistat}
    (h : s.aborted (settings.loading mods) t env r os = some (reply, x)) :
    ∃ evs slots', reply.out = os.out ++ evs ∧ slots.Books evs slots' ∧
      ∀ s', x = some s' → s'.Filed mods slots' := by
  obtain ⟨⟨n, s1, os1⟩, hp, hx⟩ := Option.map_eq_some_iff.1 h
  obtain ⟨slots', he, hown'⟩ := pass_slots hown hp
  obtain ⟨-, evs, ho, hb⟩ := execSlots_abort_books he hcl
  refine ⟨evs, slots', ?_, hb, fun s' hs => ?_⟩
  · dsimp only at hx
    split at hx <;> cases hx <;> exact ho
  · dsimp only at hx
    split at hx
    · rename_i hn
      subst hn
      cases hx
      cases hs
      have habs : ∀ n, slots' n = .absent := execSlots_empties (c := .abort)
        (fun {m slot os slot' os'} hc => Module.slotAbort_absent hc) he hothers
      refine ⟨hown', fun n => ?_, fun n _ => habs n⟩
      rw [habs]
      trivial
    · cases hx
      cases hs

/-- **Step.** A callback keeps the books of all files of the session. -/
theorem Session.step_books (hmods : ∀ m ∈ mods, m.Books) (hzero : env.ZeroTaken)
    (hf : s.Filed mods slots) {cb : Callback}
    (h : s.step (settings.loading mods) t env cb = some (reply, x)) :
    ∃ slots', slots.Books reply.out slots' ∧ ∀ s', x = some s' → s'.Filed mods slots' := by
  obtain ⟨hown, hopen, hothers⟩ := hf
  -- a pass of a hook call; it starts from the session's own slots
  have hpass : ∀ {c : HookCall} {s1 s2 : Session} {n : Int} {os : Os},
      s.Makes (settings.loading mods) env cb c s1 →
      s1.pass (settings.loading mods) t env c .start = some (n, s2, os) →
      ∃ slots', Slotted slots' s2.extrapriv ∧ (c ≠ .eom ∨ n = 0 → ∀ n, (slots' n).Open) ∧
        slots'.Closable ∧ slots.Books os.out slots' ∧
        ∀ n, (∀ m ∈ mods, m.mymodule ≠ n) → slots' n = .absent := by
    intro c s1 s2 n os hm hp
    have hc : c ≠ .abort := by
      rintro rfl
      cases cb <;> first | exact hm.elim | cases hm.1
    have hown1 : Slotted slots s1.extrapriv := by
      rw [hm.extrapriv]
      exact hown
    obtain ⟨slots', hx, hown'⟩ := pass_slots hown1 hp
    obtain ⟨hr, hcl, evs, ho, hb⟩ := execSlots_books hmods hzero hc hx hopen
    refine ⟨slots', hown', hr, hcl, ?_, execSlots_others hx hothers⟩
    rw [ho]
    exact hb
  cases step_cases h with
  | envfrom a =>
    refine ⟨slots, .refl slots, fun s' hs => ?_⟩
    cases hs
    exact ⟨hown, hopen, hothers⟩
  | envrcpt a =>
    refine ⟨slots, .refl slots, fun s' hs => ?_⟩
    cases hs
    exact ⟨hown, hopen, hothers⟩
  | @passed _ c s1 s2 os hm hp =>
    obtain ⟨slots', hown', hr, -, hb, hothers'⟩ := hpass hm hp
    refine ⟨slots', hb, fun s' hs => ?_⟩
    cases hs
    have hextra : (s2.behind cb).extrapriv = s2.extrapriv := by cases cb <;> rfl
    exact ⟨by rw [hextra]; exact hown', hr (.inr rfl), hothers'⟩
  | failed hm hp _ ha =>
    obtain ⟨slots1, hown1, -, hcl, hb, hothers1⟩ := hpass hm hp
    obtain ⟨evs, slots', ho, hb', hfiled⟩ := aborted_books hown1 hcl hothers1 ha
    exact ⟨slots', by rw [ho]; exact hb.trans hb', hfiled⟩
  | @gaveUp _ s1 _ _ _ hs1 _ ha =>
    have hown1 : Slotted slots s1.extrapriv := by rcases hs1 with rfl | rfl <;> exact hown
    obtain ⟨evs, slots', ho, hb, hfiled⟩ :=
      aborted_books hown1 (Slots.closable hopen) hothers ha
    exact ⟨slots', by rw [ho]; exact hb, hfiled⟩

end

end Messasy
