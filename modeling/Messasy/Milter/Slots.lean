import Mathlib.Logic.Function.Basic
import Messasy.Milter.Pass

/-!
# All slots of a session

The private list as a family of slots, one for each module name. A pass over the hooks of loaded
modules is `execSlots` on the family, whatever modules are loaded and however often
(`Session.pass_slots`, `Session.pass_of_slots`).
-/

namespace Messasy

open Lib

/-- A slot for every name. -/
abbrev Slots := Str → Slot

/-- The list has these slots. -/
def Slotted (slots : Slots) (list : List Extrapriv) : Prop := ∀ n, Own n (slots n) list

theorem Slotted.nil : Slotted (fun _ => .absent) [] := fun n => Own.nil n

/-- With no entry at all the list is empty. -/
theorem Slotted.eq_nil {slots : Slots} {list : List Extrapriv} (h : Slotted slots list)
    (habs : ∀ n, slots n = .absent) : list = [] := by
  apply eq_nil_of_own
  intro n
  rw [← habs n]
  exact h n

theorem Slotted.place {slots : Slots} {list : List Extrapriv} (h : Slotted slots list) (n : Str)
    (slot : Slot) : Slotted (Function.update slots n slot) (place n slot list) := by
  intro n'
  by_cases hn : n' = n
  · subst hn
    rw [Function.update_self]
    exact (h n').place slot
  · rw [Function.update_of_ne hn]
    exact (entriesOf_place_of_ne hn slot list).trans (h n')

/-- The loop of the `msy_exec_*` functions on the slots. -/
def execSlots (env : Env) (view : View) (c : HookCall) :
    List Module → Slots → Os → Option (Int × Slots × Os)
  | [], slots, os => some (0, slots, os)
  | m :: mods, slots, os =>
    (m.slotCall env view c (slots m.mymodule) os).bind fun (r, slot, os) =>
      if r = 0 then execSlots env view c mods (Function.update slots m.mymodule slot) os
      else some (r, Function.update slots m.mymodule slot, os)

section
variable {env : Env} {view : View} {c : HookCall} {mods : List Module} {slots slots' : Slots}
  {os os' : Os} {n : Int}

/-- The loop on the list is the loop on the slots. -/
theorem Slotted.exec {list : List Extrapriv} (h : Slotted slots list) (env : Env) (view : View)
    (c : HookCall) (mods : List Module) (os : Os) :
    (msyExec (mods.map (·.call c)) env view ⟨list, os⟩ = none ∧
      execSlots env view c mods slots os = none) ∨
    ∃ r slots' list' os',
      msyExec (mods.map (·.call c)) env view ⟨list, os⟩ = some (r, ⟨list', os'⟩) ∧
      execSlots env view c mods slots os = some (r, slots', os') ∧ Slotted slots' list' := by
  induction mods generalizing slots list os with
  | nil => exact .inr ⟨0, slots, list, os, rfl, rfl, h⟩
  | cons m mods ih =>
    have hcall : m.call c env view ⟨list, os⟩ = _ := Module.call_eq env view (h m.mymodule) c
    rw [List.map_cons, msyExec_cons, execSlots, hcall]
    rcases m.slotCall env view c (slots m.mymodule) os with _ | ⟨r, slot, os1⟩
    · exact .inl ⟨rfl, rfl⟩
    · have hplace := h.place m.mymodule slot
      simp only [Module.onList, Option.map_some, Option.bind_some]
      by_cases hr : r = 0
      · simp only [if_pos hr]
        exact ih hplace os1
      · simp only [if_neg hr]
        exact .inr ⟨r, _, _, os1, rfl, rfl, hplace⟩

theorem execSlots_cons {m : Module} (h : execSlots env view c (m :: mods) slots os =
    some (n, slots', os')) :
    ∃ r slot os1, m.slotCall env view c (slots m.mymodule) os = some (r, slot, os1) ∧
      (r = 0 ∧ execSlots env view c mods (Function.update slots m.mymodule slot) os1 =
        some (n, slots', os') ∨
      r ≠ 0 ∧ n = r ∧ slots' = Function.update slots m.mymodule slot ∧ os' = os1) := by
  obtain ⟨⟨r, slot, os1⟩, hcall, hx⟩ := Option.bind_eq_some_iff.1 h
  refine ⟨r, slot, os1, hcall, ?_⟩
  by_cases hr : r = 0
  · simp only [if_pos hr] at hx
    exact .inl ⟨hr, hx⟩
  · simp only [if_neg hr] at hx
    cases hx
    exact .inr ⟨hr, rfl, rfl, rfl⟩

/-- **The invariant of the loop.** -/
theorem execSlots_inv {I : Slots → Os → Prop}
    (hcall : ∀ m ∈ mods, ∀ {slots os r slot os'}, I slots os →
      m.slotCall env view c (slots m.mymodule) os = some (r, slot, os') →
      I (Function.update slots m.mymodule slot) os')
    (h : execSlots env view c mods slots os = some (n, slots', os')) (hI : I slots os) :
    I slots' os' := by
  induction mods generalizing slots os with
  | nil =>
    cases h
    exact hI
  | cons m mods ih =>
    obtain ⟨r, slot, os1, hm, hrest⟩ := execSlots_cons h
    have hI1 := hcall m List.mem_cons_self hI hm
    rcases hrest with ⟨-, hx⟩ | ⟨-, -, rfl, rfl⟩
    · exact ih (fun m hm => hcall m (List.mem_cons_of_mem _ hm)) hx hI1
    · exact hI1

/-- One slot, when each call at it keeps `Q`. -/
theorem execSlots_slot {name : Str} {Q : Slot → Prop}
    (hcall : ∀ m ∈ mods, m.mymodule = name → ∀ {slot os r slot' os'}, Q slot →
      m.slotCall env view c slot os = some (r, slot', os') → Q slot')
    (h : execSlots env view c mods slots os = some (n, slots', os')) (hQ : Q (slots name)) :
    Q (slots' name) := by
  refine execSlots_inv (I := fun slots _ => Q (slots name)) ?_ h hQ
  intro m hm slots os r slot os' hQ hc
  by_cases hn : m.mymodule = name
  · subst hn
    rw [Function.update_self]
    exact hcall m hm rfl hQ hc
  · rw [Function.update_of_ne (Ne.symm hn)]
    exact hQ

/-- A pass that succeeds takes the slot of every module from `P` to `Q`. -/
theorem execSlots_zero {name : Str} {P Q : Slot → Prop}
    (hcall : ∀ m ∈ mods, m.mymodule = name → ∀ {slot os slot' os'}, P slot ∨ Q slot →
      m.slotCall env view c slot os = some (0, slot', os') → Q slot')
    (hmem : ∃ m ∈ mods, m.mymodule = name)
    (h : execSlots env view c mods slots os = some (0, slots', os')) (hP : P (slots name)) :
    Q (slots' name) := by
  -- from `P ∨ Q` on: the first module of the name leaves `Q`, the others may run before it
  suffices hall : ∀ {slots : Slots} {os : Os}, P (slots name) ∨ Q (slots name) →
      (Q (slots name) ∨ ∃ m ∈ mods, m.mymodule = name) →
      execSlots env view c mods slots os = some (0, slots', os') → Q (slots' name) from
    hall (.inl hP) (.inr hmem) h
  clear h hP hmem
  induction mods with
  | nil =>
    intro slots os _ hQ h
    cases h
    exact hQ.resolve_right (by simp)
  | cons m mods ih =>
    intro slots os hPQ hmem h
    obtain ⟨r, slot, os1, hm, ⟨rfl, hx⟩ | ⟨hr, hn, -, -⟩⟩ := execSlots_cons h
    · replace ih := @ih fun m hm => hcall m (List.mem_cons_of_mem _ hm)
      by_cases hn : m.mymodule = name
      · subst hn
        have hQ := hcall m List.mem_cons_self rfl hPQ hm
        rw [← Function.update_self m.mymodule slot slots] at hQ
        exact ih (.inr hQ) (.inl hQ) hx
      · rw [← Function.update_of_ne (Ne.symm hn) slot slots] at hPQ hmem
        refine ih hPQ (hmem.imp_right ?_) hx
        rintro ⟨m', hm', hn'⟩
        rcases List.mem_cons.1 hm' with rfl | hm'
        · exact absurd hn' hn
        · exact ⟨m', hm', hn'⟩
    · exact absurd hn.symm hr

/-- An abort pass succeeds when it meets no dangling pointer. -/
theorem execSlots_aborts (h : ∀ m ∈ mods, slots m.mymodule ≠ .dangling) (env : Env) (view : View)
    (os : Os) : ∃ slots' os', execSlots env view .abort mods slots os = some (0, slots', os') := by
  induction mods generalizing slots os with
  | nil => exact ⟨slots, os, rfl⟩
  | cons m mods ih =>
    obtain ⟨os1, hcall⟩ : ∃ os1, m.slotCall env view .abort (slots m.mymodule) os =
        some (0, .absent, os1) := by
      cases hs : slots m.mymodule with
      | absent => exact ⟨os, rfl⟩
      | spooling md => exact ⟨abortTempfile md os, rfl⟩
      | dangling => exact absurd hs (h m List.mem_cons_self)
    have hrest : ∀ m' ∈ mods,
        Function.update slots m.mymodule .absent m'.mymodule ≠ .dangling := by
      intro m' hm'
      by_cases hn : m'.mymodule = m.mymodule
      · rw [hn, Function.update_self]
        simp
      · rw [Function.update_of_ne hn]
        exact h m' (List.mem_cons_of_mem _ hm')
    obtain ⟨slots', os', hx⟩ := ih hrest os1
    refine ⟨slots', os', ?_⟩
    simp only [execSlots, hcall, Option.bind_some, if_true]
    exact hx

end

/-! ## The passes of a session -/

section
variable {settings : Settings} {mods : List Module} {t : Nat} {env : Env} {s s' : Session}
  {c : HookCall} {slots slots' : Slots} {os os' : Os} {n : Int}

theorem Session.pass_loading : s.pass (settings.loading mods) t env c os =
    (msyExec (mods.map (·.call c)) env (s.view (settings.loading mods) t) ⟨s.extrapriv, os⟩).map
      fun (n, st) => (n, { s with extrapriv := st.mlfiExtrapriv }, st.os) := by
  unfold Session.pass
  rw [registered_loading]

/-- A pass of the session on the slots. -/
theorem Session.pass_slots (h : Slotted slots s.extrapriv)
    (hp : s.pass (settings.loading mods) t env c os = some (n, s', os')) :
    ∃ slots', execSlots env (s.view (settings.loading mods) t) c mods slots os =
      some (n, slots', os') ∧ Slotted slots' s'.extrapriv := by
  rw [pass_loading] at hp
  obtain ⟨⟨k, st⟩, hex, hx⟩ := Option.map_eq_some_iff.1 hp
  cases hx
  rcases h.exec env (s.view (settings.loading mods) t) c mods os with
    ⟨hnone, -⟩ | ⟨r, slots', list', os1, hsome, he, hown⟩
  · rw [hnone] at hex
    cases hex
  · rw [hsome] at hex
    cases hex
    exact ⟨slots', he, hown⟩

/-- The pass is there when the one on the slots is. -/
theorem Session.pass_of_slots (h : Slotted slots s.extrapriv)
    (he : execSlots env (s.view (settings.loading mods) t) c mods slots os =
      some (n, slots', os')) :
    ∃ list, s.pass (settings.loading mods) t env c os =
      some (n, { s with extrapriv := list }, os') ∧ Slotted slots' list := by
  rw [pass_loading]
  rcases h.exec env (s.view (settings.loading mods) t) c mods os with
    ⟨-, hnone⟩ | ⟨r, slots1, list', os1, hsome, he', hown⟩
  · rw [hnone] at he
    cases he
  · rw [he'] at he
    cases he
    exact ⟨list', by rw [hsome]; rfl, hown⟩

end

/-! ## A connection's slots -/

/-- What a connection keeps of its modules' slots: `K` for the addresses matched so far, and no
entry before the first header or body chunk of a message. -/
structure Session.Holds (K : Str → List Str → Slot → Prop) (mods : List Module) (ph : Phase)
    (s : Session) : Prop where
  envfrom : ph ≠ .idle → s.envfrom ≠ none
  header : ph = .header → s.headerExistence = true
  ended : ph = .idle → s = s.ended
  slots : ∃ slots, Slotted slots s.extrapriv ∧
    (∀ m ∈ mods, K m.mymodule s.addrmatched (slots m.mymodule)) ∧
    (ph = .idle ∨ ph = .envelope → ∀ n, slots n = .absent) ∧
    ∀ n, (∀ m ∈ mods, m.mymodule ≠ n) → slots n = .absent

/-- `K` holds of an empty slot without addresses, and a hook of the header or the body that
succeeds on an empty slot, or on one with `K`, leaves `K`. -/
structure SlotInv (settings : Settings) (mods : List Module) (t : Nat)
    (K : Str → List Str → Slot → Prop) : Prop where
  absent : ∀ m ∈ mods, K m.mymodule [] .absent
  call : ∀ m ∈ mods, ∀ {env : Env} {s : Session} {c : HookCall} {slot slot' : Slot} {os os' : Os},
    c ≠ .eom ∧ c ≠ .abort → slot = .absent ∨ K m.mymodule s.addrmatched slot →
    m.slotCall env (s.view (settings.loading mods) t) c slot os = some (0, slot', os') →
    K m.mymodule s.addrmatched slot'

section
variable {settings : Settings} {mods : List Module} {t : Nat} {K : Str → List Str → Slot → Prop}
  (hK : SlotInv settings mods t K) {ph : Phase} {env : Env} {s s' : Session}
  {slots slots' : Slots} {view : View} {c : HookCall} {os os' : Os} {n : Int}

/-- The slots of names that no module has stay empty. -/
theorem execSlots_others (hx : execSlots env view c mods slots os = some (n, slots', os'))
    (h : ∀ n, (∀ m ∈ mods, m.mymodule ≠ n) → slots n = .absent) :
    ∀ n, (∀ m ∈ mods, m.mymodule ≠ n) → slots' n = .absent := by
  intro n hn
  refine execSlots_slot (Q := fun slot => slot = .absent) ?_ hx (h n hn)
  intro m hm hmn
  exact absurd hmn (hn m hm)

/-- A pass that succeeds and empties each slot it meets leaves no entry. -/
theorem execSlots_empties
    (hcall : ∀ {m : Module} {slot : Slot} {os : Os} {slot' : Slot} {os' : Os},
      m.slotCall env view c slot os = some (0, slot', os') → slot' = .absent)
    (hx : execSlots env view c mods slots os = some (0, slots', os'))
    (h : ∀ n, (∀ m ∈ mods, m.mymodule ≠ n) → slots n = .absent) (n : Str) :
    slots' n = .absent := by
  by_cases hn : ∃ m ∈ mods, m.mymodule = n
  · refine execSlots_zero (P := fun _ => True) (Q := fun slot => slot = .absent) ?_ hn hx trivial
    intro m _ _ slot os slot' os' _ hc
    exact hcall hc
  · push Not at hn
    exact execSlots_others hx h n hn

include hK

theorem Session.Holds.finished (hown : Slotted slots s.extrapriv)
    (habs : ∀ n, slots n = .absent) : s.ended.Holds K mods .idle :=
  ⟨fun h => absurd rfl h, fun h => (by cases h), fun _ => rfl, slots, hown,
    fun m hm => by
      rw [habs]
      exact hK.absent m hm,
    fun _ => habs, fun n _ => habs n⟩

/-- An abort that leaves a session behind ends the message. -/
theorem Session.Holds.aborted (hown : Slotted slots s.extrapriv)
    (hothers : ∀ n, (∀ m ∈ mods, m.mymodule ≠ n) → slots n = .absent) {r : Option Sfsistat}
    {reply : Reply} (h : s.aborted (settings.loading mods) t env r os = some (reply, some s')) :
    s'.Holds K mods .idle := by
  obtain ⟨s1, os1, hp, rfl, -⟩ := aborted_some h
  obtain ⟨slots', hx, hown'⟩ := pass_slots hown hp
  refine finished hK hown' (execSlots_empties ?_ hx hothers)
  intro m slot os slot' os' hc
  exact Module.slotAbort_absent hc

omit hK in
theorem Phase.behind_idle {cb : Callback} {r : Sfsistat} (hr : r ≠ .continue_) :
    Phase.behind cb r = .idle := by
  cases cb <;> cases r <;> first | rfl | exact absurd rfl hr

/-- A hook of the header or the body leaves `K`, with the addresses matched by then. -/
theorem SlotInv.pass (hc : c ≠ .eom ∧ c ≠ .abort)
    (hx : execSlots env (s.view (settings.loading mods) t) c mods slots os =
      some (0, slots', os'))
    (hready : ∀ m ∈ mods, slots m.mymodule = .absent ∨
      K m.mymodule s.addrmatched (slots m.mymodule)) :
    ∀ m ∈ mods, K m.mymodule s.addrmatched (slots' m.mymodule) := by
  intro m hm
  refine execSlots_zero (P := fun slot => slot = .absent ∨ K m.mymodule s.addrmatched slot)
    (Q := K m.mymodule s.addrmatched) ?_ ⟨m, hm, rfl⟩ hx (hready m hm)
  intro m' hm' hn slot os slot' os' hPQ hcall
  rw [← hn] at hPQ ⊢
  exact hK.call m' hm' hc (hPQ.elim id .inr) hcall

omit hK in
/-- Before a hook of the header or the body the slots are empty, or the addresses are those of the
slots. -/
theorem Session.Holds.ready (h : s.Holds K mods ph) {cb : Callback} (hallows : ph.Allows cb)
    {s1 : Session} (hm : s.Makes (settings.loading mods) env cb c s1)
    (hcb : (∃ f v, cb = .header f v) ∨ ∃ b, cb = .body b) :
    (c ≠ .eom ∧ c ≠ .abort) ∧ s1.envfrom ≠ none ∧
      ((∃ f v, cb = .header f v) → s1.headerExistence = true) ∧
      ∃ slots, Slotted slots s1.extrapriv ∧
        (∀ m ∈ mods, slots m.mymodule = .absent ∨
          K m.mymodule s1.addrmatched (slots m.mymodule)) ∧
        ∀ n, (∀ m ∈ mods, m.mymodule ≠ n) → slots n = .absent := by
  obtain ⟨slots, hown, hslots, habs, hothers⟩ := h.slots
  have hkept : ∀ m ∈ mods, slots m.mymodule = .absent ∨
      K m.mymodule s.addrmatched (slots m.mymodule) := fun m hm => .inr (hslots m hm)
  rcases hcb with ⟨f, v, rfl⟩ | ⟨b, rfl⟩
  · have hsome : s.envfrom ≠ none := h.envfrom (by rintro rfl; exact hallows.elim)
    obtain ⟨rfl, hcase⟩ := hm
    rcases hcase with ⟨he, rfl⟩ | ⟨he, list, -, -, rfl⟩
    · exact ⟨⟨by simp, by simp⟩, hsome, fun _ => he, slots, hown, hkept, hothers⟩
    · have hph : ph = .envelope := by
        cases ph with
        | envelope => rfl
        | header => simp [h.header rfl] at he
        | _ => exact hallows.elim
      exact ⟨⟨by simp, by simp⟩, hsome, fun _ => rfl, slots, hown,
        fun m _ => .inl (habs (.inr hph) m.mymodule), hothers⟩
  · have hsome : s.envfrom ≠ none := h.envfrom (by rintro rfl; exact hallows.elim)
    obtain ⟨rfl, rfl⟩ := hm
    exact ⟨⟨by simp, by simp⟩, hsome, fun ⟨_, _, he⟩ => (nomatch he), slots, hown, hkept,
      hothers⟩

/-- The session behind a pass that has succeeded. -/
theorem Session.Holds.passed (h : s.Holds K mods ph) {cb : Callback} (hallows : ph.Allows cb)
    {s1 s2 : Session} (hm : s.Makes (settings.loading mods) env cb c s1)
    (hp : s1.pass (settings.loading mods) t env c os = some (0, s2, os')) :
    (s2.behind cb).Holds K mods (.behind cb .continue_) := by
  have hsame := pass_extrapriv hp
  have hfrom : s2.envfrom = s1.envfrom := by rw [hsame]
  have hexist : s2.headerExistence = s1.headerExistence := by rw [hsame]
  have haddr : s2.addrmatched = s1.addrmatched := by rw [hsame]
  -- a hook of the header or the body
  have hhook : (∃ f v, cb = .header f v) ∨ (∃ b, cb = .body b) →
      s2.envfrom ≠ none ∧ ((∃ f v, cb = .header f v) → s2.headerExistence = true) ∧
        ∃ slots, Slotted slots s2.extrapriv ∧
          (∀ m ∈ mods, K m.mymodule s2.addrmatched (slots m.mymodule)) ∧
          ∀ n, (∀ m ∈ mods, m.mymodule ≠ n) → slots n = .absent := by
    intro hcb
    obtain ⟨hc, hsome, hheader, slots, hown, hready, hothers⟩ := h.ready hallows hm hcb
    obtain ⟨slots', hx, hown'⟩ := pass_slots hown hp
    rw [hfrom, hexist, haddr]
    exact ⟨hsome, hheader, slots', hown', hK.pass hc hx hready, execSlots_others hx hothers⟩
  cases cb with
  | header f v =>
    obtain ⟨hsome, hheader, slots', hown', hkept, hothers'⟩ := hhook (.inl ⟨f, v, rfl⟩)
    exact ⟨fun _ => hsome, fun _ => hheader ⟨f, v, rfl⟩, fun h => (by cases h), slots', hown',
      hkept, fun h => (by rcases h with h | h <;> cases h), hothers'⟩
  | body b =>
    obtain ⟨hsome, -, slots', hown', hkept, hothers'⟩ := hhook (.inr ⟨b, rfl⟩)
    exact ⟨fun _ => hsome, fun h => (by cases h), fun h => (by cases h), slots', hown', hkept,
      fun h => (by rcases h with h | h <;> cases h), hothers'⟩
  | eom =>
    obtain ⟨rfl, rfl⟩ := hm
    obtain ⟨slots, hown, -, -, hothers⟩ := h.slots
    obtain ⟨slots', hx, hown'⟩ := pass_slots hown hp
    refine finished hK hown' (execSlots_empties ?_ hx hothers)
    intro m slot os slot' os' hc
    exact m.slotEom_zero hc
  | _ => exact hm.elim

/-- **Step.** -/
theorem Session.Holds.step (h : s.Holds K mods ph) {cb : Callback} (hallows : ph.Allows cb)
    {reply : Reply}
    (hst : s.step (settings.loading mods) t env cb = some (reply, some s')) :
    s'.Holds K mods (.behind cb reply.stat) := by
  obtain ⟨slots, hown, hslots, habs, hothers⟩ := h.slots
  generalize hs : some s' = x at hst
  cases step_cases hst with
  | envfrom a =>
    cases hs
    have hph : ph = .idle := by
      cases ph with
      | idle => rfl
      | _ => exact hallows.elim
    exact ⟨fun _ => by simp, fun h => (by cases h), fun h => (by cases h), slots, hown, hslots,
      fun _ => habs (.inl hph), hothers⟩
  | envrcpt a =>
    cases hs
    have hph : ph = .envelope := by
      cases ph with
      | envelope => rfl
      | _ => exact hallows.elim
    exact ⟨fun _ => h.envfrom (by rw [hph]; simp), fun h => (by cases h), fun h => (by cases h),
      slots, hown, hslots, fun _ => habs (.inr hph), hothers⟩
  | passed hm hp =>
    cases hs
    exact h.passed hK hallows hm hp
  | @failed _ c s1 s2 n os _ _ hm hp hn ha =>
    subst hs
    have hown1 : Slotted slots s1.extrapriv := by
      rw [hm.extrapriv]
      exact hown
    obtain ⟨slots', hx, hown'⟩ := pass_slots hown1 hp
    rw [Phase.behind_idle (aborted_stat (ErrorAction.sfsistat_ne _) ha)]
    exact aborted hK hown' (execSlots_others hx hothers) ha
  | @gaveUp _ s1 r _ _ hs1 hr ha =>
    subst hs
    have hown1 : Slotted slots s1.extrapriv := by
      rcases hs1 with rfl | rfl <;> exact hown
    have hph : Phase.behind cb reply.stat = .idle := by
      rcases hr with ⟨rfl, rfl⟩ | ⟨-, r', rfl, hne⟩
      · rfl
      · exact Phase.behind_idle (aborted_stat hne ha)
    rw [hph]
    exact aborted hK hown1 hothers ha

end

/-- **Run.** -/
theorem Connection.holds {settings : Settings} {mods : List Module}
    {K : Nat → Str → List Str → Slot → Prop} (hK : ∀ t, SlotInv settings mods t (K t))
    {C : World → Env → Callback → Prop} {ph : Phase} {w : World}
    (h : Connection C (settings.loading mods) ph w) :
    w.priv = none ∨ ∃ t s, w.Shows (settings.loading mods) t (some s) ∧ s.Holds (K t) mods ph :=
  h.session (J := fun t ph s => s.Holds (K t) mods ph)
    (fun t => .finished (s := .fresh) (hK t) Slotted.nil fun _ => rfl)
    fun {_ t _ _ _ _ _} hallows hJ hst => hJ.step (hK t) hallows hst

end Messasy
