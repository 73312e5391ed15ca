import Messasy.Milter.Abstract
import Messasy.Milter.Validity
import Messasy.Module.Slot

/-!
# One module among others

`cfg.Hosts m g`: the module `m` is loaded, and the other loaded modules leave its entries alone and
keep what `g` reads of the system. A pass over the hooks then either stops before `m`'s hook or
runs it once, on `m`'s slot (`Session.pass_hosted`). `Session.Tidy` is what this makes of `m`'s
slot over a whole connection: it is empty between two messages.
-/

namespace Messasy

open Lib

section
variable {α : Type} {f : HookSt → α} {env : Env} {view : View} {st st' : HookSt} {r : Int}

theorem msyExec_cons (hook : Hook) (l : List Hook) (env : Env) (view : View) (st : HookSt) :
    msyExec (hook :: l) env view st = (hook env view st).bind fun (n, st) =>
      if n = 0 then msyExec l env view st else some (n, st) := by
  simp only [msyExec]
  rcases hook env view st with _ | ⟨n, st1⟩
  · rfl
  · by_cases hn : n = 0
    · subst hn
      rfl
    · simp only [Option.bind_some, if_neg hn]

/-- A pass over two lists. -/
theorem msyExec_append (l k : List Hook) (env : Env) (view : View) (st : HookSt) :
    msyExec (l ++ k) env view st = (msyExec l env view st).bind fun (n, st) =>
      if n = 0 then msyExec k env view st else some (n, st) := by
  induction l generalizing st with
  | nil => rfl
  | cons hook l ih =>
    rw [List.cons_append, msyExec_cons, msyExec_cons]
    rcases hook env view st with _ | ⟨n, st1⟩
    · rfl
    · by_cases hn : n = 0
      · simp only [Option.bind_some, if_pos hn, ih]
      · simp only [Option.bind_some, if_neg hn]

/-- A pass keeps what all its hooks keep. -/
theorem msyExec_keeps {l : List Hook} (h : ∀ hook ∈ l, Keeps f hook) : Keeps f (msyExec l) := by
  induction l with
  | nil =>
    intro env view st r st' he
    cases he
    rfl
  | cons hook l ih =>
    intro env view st r st' he
    rw [msyExec_cons] at he
    obtain ⟨⟨n, st1⟩, h1, h2⟩ := Option.bind_eq_some_iff.1 he
    have hk := h hook List.mem_cons_self env view st n st1 h1
    by_cases hn : n = 0
    · simp only [if_pos hn] at h2
      exact (ih (fun hook hm => h hook (List.mem_cons_of_mem _ hm)) env view st1 r st' h2).trans hk
    · simp only [if_neg hn] at h2
      cases h2
      exact hk

/-- A pass stops before the hook or runs it once. -/
theorem msyExec_split {pre post : List Hook} {hook : Hook} (hpre : ∀ hook ∈ pre, Keeps f hook)
    (hpost : ∀ hook ∈ post, Keeps f hook)
    (h : msyExec (pre ++ hook :: post) env view st = some (r, st')) :
    (r ≠ 0 ∧ f st' = f st) ∨
    ∃ st1 n st2, f st1 = f st ∧ hook env view st1 = some (n, st2) ∧ f st' = f st2 ∧
      (r = 0 → n = 0) := by
  rw [msyExec_append] at h
  obtain ⟨⟨n0, st1⟩, h0, h1⟩ := Option.bind_eq_some_iff.1 h
  have hk0 := msyExec_keeps hpre env view st n0 st1 h0
  by_cases hn0 : n0 = 0
  · simp only [if_pos hn0, msyExec_cons] at h1
    obtain ⟨⟨n, st2⟩, hc, h2⟩ := Option.bind_eq_some_iff.1 h1
    by_cases hn : n = 0
    · simp only [if_pos hn] at h2
      exact .inr ⟨st1, n, st2, hk0, hc, msyExec_keeps hpost env view st2 r st' h2, fun _ => hn⟩
    · simp only [if_neg hn] at h2
      cases h2
      exact .inr ⟨st1, r, st', hk0, hc, rfl, fun hr => absurd hr hn⟩
  · simp only [if_neg hn0] at h1
    cases h1
    exact .inl ⟨hn0, hk0⟩

end

/-- The configuration with the hooks of these modules registered. -/
def Settings.loading (settings : Settings) (mods : List Module) : Config :=
  { settings with
    cfExecHeader := mods.map (·.execHeader)
    cfExecBody := mods.map (·.execBody)
    cfExecEom := mods.map (·.execEom)
    cfExecAbort := mods.map (·.execAbort) }

theorem registered_loading (settings : Settings) (mods : List Module) (c : HookCall) :
    (settings.loading mods).registered c = mods.map (·.call c) := by
  cases c <;> simp [Settings.loading, Config.registered, Module.call]

/-- `m` is loaded, at any place, and the others leave its entries and what `g` reads alone. -/
def Config.Hosts {β : Type} (cfg : Config) (m : Module) (g : Os → β) : Prop :=
  ∃ pre post : List (HookCall → Hook),
    (∀ c, cfg.registered c = pre.map (· c) ++ m.call c :: post.map (· c)) ∧
    ∀ hooks ∈ pre ++ post, ∀ c,
      Keeps (fun st => (entriesOf m.mymodule st.mlfiExtrapriv, g st.os)) (hooks c)

theorem hosts_loading {β : Type} {g : Os → β} {m : Module}
    (pre post : List Module) (settings : Settings) (h : ∀ m' ∈ pre ++ post, ∀ c,
      Keeps (fun st => (entriesOf m.mymodule st.mlfiExtrapriv, g st.os)) (m'.call c)) :
    (settings.loading (pre ++ m :: post)).Hosts m g := by
  refine ⟨pre.map Module.call, post.map Module.call, fun c => ?_, fun hooks hm c => ?_⟩
  · simp only [registered_loading, List.map_append, List.map_cons, List.map_map]
    rfl
  · rw [← List.map_append] at hm
    obtain ⟨m', hm', rfl⟩ := List.mem_map.1 hm
    exact h m' hm' c

section
variable {β : Type} {g : Os → β} {cfg : Config} {m : Module} {t : Nat} {env : Env}
  {s s' : Session} {slot slot' : Slot} {os os' : Os} {n : Int}

/-- A pass only changes the private list. -/
theorem Session.pass_extrapriv {c : HookCall} (h : s.pass cfg t env c os = some (n, s', os')) :
    s' = { s with extrapriv := s'.extrapriv } := by
  obtain ⟨⟨k, st⟩, -, hx⟩ := Option.map_eq_some_iff.1 h
  cases hx
  rfl

/-- **A pass at the module's slot.** -/
theorem Session.pass_hosted (hh : cfg.Hosts m g) (hown : Own m.mymodule slot s.extrapriv)
    {c : HookCall} (h : s.pass cfg t env c os = some (n, s', os')) :
    (n ≠ 0 ∧ Own m.mymodule slot s'.extrapriv ∧ g os' = g os) ∨
    ∃ os1 r slot' os2, g os1 = g os ∧
      m.slotCall env (s.view cfg t) c slot os1 = some (r, slot', os2) ∧
      Own m.mymodule slot' s'.extrapriv ∧ g os' = g os2 ∧ (n = 0 → r = 0) := by
  obtain ⟨pre, post, hreg, hkeep⟩ := hh
  obtain ⟨⟨k, st⟩, hex, hx⟩ := Option.map_eq_some_iff.1 h
  cases hx
  rw [hreg c] at hex
  have hmap : ∀ l : List (HookCall → Hook), (∀ hooks ∈ l, hooks ∈ pre ++ post) →
      ∀ hook ∈ l.map (· c),
        Keeps (fun st => (entriesOf m.mymodule st.mlfiExtrapriv, g st.os)) hook := by
    intro l hl hook hm
    obtain ⟨hooks, hmem, rfl⟩ := List.mem_map.1 hm
    exact hkeep hooks (hl hooks hmem) c
  rcases msyExec_split (hmap pre fun _ => List.mem_append_left _)
      (hmap post fun _ => List.mem_append_right _) hex with
    ⟨hn, hsame⟩ | ⟨st1, r, st2, hsame1, hcall, hsame2, hr⟩
  · obtain ⟨he, hg⟩ := Prod.mk.inj hsame
    exact .inl ⟨hn, he.trans hown, hg⟩
  · obtain ⟨he1, hg1⟩ := Prod.mk.inj hsame1
    obtain ⟨he2, hg2⟩ := Prod.mk.inj hsame2
    have hown1 : Own m.mymodule slot st1.mlfiExtrapriv := he1.trans hown
    rw [Module.call_eq env _ hown1 c] at hcall
    obtain ⟨⟨r', slot', os2⟩, hslot, hst⟩ := Option.map_eq_some_iff.1 hcall
    cases hst
    exact .inr ⟨st1.os, r, slot', os2, hg1, hslot, he2.trans (hown1.place slot'), hg2, hr⟩

theorem Session.Makes.extrapriv {cb : Callback} {c : HookCall} {s1 : Session}
    (h : s.Makes cfg env cb c s1) : s1.extrapriv = s.extrapriv := by
  obtain rfl := h.callback
  exact h.same.2.2.2

/-! ## Modules that succeed -/

/-- `m` is loaded, and the other modules succeed besides: under `Ok`, from a private list with `I`,
each of their hooks returns 0 and leaves such a list. -/
def Config.Runs {β : Type} (cfg : Config) (m : Module) (g : Os → β) (I : List Extrapriv → Prop)
    (Ok : Env → View → Prop) : Prop :=
  ∃ pre post : List (HookCall → Hook),
    (∀ c, cfg.registered c = pre.map (· c) ++ m.call c :: post.map (· c)) ∧
    (∀ hooks ∈ pre ++ post, ∀ c,
      Keeps (fun st => (entriesOf m.mymodule st.mlfiExtrapriv, g st.os)) (hooks c)) ∧
    (∀ hooks ∈ pre ++ post, ∀ c env view st, Ok env view → I st.mlfiExtrapriv →
      ∃ st', hooks c env view st = some (0, st') ∧ I st'.mlfiExtrapriv) ∧
    ∀ slot list, I list → I (place m.mymodule slot list)

theorem msyExec_succeeds {I : List Extrapriv → Prop} {view : View} {l : List Hook}
    (h : ∀ hook ∈ l, ∀ st, I st.mlfiExtrapriv →
      ∃ st', hook env view st = some (0, st') ∧ I st'.mlfiExtrapriv) :
    ∀ st, I st.mlfiExtrapriv →
      ∃ st', msyExec l env view st = some (0, st') ∧ I st'.mlfiExtrapriv := by
  induction l with
  | nil => exact fun st hI => ⟨st, rfl, hI⟩
  | cons hook l ih =>
    intro st hI
    obtain ⟨st1, h1, hI1⟩ := h hook List.mem_cons_self st hI
    obtain ⟨st2, h2, hI2⟩ := ih (fun hook hm => h hook (List.mem_cons_of_mem _ hm)) st1 hI1
    refine ⟨st2, ?_, hI2⟩
    rw [msyExec_cons, h1]
    exact h2

section
variable {I : List Extrapriv → Prop} {Ok : Env → View → Prop}

theorem Config.Runs.hosts (h : cfg.Runs m g I Ok) : cfg.Hosts m g := by
  obtain ⟨pre, post, hreg, hkeep, -⟩ := h
  exact ⟨pre, post, hreg, hkeep⟩

/-- Before the module's hook the others have succeeded; its result decides. -/
theorem Session.pass_runs (hr : cfg.Runs m g I Ok) (hOk : Ok env (s.view cfg t))
    (hI : I s.extrapriv) (hown : Own m.mymodule slot s.extrapriv) (c : HookCall) (os : Os) :
    ∃ os1, g os1 = g os ∧
      (m.slotCall env (s.view cfg t) c slot os1 = none → s.pass cfg t env c os = none) ∧
      ∀ slot' os2, m.slotCall env (s.view cfg t) c slot os1 = some (0, slot', os2) →
        ∃ list os', s.pass cfg t env c os = some (0, { s with extrapriv := list }, os') ∧
          I list ∧ Own m.mymodule slot' list ∧ g os' = g os2 := by
  obtain ⟨pre, post, hreg, hkeep, hsucc, hplace⟩ := hr
  have hmap : ∀ l : List (HookCall → Hook), (∀ hooks ∈ l, hooks ∈ pre ++ post) →
      (∀ hook ∈ l.map (· c),
        Keeps (fun st => (entriesOf m.mymodule st.mlfiExtrapriv, g st.os)) hook) ∧
      ∀ hook ∈ l.map (· c), ∀ st, I st.mlfiExtrapriv →
        ∃ st', hook env (s.view cfg t) st = some (0, st') ∧ I st'.mlfiExtrapriv := by
    refine fun l hl => ⟨fun hook hm => ?_, fun hook hm st hI => ?_⟩
    · obtain ⟨hooks, hmem, rfl⟩ := List.mem_map.1 hm
      exact hkeep hooks (hl hooks hmem) c
    · obtain ⟨hooks, hmem, rfl⟩ := List.mem_map.1 hm
      exact hsucc hooks (hl hooks hmem) c env _ st hOk hI
  obtain ⟨hkpre, hspre⟩ := hmap pre fun _ => List.mem_append_left _
  obtain ⟨hkpost, hspost⟩ := hmap post fun _ => List.mem_append_right _
  obtain ⟨st1, h1, hI1⟩ := msyExec_succeeds hspre ⟨s.extrapriv, os⟩ hI
  obtain ⟨he1, hg1⟩ := Prod.mk.inj (msyExec_keeps hkpre _ _ _ _ _ h1)
  have hown1 : Own m.mymodule slot st1.mlfiExtrapriv := he1.trans hown
  have hcall := Module.call_eq env (s.view cfg t) hown1 c
  refine ⟨st1.os, hg1, fun hnone => ?_, fun slot' os2 hsome => ?_⟩
  · rw [hnone] at hcall
    unfold Session.pass
    rw [hreg, msyExec_append, h1]
    simp only [Option.bind_some, if_true, msyExec_cons, hcall]
    rfl
  · rw [hsome] at hcall
    obtain ⟨st2, h2, hI2⟩ := msyExec_succeeds hspost
      ⟨place m.mymodule slot' st1.mlfiExtrapriv, os2⟩ (hplace slot' _ hI1)
    obtain ⟨he2, hg2⟩ := Prod.mk.inj (msyExec_keeps hkpost _ _ _ _ _ h2)
    refine ⟨st2.mlfiExtrapriv, st2.os, ?_, hI2, he2.trans (hown1.place slot'), hg2⟩
    unfold Session.pass
    rw [hreg, msyExec_append, h1]
    simp only [Option.bind_some, if_true, msyExec_cons, hcall, Module.onList, Option.map_some, h2]

/-- Nothing is kept yet, or a record with `Good`. -/
def Slot.Holds (Good : Md → Prop) : Slot → Prop
  | .absent => True
  | .spooling md => Good md
  | .dangling => False

/-- Under `Ok` the module opens a record with `Good`, writes to it, keeps it so and closes it. -/
structure Module.Succeeds (m : Module) (Good : Md → Prop) (Ok : Env → View → Prop) : Prop where
  kept : ∀ {md md' : Md}, md'.core = md.core → Good md → Good md'
  write : ∀ {env view}, Ok env view → ∀ i n, env.write i n ≠ none
  opens : ∀ {env view}, Ok env view → ∀ os, ∃ config md os',
    findConfig m.mymodule view.config.cfExtraconfig = some config ∧
      m.open_ env config view os = some (some md, os') ∧ Good md
  closes : ∀ {env view}, Ok env view → ∀ {md}, Good md → ∀ os, ∃ md' os',
    m.close env view.config md os = some (.success, md', os')

section
variable {Good : Md → Prop} {Ok : Env → View → Prop} {view : View}

/-- A writing hook of such a module. -/
theorem Module.Succeeds.writing (h : m.Succeeds Good Ok) (hOk : Ok env view)
    {write : Md → Os → Rc × Md × Os} (hw : ∀ md os, (write md os).1 = .success)
    (hk : ∀ md os, (write md os).2.1.core = md.core) (hslot : slot.Holds Good) (os : Os) :
    ∃ slot' os', m.slotWriting env view write slot os = some (0, slot', os') ∧
      slot'.Holds Good := by
  have hrec : ∃ md os1, m.slotRecord env view slot os = some (some md, os1) ∧ Good md := by
    cases slot with
    | absent =>
      obtain ⟨config, md, os1, hconf, ho, hg⟩ := h.opens hOk os
      exact ⟨md, os1, by simp only [Module.slotRecord, hconf, Option.bind_some]; exact ho, hg⟩
    | spooling md => exact ⟨md, os, rfl, hslot⟩
    | dangling => exact hslot.elim
  obtain ⟨md, os1, he, hg⟩ := hrec
  refine ⟨.spooling (write md os1).2.1, (write md os1).2.2, ?_, h.kept (hk md os1) hg⟩
  simp only [Module.slotWriting, he, Option.map_some, hw, if_true]

/-- Every hook of such a module. -/
theorem Module.Succeeds.call (h : m.Succeeds Good Ok) (hOk : Ok env view) (c : HookCall)
    (hslot : slot.Holds Good) (os : Os) :
    ∃ slot' os', m.slotCall env view c slot os = some (0, slot', os') ∧ slot'.Holds Good := by
  cases c with
  | header f v =>
    exact h.writing hOk (fun md os => writeHeader_success (h.write hOk) md f v os)
      (fun md os => (writeHeader_kept env md f v os).core) hslot os
  | body b =>
    exact h.writing hOk (fun md os => writeBody_success (h.write hOk) md b os)
      (fun md os => (writeBody_kept env md b os).core) hslot os
  | eom =>
    cases slot with
    | absent => exact ⟨.absent, os, rfl, trivial⟩
    | spooling md =>
      obtain ⟨md', os', hc⟩ := h.closes hOk hslot os
      refine ⟨.absent, os', ?_, trivial⟩
      simp only [Module.slotCall, Module.slotEom, hc, Option.map_some, if_true]
    | dangling => exact hslot.elim
  | abort =>
    cases slot with
    | absent => exact ⟨.absent, os, rfl, trivial⟩
    | spooling md => exact ⟨.absent, abortTempfile md os, rfl, trivial⟩
    | dangling => exact hslot.elim

/-- **Such a module beside `m`**, in front of it. -/
theorem runs_beside {m' : Module} (settings : Settings) (hne : m'.mymodule ≠ m.mymodule)
    (hkeep : ∀ c, Keeps (fun st => (entriesOf m.mymodule st.mlfiExtrapriv, g st.os)) (m'.call c))
    (h : m'.Succeeds Good Ok) :
    (settings.loading [m', m]).Runs m g
      (fun list => ∃ slot, Own m'.mymodule slot list ∧ slot.Holds Good) Ok := by
  refine ⟨[m'.call], [], fun c => registered_loading settings [m', m] c, ?_, ?_, ?_⟩
  · intro hooks hm c
    obtain rfl := List.mem_singleton.1 hm
    exact hkeep c
  · intro hooks hm c env view st hOk ⟨slot, hown, hslot⟩
    obtain rfl := List.mem_singleton.1 hm
    obtain ⟨slot', os', he, hslot'⟩ := h.call hOk c hslot st.os
    refine ⟨⟨place m'.mymodule slot' st.mlfiExtrapriv, os'⟩, ?_, slot', hown.place slot', hslot'⟩
    rw [Module.call_eq env view hown c, he]
    rfl
  · intro slot list ⟨slot', hown, hslot'⟩
    exact ⟨slot', (entriesOf_place_of_ne hne slot list).trans hown, hslot'⟩

end

end

/-! ## Between two messages -/

theorem Module.slotEom_zero {view : View} (h : m.slotEom env view slot os = some (0, slot', os')) :
    slot' = .absent := by
  cases slot with
  | absent => cases h; rfl
  | spooling md =>
    obtain ⟨⟨rc, md1, os1⟩, -, hx⟩ := Option.map_eq_some_iff.1 h
    dsimp only at hx
    split at hx
    · cases hx; rfl
    · cases hx
  | dangling => cases h

theorem Module.slotAbort_absent {r : Int} (h : slotAbort slot os = some (r, slot', os')) :
    slot' = .absent := by
  cases slot <;> cases h <;> rfl

/-- The module has at most one entry; between two messages it has none, and the message's own data
is cleared. -/
structure Session.Tidy (m : Module) (ph : Phase) (s : Session) : Prop where
  own : ∃ slot, Own m.mymodule slot s.extrapriv ∧ (ph = .idle → slot = .absent)
  ended : ph = .idle → s = s.ended

theorem Session.Tidy.fresh (m : Module) : fresh.Tidy m .idle :=
  ⟨⟨.absent, Own.nil _, fun _ => rfl⟩, fun _ => rfl⟩

/-- An abort that leaves a session behind leaves the module's slot empty. -/
theorem Session.aborted_own (hh : cfg.Hosts m g) (hown : Own m.mymodule slot s.extrapriv)
    {r : Option Sfsistat} {reply : Reply}
    (h : s.aborted cfg t env r os = some (reply, some s')) :
    Own m.mymodule .absent s'.extrapriv := by
  obtain ⟨s1, os1, hp, rfl, -⟩ := aborted_some h
  rcases pass_hosted hh hown hp with ⟨hn, -⟩ | ⟨os2, k, slot', os3, -, hslot, hown', -⟩
  · exact absurd rfl hn
  · obtain rfl := Module.slotAbort_absent hslot
    exact hown'

/-- A callback that ends the message clears its data. -/
theorem Session.step_ended {cb : Callback} {reply : Reply}
    (hst : s.step cfg t env cb = some (reply, some s')) (h : Phase.behind cb reply.stat = .idle) :
    s' = s'.ended := by
  generalize hs : some s' = x at hst
  cases step_cases hst with
  | envfrom a => cases h
  | envrcpt a => cases h
  | passed hm hp =>
    cases hs
    cases cb with
    | header f v => cases h
    | body b => cases h
    | eom => rfl
    | _ => exact hm.elim
  | failed hm hp hn ha =>
    subst hs
    obtain ⟨s1, os1, -, rfl, -⟩ := aborted_some ha
    rfl
  | gaveUp _ _ ha =>
    subst hs
    obtain ⟨s1, os1, -, rfl, -⟩ := aborted_some ha
    rfl

/-- **Step.** -/
theorem Session.Tidy.step (hh : cfg.Hosts m g) {ph : Phase} (h : s.Tidy m ph) {cb : Callback}
    {reply : Reply} (hst : s.step cfg t env cb = some (reply, some s')) :
    s'.Tidy m (.behind cb reply.stat) := by
  refine ⟨?_, step_ended hst⟩
  obtain ⟨slot, hown, -⟩ := h.own
  generalize hs : some s' = x at hst
  cases step_cases hst with
  | envfrom a =>
    cases hs
    exact ⟨slot, hown, fun h => (by cases h)⟩
  | envrcpt a =>
    cases hs
    exact ⟨slot, hown, fun h => (by cases h)⟩
  | @passed _ c s1 s2 os hm hp =>
    cases hs
    have hown1 : Own m.mymodule slot s1.extrapriv := by
      rw [hm.extrapriv]
      exact hown
    rcases pass_hosted hh hown1 hp with ⟨hn, -⟩ | ⟨os2, k, slot', os3, -, hslot, hown', -, hk⟩
    · exact absurd rfl hn
    · obtain rfl := hk rfl
      cases cb with
      | header f v => exact ⟨slot', hown', fun h => (by cases h)⟩
      | body b => exact ⟨slot', hown', fun h => (by cases h)⟩
      | eom =>
        obtain ⟨rfl, -⟩ := hm
        exact ⟨slot', hown', fun _ => Module.slotEom_zero hslot⟩
      | _ => exact hm.elim
  | @failed _ c s1 s2 n os _ _ hm hp hn ha =>
    subst hs
    have hown1 : Own m.mymodule slot s1.extrapriv := by
      rw [hm.extrapriv]
      exact hown
    obtain ⟨slot2, hown2⟩ : ∃ slot2, Own m.mymodule slot2 s2.extrapriv := by
      rcases pass_hosted hh hown1 hp with ⟨-, h2, -⟩ | ⟨-, -, slot', -, -, -, h2, -⟩
      · exact ⟨slot, h2⟩
      · exact ⟨slot', h2⟩
    exact ⟨.absent, aborted_own hh hown2 ha, fun _ => rfl⟩
  | @gaveUp _ s1 r _ _ hs1 hr ha =>
    subst hs
    have hown1 : Own m.mymodule slot s1.extrapriv := by
      rcases hs1 with rfl | rfl <;> exact hown
    exact ⟨.absent, aborted_own hh hown1 ha, fun _ => rfl⟩

/-- **Run.** What the callbacks keep of the session holds on every connection, unless a failed
abort pass has cost the session. -/
theorem Connection.session {C : World → Env → Callback → Prop} {J : Nat → Phase → Session → Prop}
    (hfresh : ∀ t, J t .idle .fresh)
    (hstep : ∀ {ph t env cb s reply s'}, ph.Allows cb → J t ph s →
      s.step cfg t env cb = some (reply, some s') → J t (.behind cb reply.stat) s')
    {ph : Phase} {w : World} (h : Connection C cfg ph w) :
    w.priv = none ∨ ∃ t s, w.Shows cfg t (some s) ∧ J t ph s := by
  induction h with
  | connect he =>
    obtain ⟨t, hsh⟩ := connect_shows he
    exact .inr ⟨t, .fresh, hsh, hfresh t⟩
  | @callback ph w w' env cb r _ hallows _ he ih =>
    rcases ih with hnone | ⟨t, s, hsh, hJ⟩
    · refine .inl ?_
      cases cb with
      | abort =>
        simp only [World.step, World.main, Option.bind_some, Ending.finish, mlfiAbort, hnone,
          mlfiCleanup, Option.map_some] at he
        cases he
        rfl
      | _ =>
        simp [World.step, World.main, mlfiEnvfrom, mlfiEnvrcpt, mlfiHeader, mlfiBody, mlfiEom,
          hnone] at he
    · have ha := step_agree env hsh cb
      rw [he] at ha
      cases hst : s.step cfg t env cb with
      | none => rw [hst] at ha; exact ha.elim
      | some x =>
        obtain ⟨reply, s'⟩ := x
        rw [hst] at ha
        obtain ⟨rfl, hsh'⟩ := ha
        cases s' with
        | none => exact .inl hsh'
        | some s' => exact .inr ⟨t, s', hsh', hstep hallows hJ hst⟩

/-- A connection keeps its session tidy. -/
theorem Connection.tidy {C : World → Env → Callback → Prop} (hh : cfg.Hosts m g) {ph : Phase}
    {w : World} (h : Connection C cfg ph w) :
    w.priv = none ∨ ∃ t s, w.Shows cfg t (some s) ∧ s.Tidy m ph :=
  h.session (J := fun _ ph s => s.Tidy m ph) (fun _ => .fresh m) fun _ hJ hst => hJ.step hh hst

end

end Messasy
