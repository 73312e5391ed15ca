import Messasy.Milter.Decision
import Messasy.Milter.Slots
import Messasy.Module.Archiver

/-!
# The end of a message across modules

`mlfi_eom` ends the modules one after another. Each module that has stored takes its entry off the
list, so the abort that follows a failure has nothing left to undo: with two modules a message can
be refused and stored. `FiledAt` is what a connection keeps of the slots up to there.
-/

namespace Messasy

open Lib

/-- When `mlfi_eom` returns the error action, no module has linked the message. -/
def AllOrNothing (cfg : Config) (w : World) : Prop :=
  ∀ env r w', w.step env .eom = some (r, w') → r = cfg.cfErroractionConv.sfsistat →
    w'.os.linked = []

/-- The message has matched addresses. -/
def World.Matched (w : World) : Prop :=
  ∃ priv list, w.priv = some priv ∧ (priv.view w.heap).mlfiAddrmatched = some list ∧ list ≠ []

/-- Each matched address fits the array that it is copied to. What follows on a longer one, which
is read past the array, is not defined. -/
def World.Fits (w : World) : Prop :=
  ∀ priv list, w.priv = some priv → (priv.view w.heap).mlfiAddrmatched = some list →
    ∀ a ∈ list, FitsMailaddr a

/-- The modules are archiving ones, each with its settings as the loader has checked them. -/
def Archiving (settings : Settings) (mods : List Module) : Prop :=
  ∀ m ∈ mods, ∃ config folder, findConfig m.mymodule settings.cfExtraconfig = some config ∧
    Archiver m config folder ∧ folder.Loaded

/-- `K` holds of each module's slot, with the module's folder settings. -/
def Slots.All (settings : Settings) (mods : List Module) (K : FolderConfig → Slot → Prop)
    (slots : Slots) : Prop :=
  ∀ m ∈ mods, ∃ config folder, findConfig m.mymodule settings.cfExtraconfig = some config ∧
    Archiver m config folder ∧ folder.Loaded ∧ K folder (slots m.mymodule)

/-- The slot is empty or holds the record of these save addresses. -/
def Slot.Ready (t : Nat) (saveaddr : List Str) (folder : FolderConfig) (slot : Slot) : Prop :=
  slot = .absent ∨ slot.Filed folder t saveaddr

theorem Archiver.unique {m m' : Module} {config : ModuleConfig} {folder folder' : FolderConfig}
    (h : Archiver m config folder) (h' : Archiver m' config folder') :
    m' = m ∧ folder' = folder := by
  cases h <;> cases h' <;> exact ⟨rfl, rfl⟩

/-! ## A module's hooks -/

section
variable {m : Module} {config : ModuleConfig} {folder : FolderConfig}
  (ha : Archiver m config folder) {env : Env} {view : View} {saveaddr : List Str}
  {slot slot' : Slot} {os os' : Os} {r : Int}
include ha

/-- A hook of the header or the body that succeeds leaves a record of the addresses. -/
theorem Archiver.call_filed
    (hconf : findConfig m.mymodule view.config.cfExtraconfig = some config)
    (hview : view.mlfiAddrmatched = some saveaddr) {c : HookCall} (hc : c ≠ .eom ∧ c ≠ .abort)
    (h : slot.Ready view.mlfiRecvtime saveaddr folder)
    (hcall : m.slotCall env view c slot os = some (0, slot', os')) :
    slot'.Filed folder view.mlfiRecvtime saveaddr := by
  have hwriting : ∀ {write : Md → Os → Rc × Md × Os}, (∀ md os, (write md os).2.1.core = md.core) →
      m.slotWriting env view write slot os = some (0, slot', os') →
      slot'.Filed folder view.mlfiRecvtime saveaddr := by
    intro write hcore hw
    obtain ⟨⟨x, os1⟩, hrec, hx⟩ := Option.map_eq_some_iff.1 hw
    cases x with
    | none => cases hx
    | some md =>
      have hmd : md.Filed folder view.mlfiRecvtime saveaddr := by
        cases slot with
        | absent =>
          simp only [Module.slotRecord, hconf, Option.bind_some] at hrec
          exact ha.open_filed hview hrec
        | spooling md0 =>
          cases hrec
          exact h.resolve_left (by simp)
        | dangling => cases hrec
      have hslot : Slot.spooling (write md os1).2.1 = slot' := congrArg (·.2.1) hx
      rw [← hslot]
      exact hmd.congr (hcore md os1)
  cases c with
  | header f v => exact hwriting (fun md os => (writeHeader_kept env md f v os).core) hcall
  | body b => exact hwriting (fun md os => (writeBody_kept env md b os).core) hcall
  | eom => exact absurd rfl hc.1
  | abort => exact absurd rfl hc.2

/-- The hook at the end makes a link only when it succeeds, for addresses that fit. -/
theorem Archiver.eom_links {t : Nat} (h : slot.Ready t saveaddr folder)
    (hcall : m.slotCall env view .eom slot os = some (r, slot', os')) :
    os'.links = os.links ∨ r = 0 ∧ saveaddr ≠ [] ∧ ∀ a ∈ saveaddr, FitsMailaddr a := by
  cases slot with
  | absent =>
    cases hcall
    exact .inl rfl
  | spooling md =>
    have hmd : md.Filed folder t saveaddr := h.resolve_left (by simp)
    obtain ⟨⟨rc, md1, os1⟩, hclose, hx⟩ := Option.map_eq_some_iff.1 hcall
    rcases ha.close_links hmd hclose with hl | ⟨rfl, hfit⟩
    · refine .inl ?_
      dsimp only at hx
      split at hx <;> cases hx <;> exact hl
    · cases hx
      exact .inr ⟨rfl, hfit⟩
  | dangling => cases hcall

end

/-! ## All modules -/

section
variable {settings : Settings} {m : Module} {mods : List Module}
  {K P Q : FolderConfig → Slot → Prop} {t : Nat} {env : Env} {view : View} {c : HookCall}
  {saveaddr : List Str} {slots slots' : Slots}
  {os os' : Os} {n : Int}

theorem Archiving.all (h : Archiving settings mods)
    (hK : ∀ m ∈ mods, ∀ folder, K folder (slots m.mymodule)) : slots.All settings mods K := by
  intro m hm
  obtain ⟨config, folder, hconf, ha, hf⟩ := h m hm
  exact ⟨config, folder, hconf, ha, hf, hK m hm folder⟩

theorem Slots.All.tail (h : slots.All settings (m :: mods) K) : slots.All settings mods K :=
  fun m' hm => h m' (List.mem_cons_of_mem m hm)

theorem Slots.All.mono (h : slots.All settings mods P)
    (hPQ : ∀ folder slot, P folder slot → Q folder slot) : slots.All settings mods Q := by
  intro m hm
  obtain ⟨config, folder, hconf, ha, hf, hP⟩ := h m hm
  exact ⟨config, folder, hconf, ha, hf, hPQ folder _ hP⟩

theorem Slots.All.update (h : slots.All settings mods K) (name : Str) (slot : Slot)
    (hK : ∀ folder, K folder slot) : All settings mods K (Function.update slots name slot) := by
  intro m hm
  obtain ⟨config, folder, hconf, ha, hf, hm⟩ := h m hm
  refine ⟨config, folder, hconf, ha, hf, ?_⟩
  by_cases hn : m.mymodule = name
  · subst hn
    rw [Function.update_self]
    exact hK folder
  · rw [Function.update_of_ne hn]
    exact hm

/-! ### Before the end -/

/-- The hooks before the end make no link. -/
theorem Slots.All.pass_links (h : slots.All settings mods K) (hc : c ≠ .eom)
    (hx : execSlots env view c mods slots os = some (n, slots', os')) : os'.links = os.links := by
  refine execSlots_inv (I := fun _ os1 => os1.links = os.links) ?_ hx rfl
  intro m hm slots os r slot os' hI hcall
  obtain ⟨config, folder, -, ha, -⟩ := h m hm
  exact (Module.slotCall_links ha.opensQuietly hc hcall).trans hI

/-! ### The end -/

/-- With no entry left the pass does nothing. -/
theorem execSlots_eom_absent (habs : ∀ m ∈ mods, slots m.mymodule = .absent) (env : Env)
    (view : View) (os : Os) :
    ∃ slots', execSlots env view .eom mods slots os = some (0, slots', os) := by
  induction mods generalizing slots with
  | nil => exact ⟨slots, rfl⟩
  | cons m mods ih =>
    have hm := habs m List.mem_cons_self
    have hsame : Function.update slots m.mymodule .absent = slots := by
      rw [← hm]
      exact Function.update_eq_self _ _
    obtain ⟨slots', hx⟩ := ih fun m hm => habs m (List.mem_cons_of_mem _ hm)
    refine ⟨slots', ?_⟩
    simp only [execSlots, hm, Module.slotCall, Module.slotEom, Option.bind_some, if_true, hsame]
    exact hx

/-- **Nothing to store.** Without addresses no link is made. -/
theorem Slots.All.eom_unmatched (h : slots.All settings mods (Slot.Ready t []))
    (hx : execSlots env view .eom mods slots os = some (n, slots', os')) :
    os'.links = os.links := by
  induction mods generalizing slots os with
  | nil =>
    cases hx
    rfl
  | cons m mods ih =>
    obtain ⟨config, folder, -, ha, -, hready⟩ := h m List.mem_cons_self
    obtain ⟨r, slot, os1, hcall, hrest⟩ := execSlots_cons hx
    have hl : os1.links = os.links :=
      (ha.eom_links hready hcall).resolve_right fun hstored => hstored.2.1 rfl
    rcases hrest with ⟨rfl, hx⟩ | ⟨-, -, -, rfl⟩
    · obtain rfl := m.slotEom_zero hcall
      exact (ih (h.tail.update _ _ fun _ => .inl rfl) hx).trans hl
    · exact hl

/-- **One module.** When the pass over a single module fails, no link has been made. -/
theorem Slots.All.eom_single (h : slots.All settings mods (Slot.Ready t saveaddr))
    (hone : ∀ m ∈ mods, ∀ m' ∈ mods, m.mymodule = m'.mymodule)
    (hx : execSlots env view .eom mods slots os = some (n, slots', os')) (hn : n ≠ 0) :
    os'.links = os.links := by
  cases mods with
  | nil =>
    cases hx
    exact absurd rfl hn
  | cons m mods =>
    obtain ⟨config, folder, -, ha, -, hready⟩ := h m List.mem_cons_self
    obtain ⟨r, slot, os1, hcall, hrest⟩ := execSlots_cons hx
    rcases hrest with ⟨rfl, hx⟩ | ⟨hr, -, -, rfl⟩
    · -- the first one has left the slot empty, so the others return 0
      obtain rfl := m.slotEom_zero hcall
      have habs : ∀ m' ∈ mods, Function.update slots m.mymodule .absent m'.mymodule = .absent := by
        intro m' hm'
        rw [hone m' (List.mem_cons_of_mem _ hm') m List.mem_cons_self, Function.update_self]
      obtain ⟨slots1, hrest⟩ := execSlots_eom_absent habs env view os1
      rw [hrest] at hx
      cases hx
      exact absurd rfl hn
    · exact (ha.eom_links hready hcall).resolve_right fun hstored => hr hstored.1

/-- **Behind the loss** of the files the pass fails at the first record. -/
theorem Slots.All.eom_fails {last : Nat} (hview : view.config = settings)
    (h : slots.All settings mods (Slot.Ready t saveaddr))
    (hex : ∃ m ∈ mods, slots m.mymodule ≠ .absent) (hos : last ≤ os.clock) :
    ∃ n slots' os', execSlots (.losing last) view .eom mods slots os = some (n, slots', os') ∧
      n ≠ 0 ∧ os'.links = os.links := by
  induction mods generalizing slots with
  | nil =>
    obtain ⟨m, hm, -⟩ := hex
    cases hm
  | cons m mods ih =>
    obtain ⟨config, folder, hconf, ha, -, hready⟩ := h m List.mem_cons_self
    rcases hs : slots m.mymodule with _ | md | _
    · have hsame : Function.update slots m.mymodule .absent = slots := by
        rw [← hs]
        exact Function.update_eq_self _ _
      obtain ⟨m', hm', hne⟩ := hex
      have hm' : m' ∈ mods := by
        rcases List.mem_cons.1 hm' with rfl | hm'
        · exact absurd hs hne
        · exact hm'
      obtain ⟨n, slots', os', hx, hn, hl⟩ := ih h.tail ⟨m', hm', hne⟩
      refine ⟨n, slots', os', ?_, hn, hl⟩
      simp only [execSlots, hs, Module.slotCall, Module.slotEom, Option.bind_some, if_true, hsame]
      exact hx
    · rw [hs] at hready
      rw [← hview] at hconf
      have hmd : md.Filed folder t saveaddr := hready.resolve_left (by simp)
      obtain ⟨rc, md', os', hclose, hrc⟩ := ha.close_fails hconf md hos
      have hl : os'.links = os.links :=
        (ha.close_links hmd hclose).resolve_right fun hstored => hrc hstored.1
      refine ⟨-1, Function.update slots m.mymodule (.spooling md'), os', ?_, by decide, hl⟩
      simp only [execSlots, hs, Module.slotCall, Module.slotEom, hclose, Option.map_some,
        if_neg hrc, Option.bind_some]
      rfl
    · rw [hs] at hready
      exact absurd hready (by simp [Slot.Ready, Slot.Filed])

/-- No hook at the end leaves a dangling pointer. -/
theorem Module.slotEom_intact {slot slot' : Slot} {r : Int} (hs : slot ≠ .dangling)
    (h : m.slotCall env view .eom slot os = some (r, slot', os')) : slot' ≠ .dangling := by
  cases slot with
  | absent =>
    cases h
    simp
  | spooling md =>
    obtain ⟨⟨rc, md1, os1⟩, -, hx⟩ := Option.map_eq_some_iff.1 h
    dsimp only at hx
    split at hx <;> cases hx <;> simp
  | dangling => exact absurd rfl hs

/-- With addresses to save, what is filed is a record. -/
theorem Slot.Filed.spooling {folder : FolderConfig} {slot : Slot}
    (h : slot.Filed folder t saveaddr) (hne : saveaddr ≠ []) :
    ∃ md, slot = .spooling md ∧ md.Filed folder t saveaddr := by
  cases slot with
  | absent => exact absurd h hne
  | spooling md => exact ⟨md, rfl, h⟩
  | dangling => exact h.elim

/-- Of two modules of different names, one is behind the first module and has another name. -/
theorem exists_behind {m : Module}
    (h : ∃ m1 ∈ m :: mods, ∃ m2 ∈ m :: mods, m1.mymodule ≠ m2.mymodule) :
    ∃ m2 ∈ mods, m2.mymodule ≠ m.mymodule := by
  obtain ⟨m1, hm1, m2, hm2, hne⟩ := h
  rcases List.mem_cons.1 hm1 with rfl | hm1
  · rcases List.mem_cons.1 hm2 with rfl | hm2
    · exact absurd rfl hne
    · exact ⟨m2, hm2, hne.symm⟩
  · by_cases e : m1.mymodule = m.mymodule
    · rcases List.mem_cons.1 hm2 with rfl | hm2
      · exact absurd e hne
      · exact ⟨m2, hm2, fun e2 => hne (e.trans e2.symm)⟩
    · exact ⟨m1, hm1, e⟩

/-- **Two modules.** When the files are lost behind the first close, the pass fails with the links
of that close made. -/
theorem Slots.All.eom_split
    (h : slots.All settings mods fun folder slot => slot.Filed folder t saveaddr) (view : View)
    (hview : view.config = settings)
    (hmany : ∃ m ∈ mods, ∃ m' ∈ mods, m.mymodule ≠ m'.mymodule) (hne : saveaddr ≠ [])
    (hfit : ∀ a ∈ saveaddr, FitsMailaddr a) :
    ∃ last n slots' os', execSlots (.losing last) view .eom mods slots .start =
        some (n, slots', os') ∧ n ≠ 0 ∧ os'.linked ≠ [] ∧
      ∀ m ∈ mods, slots' m.mymodule ≠ .dangling := by
  cases mods with
  | nil =>
    obtain ⟨m, hm, -⟩ := hmany
    cases hm
  | cons m mods =>
    obtain ⟨config, folder, hconf, ha, hf, hm⟩ := h m List.mem_cons_self
    obtain ⟨md, hs, hmd⟩ := hm.spooling hne
    rw [← hview] at hconf
    obtain ⟨last, md', os1, hclose, hos, hlinked⟩ := ha.close_stores hconf hf hmd hne hfit .start
    obtain ⟨m2, hm2, hn2⟩ := exists_behind hmany
    have hex : ∃ m2 ∈ mods, Function.update slots m.mymodule .absent m2.mymodule ≠ .absent := by
      obtain ⟨config2, folder2, -, -, -, hf2⟩ := h m2 (List.mem_cons_of_mem _ hm2)
      obtain ⟨md2, hs2, -⟩ := hf2.spooling hne
      refine ⟨m2, hm2, ?_⟩
      rw [Function.update_of_ne hn2, hs2]
      simp
    have hready : Slots.All settings mods (Slot.Ready t saveaddr)
        (Function.update slots m.mymodule .absent) :=
      (h.tail.mono fun folder slot hf => .inr hf).update _ _ fun _ => .inl rfl
    obtain ⟨n, slots', os', hx, hn, hl⟩ := hready.eom_fails hview hex hos
    have hend : execSlots (.losing last) view .eom (m :: mods) slots .start =
        some (n, slots', os') := by
      simp only [execSlots, hs, Module.slotCall, Module.slotEom, hclose, Option.map_some, if_true,
        Option.bind_some]
      exact hx
    refine ⟨last, n, slots', os', hend, hn, ?_, fun m' hm' => ?_⟩
    · rw [Os.linked_congr hl]
      exact hlinked
    · obtain ⟨config', folder', -, -, -, hfiled⟩ := h m' hm'
      refine execSlots_slot (Q := fun slot => slot ≠ .dangling) ?_ hend ?_
      · intro m1 _ _ slot os r slot' os' hs hc
        exact m1.slotEom_intact hs hc
      · obtain ⟨md1, hs1, -⟩ := hfiled.spooling hne
        rw [hs1]
        simp

end

/-! ## The session up to the end -/

/-- The slot of a module of that name holds the record of these save addresses. -/
def FiledAt (settings : Settings) (t : Nat) (name : Str) (saveaddr : List Str) (slot : Slot) :
    Prop :=
  ∀ m config folder, m.mymodule = name → findConfig name settings.cfExtraconfig = some config →
    Archiver m config folder → slot.Filed folder t saveaddr

section
variable {settings : Settings} {mods : List Module} (hmods : Archiving settings mods) {t : Nat}
  {ph : Phase} {env : Env} {s s' : Session} {slots slots' : Slots} {os os' : Os} {n : Int}
include hmods

theorem filedAt_slotInv (t : Nat) : SlotInv settings mods t (FiledAt settings t) where
  absent _ _ _ _ _ _ _ _ := rfl
  call m hm env s c slot slot' os os' hc hready hcall := by
    intro m' config folder hn hconf ha
    obtain ⟨config', folder', hconf', ha', -⟩ := hmods m hm
    rw [hconf] at hconf'
    cases hconf'
    obtain ⟨rfl, rfl⟩ := ha.unique ha'
    have hview : (s.view (settings.loading mods) t).mlfiAddrmatched = some s.addrmatched := rfl
    refine ha.call_filed hconf hview hc ?_ hcall
    exact hready.imp_right fun h => h m config folder' hn hconf ha

/-- What the connection keeps, read at every module. -/
theorem Session.Holds.filed (h : s.Holds (FiledAt settings t) mods ph) :
    ∃ slots, Slotted slots s.extrapriv ∧
      slots.All settings mods fun folder slot => slot.Filed folder t s.addrmatched := by
  obtain ⟨slots, hown, hall, -⟩ := h.slots
  refine ⟨slots, hown, fun m hm => ?_⟩
  obtain ⟨config, folder, hconf, ha, hf⟩ := hmods m hm
  exact ⟨config, folder, hconf, ha, hf, hall m hm m config folder rfl hconf ha⟩

/-! ## The error action -/

/-- With one module, or without matched addresses, the error action means that nothing is linked. -/
theorem Session.Holds.nothing (h : s.Holds (FiledAt settings t) mods ph)
    (hok : (∀ m ∈ mods, ∀ m' ∈ mods, m.mymodule = m'.mymodule) ∨ s.addrmatched = [])
    {reply : Reply} {x : Option Session}
    (hst : s.step (settings.loading mods) t env .eom = some (reply, x))
    (hr : reply.stat = (settings.loading mods).cfErroractionConv.sfsistat) :
    linked reply.out = [] := by
  obtain ⟨slots, hown, hall⟩ := h.filed hmods
  have hready : slots.All settings mods (Slot.Ready t s.addrmatched) :=
    hall.mono fun folder slot hf => .inr hf
  generalize hcb : Callback.eom = cb at hst
  cases step_cases hst with
  | envfrom a => cases hcb
  | envrcpt a => cases hcb
  | passed hm hp => exact absurd hr.symm (ErrorAction.sfsistat_ne _)
  | @failed _ c s1 s2 n os _ _ hm hp hn ha =>
    subst hcb
    obtain ⟨rfl, rfl⟩ := hm
    obtain ⟨slots2, hx, hown2⟩ := pass_slots hown hp
    obtain ⟨⟨n3, s3, os3⟩, hp3, hreply⟩ := Option.map_eq_some_iff.1 ha
    obtain ⟨slots3, hx3, -⟩ := pass_slots hown2 hp3
    have hend : os.links = Os.start.links := by
      rcases hok with hone | hno
      · exact hready.eom_single hone hx hn
      · rw [hno] at hready
        exact hready.eom_unmatched hx
    have hany : slots2.All settings mods fun _ _ => True := hmods.all fun _ _ _ => trivial
    have habort : os3.links = os.links := hany.pass_links (by simp) hx3
    have hout : reply.out = os3.out := by
      dsimp only at hreply
      split at hreply <;> cases hreply <;> rfl
    rw [hout]
    exact Os.linked_congr (habort.trans hend)
  | gaveUp _ hr _ =>
    subst hcb
    rcases hr with ⟨hab, -⟩ | ⟨⟨f, v, hab⟩, -⟩ <;> cases hab

/-- With two modules and matched addresses that fit, files that are lost behind the first close make
a callback that refuses the message and has stored it. -/
theorem Session.Holds.something (h : s.Holds (FiledAt settings t) mods ph)
    (hmany : ∃ m ∈ mods, ∃ m' ∈ mods, m.mymodule ≠ m'.mymodule) (hne : s.addrmatched ≠ [])
    (hfit : ∀ a ∈ s.addrmatched, FitsMailaddr a) :
    ∃ env reply x, s.step (settings.loading mods) t env .eom = some (reply, x) ∧
      reply.stat = (settings.loading mods).cfErroractionConv.sfsistat ∧ linked reply.out ≠ [] := by
  obtain ⟨slots, hown, hall⟩ := h.filed hmods
  obtain ⟨last, n, slots2, os2, hx, hn, hlinked, hintact⟩ := hall.eom_split
    (s.view (settings.loading mods) t) rfl hmany hne hfit
  obtain ⟨list, hp, hown2⟩ := pass_of_slots hown hx
  -- the abort works from the entries that are left
  obtain ⟨slots3, os3, hx3⟩ := execSlots_aborts hintact (.losing last)
    (Session.view (settings.loading mods) t { s with extrapriv := list }) os2
  obtain ⟨list3, hp3, -⟩ := pass_of_slots (s := { s with extrapriv := list }) hown2 hx3
  have hany : slots2.All settings mods fun _ _ => True := hmods.all fun _ _ _ => trivial
  have hl3 : os3.links = os2.links := hany.pass_links (by simp) hx3
  refine ⟨.losing last, ⟨(settings.loading mods).cfErroractionConv.sfsistat, os3.out⟩,
    some (Session.ended { s with extrapriv := list3 }), ?_, rfl, ?_⟩
  · simp only [Session.step, passing, hp, Option.bind_some, if_neg hn, Session.aborted, hp3,
      Option.map_some, if_true, Option.getD_some]
  · show os3.linked ≠ []
    rw [Os.linked_congr hl3]
    exact hlinked

end

/-- The world's addresses are the session's. -/
theorem World.Shows.mlfiAddrmatched {cfg : Config} {t : Nat} {w : World} {s : Session}
    (h : w.Shows cfg t (some s)) : ∃ priv, w.priv = some priv ∧
      (priv.view w.heap).mlfiAddrmatched = some s.addrmatched := by
  obtain ⟨priv, R, A, hw, hp⟩ := h
  refine ⟨priv, hw, ?_⟩
  rw [hp.view_eq]
  rfl

theorem World.Shows.matched_iff {cfg : Config} {t : Nat} {w : World} {s : Session}
    (h : w.Shows cfg t (some s)) : w.Matched ↔ s.addrmatched ≠ [] := by
  obtain ⟨priv, hw, hview⟩ := h.mlfiAddrmatched
  constructor
  · rintro ⟨priv', list, hw', hlist, hne⟩
    obtain rfl : priv = priv' := Option.some.inj (hw.symm.trans hw')
    obtain rfl : s.addrmatched = list := Option.some.inj (hview.symm.trans hlist)
    exact hne
  · exact fun hne => ⟨priv, s.addrmatched, hw, hview, hne⟩

/-- On any connection with archiving modules loaded, the end of a message whose matched addresses
fit is all or nothing exactly when the loaded modules are one, or no address is matched. -/
theorem allOrNothing_iff {settings : Settings} {mods : List Module}
    (hmods : Archiving settings mods) {C : World → Env → Callback → Prop} {ph : Phase} {w : World}
    (hconn : Connection C (settings.loading mods) ph w) (hfit : w.Fits) :
    AllOrNothing (settings.loading mods) w ↔
      (∀ m ∈ mods, ∀ m' ∈ mods, m.mymodule = m'.mymodule) ∨ ¬ w.Matched := by
  rcases hconn.holds (filedAt_slotInv hmods) with hnone | ⟨t, s, hsh, hsession⟩
  · refine iff_of_true ?_ (.inr ?_)
    · intro env r w' he
      simp [World.step, World.main, mlfiEom, hnone] at he
    · rintro ⟨priv, list, hw, -⟩
      rw [hnone] at hw
      cases hw
  · rw [hsh.matched_iff]
    obtain ⟨priv, hw, hview⟩ := hsh.mlfiAddrmatched
    have hfit := hfit priv s.addrmatched hw hview
    constructor
    · intro hall
      by_contra hno
      simp only [not_or, not_not, not_forall, exists_prop] at hno
      obtain ⟨hmany, hne⟩ := hno
      obtain ⟨env, reply, x, hst, hr, hlinked⟩ := hsession.something hmods hmany hne hfit
      have hagree := step_agree env hsh .eom
      rw [hst] at hagree
      cases hw : w.step env .eom with
      | none =>
        rw [hw] at hagree
        exact hagree.elim
      | some y =>
        obtain ⟨r, w'⟩ := y
        rw [hw] at hagree
        obtain ⟨rfl, -⟩ := hagree
        exact hlinked (hall env r w' hw hr)
    · intro hok env r w' he hr
      have hagree := step_agree env hsh .eom
      rw [he] at hagree
      cases hst : s.step (settings.loading mods) t env .eom with
      | none =>
        rw [hst] at hagree
        exact hagree.elim
      | some y =>
        obtain ⟨reply, x⟩ := y
        rw [hst] at hagree
        obtain ⟨rfl, -⟩ := hagree
        exact hsession.nothing hmods (hok.imp_right not_not.1) hst hr

/-! ## maildrop and gzip -/

/-- The settings of maildrop and gzip, with `ErrorAction` set to `tempfail`. -/
def retrying : Settings :=
  { exampleConfig with
    cfErroractionConv := .tempfail
    cfExtraconfig := [⟨bytes "maildrop", .maildrop exampleFolder⟩,
      ⟨bytes "gzip", .gzip (bytes "/bin/gzip") exampleFolder⟩] }

theorem retrying_archiving {mods : List Module} (h : ∀ m ∈ mods, m = maildrop ∨ m = gzip) :
    Archiving retrying mods := by
  have hf : exampleFolder.Loaded := ⟨by decide, by decide, by decide⟩
  intro m hm
  rcases h m hm with rfl | rfl
  · exact ⟨_, exampleFolder, rfl, .maildrop exampleFolder, hf⟩
  · exact ⟨_, exampleFolder, rfl, .gzip (bytes "/bin/gzip") exampleFolder, hf⟩

/-- gzip alone: all or nothing, with an address to store. -/
theorem allOrNothing_iff_gzip : ∃ w,
    Connection (fun _ _ _ => True) (retrying.loading [gzip]) .header w ∧ w.Matched ∧
    AllOrNothing (retrying.loading [gzip]) w := by
  have h0 : Connection (fun _ _ _ => True) (retrying.loading [gzip]) .idle _ :=
    .connect (rfl : mlfiConnect (retrying.loading [gzip]) .fine .start = (.continue_, _))
  have h1 := h0.callback (by exact trivial) trivial
    (rfl : World.step _ .fine (.envfrom (bytes "<a@example.org>")) = some (.continue_, _))
  have h2 := h1.callback (by exact trivial) trivial
    (rfl : World.step _ .fine (.envrcpt (bytes "<b@example.com>")) = some (.continue_, _))
  have h3 := h2.callback (by exact trivial) trivial
    (rfl : World.step _ .fine (.header (bytes "Subject") (some (bytes "s"))) = some (.continue_, _))
  refine ⟨_, h3, ⟨_, [bytes "b@example.com"], rfl, rfl, List.cons_ne_nil _ _⟩, ?_⟩
  refine (allOrNothing_iff (retrying_archiving (by simp)) h3 ?_).2 (.inl (by simp))
  intro priv list hw hlist
  cases hw
  cases hlist
  decide

/-- maildrop has stored the message, then gzip's `fork` fails: the MTA is told to try again, and
the archive file stays. -/
theorem not_allOrNothing : ∃ w w',
    Connection (fun _ _ _ => True) (retrying.loading [maildrop, gzip]) .header w ∧
    w.step { Env.fine with fork := fun _ => false } .eom = some (.tempfail, w') ∧
    w'.os.linked =
      [bytes "/var/lib/messasy/maildrop/Maildir/.2024.01.02/new/0000000000.0000000007.mail"] ∧
    ¬ AllOrNothing (retrying.loading [maildrop, gzip]) w := by
  have h0 : Connection (fun _ _ _ => True) (retrying.loading [maildrop, gzip]) .idle _ :=
    .connect (rfl : mlfiConnect (retrying.loading [maildrop, gzip]) .fine .start = (.continue_, _))
  have h1 := h0.callback (by exact trivial) trivial
    (rfl : World.step _ .fine (.envfrom (bytes "<a@example.org>")) = some (.continue_, _))
  have h2 := h1.callback (by exact trivial) trivial
    (rfl : World.step _ .fine (.envrcpt (bytes "<b@example.com>")) = some (.continue_, _))
  have h3 := h2.callback (by exact trivial) trivial
    (rfl : World.step _ .fine (.header (bytes "Subject") (some (bytes "s"))) = some (.continue_, _))
  refine ⟨_, _, h3, (rfl : World.step _ { Env.fine with fork := fun _ => false } .eom =
    some (.tempfail, _)), rfl, fun h => ?_⟩
  have hnil := h { Env.fine with fork := fun _ => false } _ _ rfl rfl
  exact List.cons_ne_nil _ _ hnil

end Messasy
