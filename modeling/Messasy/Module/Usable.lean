import Messasy.Module.Maildrop
import Messasy.Module.Slot

/-!
# The maildrop module's entry

`HookRun C failed st`: the maildrop hooks have been called in some order on a session, with other
modules at work on the list in between, every call under the condition `C`; after a hook that
failed the next one is the abort hook. While every temporary file is made, the entry is usable
wherever the eom or the abort hook may read it.
-/

namespace Messasy

open Lib

def HookCall.hook : HookCall → Hook
  | .header f v => maildropExecHeader f v
  | .body b => maildropExecBody b
  | .eom => maildropExecEom
  | .abort => maildropExecAbort

/-- The calls that open the temporary file when the module has no entry. -/
def HookCall.Opens : HookCall → Prop
  | .header _ _ => True
  | .body _ => True
  | _ => False

inductive HookRun (C : Env → View → HookCall → HookSt → Prop) : Bool → HookSt → Prop
  | start {list : List Extrapriv} {os : Os} : entriesOf maildrop.mymodule list = [] →
      HookRun C false ⟨list, os⟩
  | call {failed : Bool} {st st' : HookSt} {env : Env} {view : View} {c : HookCall} {r : Int} :
      HookRun C failed st → (failed = true → c = .abort) → C env view c st →
      c.hook env view st = some (r, st') → HookRun C (r ≠ 0) st'
  | other {failed : Bool} {st : HookSt} {list : List Extrapriv} {os : Os} : HookRun C failed st →
      entriesOf maildrop.mymodule list = entriesOf maildrop.mymodule st.mlfiExtrapriv →
      HookRun C failed ⟨list, os⟩

/-- The fields that stay from the open to the end. -/
def Md.setup (md : Md) : Md := { md.core with mdTempfileFd := 0 }

/-- The record is one that a `maildrop_open` that succeeded has set. -/
def Opened (md : Md) : Prop :=
  ∃ env config view os md0 os', maildropOpen env config view os = some (some md0, os') ∧
    md.setup = md0.setup

/-- The entry, when there is one, points to a block that holds an opened record. -/
def Usable (st : HookSt) : Prop :=
  ∀ x, findPriv maildrop.mymodule st.mlfiExtrapriv = some x → ∃ md, x = .block md ∧ Opened md

/-- The `mkstemp` of the `maildrop_open` that this call makes, if it makes one, returns a
descriptor. -/
def FileMade (env : Env) (view : View) (c : HookCall) (st : HookSt) : Prop :=
  c.Opens → findPriv maildrop.mymodule st.mlfiExtrapriv = none → ∀ folder,
    findConfig maildrop.mymodule view.config.cfExtraconfig = some (.maildrop folder) →
    0 ≤ (env.mkstemp (mdMakemaildir env folder.cfMaildir st.os).clock).1

/-! ## The slot stays opened -/

/-- The slot is empty or holds an opened record. -/
def Slot.Sound : Slot → Prop
  | .absent => True
  | .spooling md => Opened md
  | .dangling => False

theorem setup_eq_of_core {md md' : Md} (h : md'.core = md.core) : md'.setup = md.setup := by
  unfold Md.setup
  rw [h]

theorem Opened.congr {md md' : Md} (h : Opened md) (he : md'.setup = md.setup) : Opened md' := by
  obtain ⟨env, config, view, os, md0, os', ho, hs⟩ := h
  exact ⟨env, config, view, os, md0, os', ho, he.trans hs⟩

theorem closeTempfile_setup (env : Env) (md : Md) (os : Os) :
    (closeTempfile env md os).1.setup = md.setup := by
  unfold closeTempfile
  by_cases hfd : 0 < md.mdTempfileFd
  · cases hcr : md.mdCr with
    | false => simp only [hfd, if_true, Bool.false_eq_true, if_false]; rfl
    | true =>
      have hw := setup_eq_of_core (md.write_kept env [CR] os).core
      simp only [hfd, if_true]
      exact hw
  · simp only [hfd, if_false]

theorem storeFile_md {env : Env} {md md' : Md} {content : Option Str} {filename : Str} {os os' : Os}
    {rc : Rc} (h : storeFile env md content filename os = some (rc, md', os')) : md' = md := by
  unfold storeFile at h
  split at h
  · cases h
  · split at h <;> cases h <;> rfl
  · cases h; rfl

theorem maildropClose_setup {env : Env} {config : Settings} {md md' : Md} {os os' : Os} {rc : Rc}
    (h : maildropClose env config md os = some (rc, md', os')) : md'.setup = md.setup := by
  have hc := closeTempfile_setup env md os
  unfold maildropClose at h
  rcases he : closeTempfile env md os with ⟨md1, os1⟩
  simp only [he] at h hc
  split at h
  · rw [storeFile_md h, hc]
  · cases h; exact hc

/-- `maildrop_open` gives no record only when its `mkstemp` fails. -/
theorem maildropOpen_none {env : Env} {config : ModuleConfig} {view : View} {os os' : Os}
    (h : maildropOpen env config view os = some (none, os')) :
    ∃ folder, config = .maildrop folder ∧
      (env.mkstemp (mdMakemaildir env folder.cfMaildir os).clock).1 < 0 := by
  cases config with
  | maildrop folder =>
    refine ⟨folder, rfl, ?_⟩
    unfold maildropOpen folderOpen at h
    dsimp only at h
    split at h
    · cases h
    · unfold mkstemp at h
      dsimp only at h
      split at h
      · rename_i hneg; exact hneg
      · cases h
  | _ => cases h

section
variable {env : Env} {view : View} {slot slot' : Slot} {os os' : Os} {r : Int}

theorem Slot.Sound.writing (hs : slot.Sound) {write : Md → Os → Rc × Md × Os}
    (hw : ∀ md os, Kept md (write md os).2.1 os (write md os).2.2)
    (hmade : slot = .absent → ∀ folder, findConfig maildrop.mymodule view.config.cfExtraconfig =
      some (.maildrop folder) →
      0 ≤ (env.mkstemp (mdMakemaildir env folder.cfMaildir os).clock).1)
    (h : maildrop.slotWriting env view write slot os = some (r, slot', os')) : slot'.Sound := by
  obtain ⟨⟨x, os1⟩, hrec, hx⟩ := Option.map_eq_some_iff.1 h
  have hopened : ∀ md, x = some md → Opened md := by
    rintro md rfl
    cases slot with
    | absent =>
      obtain ⟨config, -, ho⟩ := Option.bind_eq_some_iff.1 hrec
      exact ⟨env, config, view, os, md, os1, ho, rfl⟩
    | spooling md0 => cases hrec; exact hs
    | dangling => exact hs.elim
  cases x with
  | some md =>
    cases hx
    exact (hopened md rfl).congr (setup_eq_of_core (hw md os1).core)
  | none =>
    cases slot with
    | absent =>
      obtain ⟨config, hc, ho⟩ := Option.bind_eq_some_iff.1 hrec
      obtain ⟨folder, rfl, hneg⟩ := maildropOpen_none ho
      have := hmade rfl folder hc
      omega
    | spooling md0 => cases hrec
    | dangling => exact hs.elim

theorem Slot.Sound.eom (hs : slot.Sound)
    (h : maildrop.slotEom env view slot os = some (r, slot', os')) : slot'.Sound := by
  cases slot with
  | absent => cases h; trivial
  | spooling md =>
    obtain ⟨⟨rc, md1, os1⟩, hc, hx⟩ := Option.map_eq_some_iff.1 h
    cases rc with
    | success => cases hx; trivial
    | _ => cases hx; exact Opened.congr hs (maildropClose_setup hc)
  | dangling => exact hs.elim

theorem Slot.Sound.abort (h : Module.slotAbort slot os = some (r, slot', os')) : slot'.Sound := by
  cases slot <;> cases h <;> trivial

end

/-- **Step.** A hook call leaves a sound slot. -/
theorem Slot.Sound.call {slot : Slot} {st st' : HookSt} {env : Env} {view : View} {c : HookCall}
    {r : Int} (hs : slot.Sound) (hown : Own maildrop.mymodule slot st.mlfiExtrapriv)
    (hmade : FileMade env view c st) (h : c.hook env view st = some (r, st')) :
    ∃ slot' : Slot, slot'.Sound ∧ Own maildrop.mymodule slot' st'.mlfiExtrapriv := by
  have hlist : ∀ {res}, c.hook env view st = maildrop.onList st res →
      (∀ slot' os', res = some (r, slot', os') → slot'.Sound) →
      ∃ slot' : Slot, slot'.Sound ∧ Own maildrop.mymodule slot' st'.mlfiExtrapriv := by
    intro res hres hsound
    rw [hres] at h
    obtain ⟨⟨n, slot', os'⟩, hx, hst⟩ := Option.map_eq_some_iff.1 h
    cases hst
    exact ⟨slot', hsound slot' os' hx, hown.place slot'⟩
  have hfile : c.Opens → slot = .absent → ∀ folder,
      findConfig maildrop.mymodule view.config.cfExtraconfig = some (.maildrop folder) →
      0 ≤ (env.mkstemp (mdMakemaildir env folder.cfMaildir st.os).clock).1 := by
    rintro hopens rfl
    exact hmade hopens (by rw [hown.find]; rfl)
  cases c with
  | header f v =>
    exact hlist (Module.execHeader_eq env view hown f v) fun _ _ hx =>
      hs.writing (fun md os => writeHeader_kept env md f v os) (hfile trivial) hx
  | body b =>
    exact hlist (Module.execBody_eq env view hown b) fun _ _ hx =>
      hs.writing (fun md os => writeBody_kept env md b os) (hfile trivial) hx
  | eom => exact hlist (Module.execEom_eq env view hown) fun _ _ hx => hs.eom hx
  | abort => exact hlist (Module.execAbort_eq env view hown) fun _ _ hx => Slot.Sound.abort hx

/-- **Run.** -/
theorem HookRun.sound {failed : Bool} {st : HookSt} (h : HookRun FileMade failed st) :
    ∃ slot : Slot, slot.Sound ∧ Own maildrop.mymodule slot st.mlfiExtrapriv := by
  induction h with
  | start he => exact ⟨.absent, trivial, he⟩
  | call _ _ hmade hc ih =>
    obtain ⟨slot, hs, hown⟩ := ih
    exact hs.call hown hmade hc
  | other _ he ih =>
    obtain ⟨slot, hs, hown⟩ := ih
    exact ⟨slot, hs, he.trans hown⟩

/-- While every temporary file is made, the entry is usable in every state of every run. -/
theorem maildrop_usable {failed : Bool} {st : HookSt} (h : HookRun FileMade failed st) :
    Usable st := by
  obtain ⟨slot, hs, hown⟩ := h.sound
  intro x hx
  rw [hown.find] at hx
  cases slot with
  | absent => cases hx
  | spooling md => cases hx; exact ⟨md, rfl, hs⟩
  | dangling => exact hs.elim

/-! ## A file that is not made -/

/-- The session of a message to one address, with the maildrop settings of the example. -/
def exampleView : View where
  config := { exampleConfig with
    cfExtraconfig := [⟨bytes "maildrop", .maildrop exampleFolder⟩] }
  mlfiRecvtime := 0
  mlfiEnvfrom := some (bytes "a@example.com")
  mlfiRcptto := some [bytes "b@example.com"]
  mlfiAddrmatched := some [bytes "b@example.com"]

/-- A header and a body chunk, then the end of the message. -/
theorem maildrop_usable_two : ∃ st, HookRun FileMade false st ∧ Usable st ∧
    findPriv maildrop.mymodule st.mlfiExtrapriv ≠ none := by
  have hmade : ∀ c st, FileMade .fine exampleView c st := fun _ _ _ _ _ _ =>
    show (0 : Int) ≤ 3 by decide
  have h0 : HookRun FileMade false ⟨[], .start⟩ := .start rfl
  have h1 := h0.call (by simp) (hmade (.header (bytes "a") (some (bytes "b"))) _)
    (rfl : HookCall.hook (.header (bytes "a") (some (bytes "b"))) .fine exampleView _ = some (0, _))
  have h2 := h1.call (by simp) (hmade (.body (bytes "c")) _)
    (rfl : HookCall.hook (.body (bytes "c")) .fine exampleView _ = some (0, _))
  exact ⟨_, h2, maildrop_usable h2, by decide⟩

/-- When `mkstemp` fails in the header hook, the abort hook that the core calls next finds the
pointer to the freed block. -/
theorem maildrop_dangling : ∃ st, HookRun (fun _ _ _ _ => True) true st ∧ ¬ Usable st ∧
    maildropExecAbort .fine exampleView st = none := by
  have h0 : HookRun (fun _ _ _ _ => True) false ⟨[], .start⟩ := .start rfl
  have h1 := h0.call (by simp) trivial
    (rfl : HookCall.hook (.header (bytes "a") (some (bytes "b")))
      { Env.fine with mkstemp := fun _ => (-1, []) } exampleView _ = some (-1, _))
  refine ⟨_, h1, fun h => ?_, rfl⟩
  obtain ⟨md, hx, -⟩ := h .freed rfl
  cases hx

end Messasy
