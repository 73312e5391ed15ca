import Messasy.Module.Hooks

/-!
# A module's slot

What a module keeps between its hooks, without the list: nothing, a record, or the pointer to a
freed block that a failed open leaves. `Own n slot list` reads it off the private list. Each hook
acts on its own slot as the functions `slot*` say (`Module.execHeader_eq` and its siblings) and
leaves the other modules' entries alone (`entriesOf_place_of_ne`).
-/

namespace Messasy

open Lib

inductive Slot
  | absent
  | spooling (md : Md)
  | dangling
  deriving DecidableEq

/-- The private pointer of the entry, when there is one. -/
def Slot.priv : Slot → Option Modpriv
  | .absent => none
  | .spooling md => some (.block md)
  | .dangling => some .freed

/-- The module has at most one entry, with the slot's pointer. -/
def Own (n : Str) (slot : Slot) (list : List Extrapriv) : Prop :=
  entriesOf n list = slot.priv.toList.map (⟨n, ·⟩)

/-- The list with another slot. -/
def place (n : Str) (slot : Slot) (list : List Extrapriv) : List Extrapriv :=
  match slot.priv with
  | none => removePriv n list
  | some x => setPriv n x (getPriv n list)

section
variable {n : Str} {slot : Slot} {list : List Extrapriv}

theorem Own.find (h : Own n slot list) : findPriv n list = slot.priv := by
  rw [findPriv_eq, h]
  cases slot <;> rfl

theorem Own.place (h : Own n slot list) (slot' : Slot) : Own n slot' (place n slot' list) := by
  unfold Own at *
  cases slot' <;> cases slot <;>
    simp [Messasy.place, Slot.priv, entriesOf_removePriv, entriesOf_setPriv, entriesOf_getPriv, h]

theorem entriesOf_place_of_ne {m : Str} (h : m ≠ n) (slot : Slot) (list : List Extrapriv) :
    entriesOf m (place n slot list) = entriesOf m list := by
  unfold place
  cases slot.priv with
  | none => exact entriesOf_removePriv_of_ne h list
  | some x => exact (entriesOf_setPriv_of_ne h _).trans (entriesOf_getPriv_of_ne h list)

theorem Own.nil (n : Str) : Own n .absent [] := rfl

/-- With no entry at all the list is empty. -/
theorem eq_nil_of_own (h : ∀ n, Own n .absent list) : list = [] := by
  cases list with
  | nil => rfl
  | cons p list => exact absurd (h p.expvModulename) (by simp [Own, entriesOf, Slot.priv])

theorem setPriv_setPriv (n : Str) (x y : Modpriv) (list : List Extrapriv) :
    setPriv n y (setPriv n x list) = setPriv n y list := by
  induction list with
  | nil => rfl
  | cons p list ih => by_cases hp : p.expvModulename = n <;> simp [setPriv, hp, ih]

theorem getPriv_of_find {x : Modpriv} (h : findPriv n list = some x) : getPriv n list = list := by
  induction list with
  | nil => cases h
  | cons p list ih =>
    by_cases hp : p.expvModulename = n
    · simp [getPriv, hp]
    · simp only [findPriv, hp, if_false] at h
      simp [getPriv, hp, ih h]

theorem removePriv_of_find (h : findPriv n list = none) : removePriv n list = list := by
  induction list with
  | nil => rfl
  | cons p list ih =>
    by_cases hp : p.expvModulename = n
    · simp [findPriv, hp] at h
    · simp only [findPriv, hp, if_false] at h
      simp [removePriv, hp, ih h]

end

/-! ## The hooks on slots -/

namespace Module

variable (m : Module) (env : Env) (view : View)

/-- The record at the start of `*_exec_header` and `*_exec_body`. -/
def slotRecord : Slot → Os → Option (Option Md × Os)
  | .absent, os => (findConfig m.mymodule view.config.cfExtraconfig).bind fun config =>
      m.open_ env config view os
  | .spooling md, os => some (some md, os)
  | .dangling, _ => none

def slotWriting (write : Md → Os → Rc × Md × Os) (slot : Slot) (os : Os) :
    Option (Int × Slot × Os) :=
  (m.slotRecord env view slot os).map fun
    | (none, os) => (-1, .dangling, os)
    | (some md, os) =>
      (if (write md os).1 = .success then 0 else -1, .spooling (write md os).2.1, (write md os).2.2)

def slotEom : Slot → Os → Option (Int × Slot × Os)
  | .absent, os => some (0, .absent, os)
  | .spooling md, os => (m.close env view.config md os).map fun (rc, md, os) =>
      if rc = .success then (0, .absent, os) else (-1, .spooling md, os)
  | .dangling, _ => none

omit m in
def slotAbort : Slot → Os → Option (Int × Slot × Os)
  | .absent, os => some (0, .absent, os)
  | .spooling md, os => some (0, .absent, abortTempfile md os)
  | .dangling, _ => none

/-- The hook for a call, on the slot. -/
def slotCall : HookCall → Slot → Os → Option (Int × Slot × Os)
  | .header f v => m.slotWriting env view fun md os => writeHeader env md f v os
  | .body b => m.slotWriting env view fun md os => writeBody env md b os
  | .eom => m.slotEom env view
  | .abort => slotAbort

/-- What a hook does to the list when it does this to the slot. -/
def onList (st : HookSt) (r : Option (Int × Slot × Os)) : Option (Int × HookSt) :=
  r.map fun (r, slot, os) => (r, ⟨place m.mymodule slot st.mlfiExtrapriv, os⟩)

variable {m} {st : HookSt} {slot : Slot} (h : Own m.mymodule slot st.mlfiExtrapriv)
include h

theorem writing_eq (write : Md → Os → Rc × Md × Os) :
    m.writing write env view st = m.onList st (m.slotWriting env view write slot st.os) := by
  have hset : ∀ x y, setPriv m.mymodule y (setPriv m.mymodule x
      (getPriv m.mymodule st.mlfiExtrapriv)) =
      setPriv m.mymodule y (getPriv m.mymodule st.mlfiExtrapriv) :=
    fun x y => setPriv_setPriv _ x y _
  have hfind := h.find
  cases slot with
  | absent =>
    have hnull : findPriv m.mymodule (getPriv m.mymodule st.mlfiExtrapriv) = some .null := by
      rw [findPriv_eq, entriesOf_getPriv, if_pos (by rw [h]; rfl)]
      rfl
    unfold writing record
    simp only [hnull]
    cases hc : findConfig m.mymodule view.config.cfExtraconfig with
    | none => simp [slotWriting, slotRecord, onList, hc]
    | some config =>
      rcases ho : m.open_ env config view st.os with _ | ⟨_ | md, os⟩ <;>
        simp [slotWriting, slotRecord, onList, hc, ho, place, Slot.priv, hset]
  | spooling md =>
    have hg := getPriv_of_find hfind
    unfold writing record
    simp only [hg, hfind, Slot.priv]
    simp [slotWriting, slotRecord, onList, place, Slot.priv, hg]
  | dangling =>
    have hg := getPriv_of_find hfind
    unfold writing record
    simp only [hg, hfind, Slot.priv]
    rfl

/-- `*_exec_header` on the slot. -/
theorem execHeader_eq (headerf : Str) (headerv : Option Str) :
    m.execHeader headerf headerv env view st = m.onList st (m.slotWriting env view
      (fun md os => writeHeader env md headerf headerv os) slot st.os) :=
  writing_eq env view h _

/-- `*_exec_body` on the slot. -/
theorem execBody_eq (bodyp : Str) :
    m.execBody bodyp env view st = m.onList st (m.slotWriting env view
      (fun md os => writeBody env md bodyp os) slot st.os) :=
  writing_eq env view h _

/-- `*_exec_eom` on the slot. -/
theorem execEom_eq : m.execEom env view st = m.onList st (m.slotEom env view slot st.os) := by
  have hfind := h.find
  unfold execEom
  simp only [hfind]
  cases slot with
  | absent => simp [slotEom, onList, place, Slot.priv, removePriv_of_find hfind]
  | spooling md =>
    have hg := getPriv_of_find hfind
    rcases hc : m.close env view.config md st.os with _ | ⟨rc, md', os⟩
    · simp [slotEom, onList, Slot.priv, hc]
    · cases rc <;> simp [slotEom, onList, place, Slot.priv, hc, hg]
  | dangling => rfl

/-- `*_exec_abort` on the slot. -/
theorem execAbort_eq : m.execAbort env view st = m.onList st (slotAbort slot st.os) := by
  have hfind := h.find
  unfold execAbort
  simp only [hfind]
  cases slot with
  | absent => simp [slotAbort, onList, place, Slot.priv, removePriv_of_find hfind]
  | spooling md => rfl
  | dangling => rfl

/-- **A hook on the slot.** -/
theorem call_eq (c : HookCall) :
    m.call c env view st = m.onList st (m.slotCall env view c slot st.os) := by
  cases c with
  | header f v => exact execHeader_eq env view h f v
  | body b => exact execBody_eq env view h b
  | eom => exact execEom_eq env view h
  | abort => exact execAbort_eq env view h

end Module

/-! ## The other modules' entries -/

/-- The hook does not change what `f` reads. -/
def Keeps {α : Type} (f : HookSt → α) (hook : Hook) : Prop :=
  ∀ env view st r st', hook env view st = some (r, st') → f st' = f st

section
variable {m : Module} {n : Str} (h : n ≠ m.mymodule)
include h

theorem Module.record_keeps {env : Env} {view : View} {st st' : HookSt} {x : Option Md}
    (hr : m.record env view st = some (x, st')) :
    entriesOf n st'.mlfiExtrapriv = entriesOf n st.mlfiExtrapriv := by
  have hget := entriesOf_getPriv_of_ne h st.mlfiExtrapriv
  have hset : ∀ x, entriesOf n (setPriv m.mymodule x (getPriv m.mymodule st.mlfiExtrapriv)) =
      entriesOf n st.mlfiExtrapriv := fun x => (entriesOf_setPriv_of_ne h _).trans hget
  unfold Module.record at hr
  dsimp only at hr
  split at hr
  · split at hr
    · cases hr
    · split at hr
      · cases hr
      · cases hr; exact hset _
      · cases hr; exact hset _
  · cases hr; exact hget
  · cases hr

theorem Module.writing_keeps {write : Md → Os → Rc × Md × Os} {env : Env} {view : View}
    {st st' : HookSt} {r : Int} (hr : m.writing write env view st = some (r, st')) :
    entriesOf n st'.mlfiExtrapriv = entriesOf n st.mlfiExtrapriv := by
  unfold Module.writing at hr
  split at hr
  · cases hr
  · rename_i heq
    cases hr
    exact m.record_keeps h heq
  · rename_i md st1 heq
    cases hr
    exact (entriesOf_setPriv_of_ne h _).trans (m.record_keeps h heq)

/-- **Frame.** A module's hook leaves the other modules' entries alone. -/
theorem Module.call_keeps (c : HookCall) :
    Keeps (fun st => entriesOf n st.mlfiExtrapriv) (m.call c) := by
  intro env view st r st' hr
  cases c with
  | header f v =>
    simp only [Module.call, Module.execHeader] at hr
    exact m.writing_keeps h hr
  | body b =>
    simp only [Module.call, Module.execBody] at hr
    exact m.writing_keeps h hr
  | eom =>
    simp only [Module.call, Module.execEom] at hr
    split at hr
    · cases hr; rfl
    · split at hr
      · cases hr
      · cases hr; exact entriesOf_removePriv_of_ne h _
      · cases hr; exact entriesOf_setPriv_of_ne h _
    · cases hr
  | abort =>
    simp only [Module.call, Module.execAbort] at hr
    split at hr
    · cases hr; rfl
    · cases hr; exact entriesOf_removePriv_of_ne h _
    · cases hr

end

end Messasy
