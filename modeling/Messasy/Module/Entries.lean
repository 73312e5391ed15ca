import Messasy.Module.Spool

/-!
# The private list of a session

`mlfi_extrapriv`: each module finds its entry by name, appends one when it has none, and takes it
off at the end of the message.
-/

namespace Messasy

open Lib

/-- What `expv_modulepriv` points to: nothing yet, a private block whose `mypriv` is a record, or a
block that has been freed. -/
inductive Modpriv
  | null
  | block (mypriv : Md)
  | freed
  deriving DecidableEq

/-- `struct extrapriv`; the list is a list of entries. -/
structure Extrapriv where
  expvModulename : Str
  expvModulepriv : Modpriv
  deriving DecidableEq

/-- The private pointer of the first entry with the name. -/
def findPriv (mymodule : Str) : List Extrapriv → Option Modpriv
  | [] => none
  | p :: list =>
    if p.expvModulename = mymodule then some p.expvModulepriv else findPriv mymodule list

/-- `*_get_priv`: an entry is appended when there is none. -/
def getPriv (mymodule : Str) : List Extrapriv → List Extrapriv
  | [] => [⟨mymodule, .null⟩]
  | p :: list => if p.expvModulename = mymodule then p :: list else p :: getPriv mymodule list

/-- Store a private pointer in the module's entry. -/
def setPriv (mymodule : Str) (x : Modpriv) : List Extrapriv → List Extrapriv
  | [] => []
  | p :: list =>
    if p.expvModulename = mymodule then ⟨p.expvModulename, x⟩ :: list
    else p :: setPriv mymodule x list

/-- Take the module's entry off the list; `*_priv_free` releases it. -/
def removePriv (mymodule : Str) : List Extrapriv → List Extrapriv
  | [] => []
  | p :: list => if p.expvModulename = mymodule then list else p :: removePriv mymodule list

/-- The entries of one module. -/
def entriesOf (mymodule : Str) (list : List Extrapriv) : List Extrapriv :=
  list.filter fun p => p.expvModulename = mymodule

section
variable {m n : Str} {x : Modpriv}

theorem findPriv_eq (n : Str) (list : List Extrapriv) :
    findPriv n list = (entriesOf n list).head?.map (·.expvModulepriv) := by
  induction list with
  | nil => rfl
  | cons p list ih =>
    by_cases hp : p.expvModulename = n
    · simp [findPriv, entriesOf, hp]
    · simpa [findPriv, entriesOf, hp] using ih

/-! ### Behind other modules' entries -/

section
variable {pre : List Extrapriv} (h : ∀ p ∈ pre, p.expvModulename ≠ n) (list : List Extrapriv)
include h

theorem findPriv_append : findPriv n (pre ++ list) = findPriv n list := by
  induction pre with
  | nil => rfl
  | cons p pre ih =>
    rw [List.cons_append, findPriv, if_neg (h p List.mem_cons_self)]
    exact ih fun q hq => h q (List.mem_cons_of_mem p hq)

theorem getPriv_append : getPriv n (pre ++ list) = pre ++ getPriv n list := by
  induction pre with
  | nil => rfl
  | cons p pre ih =>
    rw [List.cons_append, getPriv, if_neg (h p List.mem_cons_self),
      ih fun q hq => h q (List.mem_cons_of_mem p hq), List.cons_append]

theorem setPriv_append (x : Modpriv) : setPriv n x (pre ++ list) = pre ++ setPriv n x list := by
  induction pre with
  | nil => rfl
  | cons p pre ih =>
    rw [List.cons_append, setPriv, if_neg (h p List.mem_cons_self),
      ih fun q hq => h q (List.mem_cons_of_mem p hq), List.cons_append]

theorem removePriv_append : removePriv n (pre ++ list) = pre ++ removePriv n list := by
  induction pre with
  | nil => rfl
  | cons p pre ih =>
    rw [List.cons_append, removePriv, if_neg (h p List.mem_cons_self),
      ih fun q hq => h q (List.mem_cons_of_mem p hq), List.cons_append]

end

/-! ### The module's own entries -/

theorem entriesOf_getPriv (n : Str) (list : List Extrapriv) :
    entriesOf n (getPriv n list) =
      if entriesOf n list = [] then [⟨n, .null⟩] else entriesOf n list := by
  induction list with
  | nil => simp [getPriv, entriesOf]
  | cons p list ih =>
    by_cases hp : p.expvModulename = n
    · simp [getPriv, entriesOf, hp]
    · simpa [getPriv, entriesOf, hp] using ih

theorem entriesOf_setPriv (n : Str) (x : Modpriv) (list : List Extrapriv) :
    entriesOf n (setPriv n x list) =
      match entriesOf n list with
      | [] => []
      | _ :: l => ⟨n, x⟩ :: l := by
  induction list with
  | nil => rfl
  | cons p list ih =>
    by_cases hp : p.expvModulename = n
    · simp [setPriv, entriesOf, hp]
    · simpa [setPriv, entriesOf, hp] using ih

theorem entriesOf_removePriv (n : Str) (list : List Extrapriv) :
    entriesOf n (removePriv n list) = (entriesOf n list).tail := by
  induction list with
  | nil => rfl
  | cons p list ih =>
    by_cases hp : p.expvModulename = n
    · simp [removePriv, entriesOf, hp]
    · simpa [removePriv, entriesOf, hp] using ih

/-! ### The other modules' entries -/

theorem entriesOf_getPriv_of_ne (h : m ≠ n) (list : List Extrapriv) :
    entriesOf m (getPriv n list) = entriesOf m list := by
  induction list with
  | nil => simp [getPriv, entriesOf, h.symm]
  | cons p list ih =>
    by_cases hp : p.expvModulename = n
    · simp [getPriv, hp]
    · simp only [getPriv, hp, if_false]
      simp only [entriesOf, List.filter_cons] at ih ⊢
      rw [ih]

theorem entriesOf_setPriv_of_ne (h : m ≠ n) (list : List Extrapriv) :
    entriesOf m (setPriv n x list) = entriesOf m list := by
  induction list with
  | nil => rfl
  | cons p list ih =>
    by_cases hp : p.expvModulename = n
    · simp [setPriv, entriesOf, hp, h.symm]
    · simp only [setPriv, hp, if_false]
      simp only [entriesOf, List.filter_cons] at ih ⊢
      rw [ih]

theorem entriesOf_removePriv_of_ne (h : m ≠ n) (list : List Extrapriv) :
    entriesOf m (removePriv n list) = entriesOf m list := by
  induction list with
  | nil => rfl
  | cons p list ih =>
    by_cases hp : p.expvModulename = n
    · simp [removePriv, entriesOf, hp, h.symm]
    · simp only [removePriv, hp, if_false]
      simp only [entriesOf, List.filter_cons] at ih ⊢
      rw [ih]

end

end Messasy
