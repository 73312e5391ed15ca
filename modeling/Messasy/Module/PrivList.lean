import Mathlib.Data.List.Nodup
import Messasy.Lib.Splice
import Messasy.Module.Header
import Messasy.Module.Usable

/-!
# The private list in memory

The hooks of a module over the list as it lies in memory: entries linked by pointers, each with a
pointer to a private block of its module. `getPriv` links a new entry behind the last one, and
`execEom` and `execAbort` unlink the entry with the pointer that trails the search. `PrivSt.Holds`
says that the list is well formed; every hook keeps it, touches no other module's entry or block,
and does to the entries what the hook of `Module` does to the list of entries (`Holds.call`).
-/

namespace Messasy

open Lib

/-- `struct extrapriv` without the link. -/
structure Expv where
  expvModulename : Str
  expvModulepriv : Option Nat
  deriving DecidableEq

/-- The list of a session and the private blocks that its entries point to. The `mypriv` of a block
is `none` until it is set. -/
structure PrivSt where
  mlfiExtrapriv : Option Nat
  expv : Arena (Node Expv)
  privs : Arena (Option Md)
  os : Os

namespace PrivSt

/-- The search for the module's entry, with `p_old`. -/
def search (mymodule : Str) (st : PrivSt) : Option (Option Nat × Option Nat) :=
  seek (fun p => p.expvModulename = mymodule) st.expv.next st.expv none st.mlfiExtrapriv

/-- `*_get_priv`. -/
def getPriv (mymodule : Str) (st : PrivSt) : Option (Nat × PrivSt) :=
  (st.search mymodule).bind fun
    | (_, some p) => some (p, st)
    | (pOld, none) =>
      (splice (st.expv.alloc ⟨⟨mymodule, none⟩, none⟩) st.mlfiExtrapriv pOld
        (some st.expv.next)).map fun (expv, head) =>
          (st.expv.next, { st with expv, mlfiExtrapriv := head })

/-- The private block of an entry and its `mypriv`. -/
def mypriv (p : Nat) (st : PrivSt) : Option (Nat × Md) :=
  (st.expv.cell p).bind fun n => n.data.expvModulepriv.bind fun mypv =>
    (st.privs.cell mypv).bind fun mypriv => mypriv.map fun md => (mypv, md)

/-- `*_priv_free`. -/
def privFree (p : Nat) (st : PrivSt) : Option PrivSt :=
  (st.expv.cell p).bind fun n =>
    (match n.data.expvModulepriv with
      | none => some st.privs
      | some mypv => st.privs.free mypv).map fun privs =>
        { st with privs, expv := st.expv.drop p }

/-- Take the entry at `p` out of the list. -/
def unlink (pOld : Option Nat) (p : Nat) (st : PrivSt) : Option PrivSt :=
  (st.expv.cell p).bind fun n =>
    (splice st.expv st.mlfiExtrapriv pOld n.next).bind fun (expv, head) =>
      { st with expv, mlfiExtrapriv := head }.privFree p

/-- A new private block, behind the pointer of the entry. -/
def linkPriv (expv : Nat) (n : Node Expv) (st : PrivSt) : PrivSt :=
  { st with
    privs := st.privs.alloc none
    expv := st.expv.put expv { n with data := { n.data with expvModulepriv := st.privs.next } } }

/-- The private block that `*_exec_header` and `*_exec_body` make when the entry has none. -/
def newPriv (m : Module) (env : Env) (view : View) (expv : Nat) (n : Node Expv) (st : PrivSt) :
    Option (Option (Nat × Md) × PrivSt) :=
  let mypv := st.privs.next
  let st := st.linkPriv expv n
  (findConfig m.mymodule view.config.cfExtraconfig).bind fun config =>
    (m.open_ env config view st.os).bind fun
      | (none, os) => (st.privs.free mypv).map fun privs => (none, { st with privs, os })
      | (some md, os) => some (some (mypv, md), { st with privs := st.privs.put mypv (some md), os })

/-- The start of the two hooks: the module's record and the block that holds it. -/
def record (m : Module) (env : Env) (view : View) (st : PrivSt) :
    Option (Option (Nat × Md) × PrivSt) :=
  (st.getPriv m.mymodule).bind fun (expv, st) =>
    (st.expv.cell expv).bind fun n =>
      match n.data.expvModulepriv with
      | none => st.newPriv m env view expv n
      | some _ => (st.mypriv expv).map fun x => (some x, st)

/-- The rest of the two hooks. -/
def writing (m : Module) (write : Md → Os → Rc × Md × Os) (env : Env) (view : View)
    (st : PrivSt) : Option (Int × PrivSt) :=
  (st.record m env view).bind fun
    | (none, st) => some (-1, st)
    | (some (mypv, md), st) =>
      let (rc, md, os) := write md st.os
      some (if rc = .success then 0 else -1, { st with privs := st.privs.put mypv (some md), os })

/-- `*_exec_eom`. -/
def execEom (m : Module) (env : Env) (view : View) (st : PrivSt) : Option (Int × PrivSt) :=
  (st.search m.mymodule).bind fun
    | (_, none) => some (0, st)
    | (pOld, some p) => (st.mypriv p).bind fun (mypv, md) =>
      (m.close env view.config md st.os).bind fun (rc, md, os) =>
        if rc = .success then ({ st with os }.unlink pOld p).map fun st => (0, st)
        else some (-1, { st with privs := st.privs.put mypv (some md), os })

/-- `*_exec_abort`. -/
def execAbort (m : Module) (st : PrivSt) : Option (Int × PrivSt) :=
  (st.search m.mymodule).bind fun
    | (_, none) => some (0, st)
    | (pOld, some p) => (st.mypriv p).bind fun (_, md) =>
      ({ st with os := abortTempfile md st.os }.unlink pOld p).map fun st => (0, st)

/-- The hook for a call. -/
def call (m : Module) (env : Env) (view : View) (st : PrivSt) : HookCall → Option (Int × PrivSt)
  | .header f v => st.writing m (fun md os => writeHeader env md f v os) env view
  | .body b => st.writing m (fun md os => writeBody env md b os) env view
  | .eom => st.execEom m env view
  | .abort => st.execAbort m

end PrivSt

/-! ## The entries -/

/-- The entries of other modules. -/
def others (n : Str) (l : List (Nat × Expv)) : List (Nat × Expv) :=
  l.filter fun x => x.2.expvModulename ≠ n

/-- The private blocks that the entries point to. -/
def owned (l : List (Nat × Expv)) : List Nat := l.filterMap (·.2.expvModulepriv)

/-- The list in memory: the entries by address, with distinct names and blocks of their own. -/
structure PrivSt.Holds (st : PrivSt) (l : List (Nat × Expv)) : Prop where
  chain : Chain st.expv st.mlfiExtrapriv l
  names : (l.map (·.2.expvModulename)).Nodup
  apart : (owned l).Nodup
  bound : ∀ q ∈ owned l, q < st.privs.next

/-- Nothing of the other modules changes: neither their entries, nor their order, nor what the
entries point to. -/
structure PrivSt.Frame (n : Str) (st st' : PrivSt) (l l' : List (Nat × Expv)) : Prop where
  entries : others n l' = others n l
  privs : ∀ q ∈ owned (others n l), st'.privs.cell q = st.privs.cell q

/-- The entry of the module is the only one of its name. -/
structure Splits (n : Str) (l pre : List (Nat × Expv)) (x : Nat × Expv)
    (post : List (Nat × Expv)) : Prop where
  eq : l = pre ++ x :: post
  name : x.2.expvModulename = n
  before : ∀ y ∈ pre, y.2.expvModulename ≠ n
  after : ∀ y ∈ post, y.2.expvModulename ≠ n

/-- The entry as a value. -/
def Expv.value (privs : Arena (Option Md)) (x : Expv) : Extrapriv :=
  ⟨x.expvModulename, match x.expvModulepriv with
    | none => .null
    | some mypv => match privs.cell mypv with
      | some (some md) => .block md
      | _ => .freed⟩

/-- The list as the hooks of `Module` see it. -/
def PrivSt.hookSt (st : PrivSt) (l : List (Nat × Expv)) : HookSt :=
  ⟨l.map fun x => x.2.value st.privs, st.os⟩

section
variable {n : Str} {l pre post : List (Nat × Expv)} {x : Nat × Expv} {st : PrivSt}

/-- A module has an entry, at one place, or none. -/
theorem splits_or (hn : (l.map (·.2.expvModulename)).Nodup) (n : Str) :
    (∃ pre x post, Splits n l pre x post) ∨ ∀ y ∈ l, y.2.expvModulename ≠ n := by
  by_cases h : ∃ x ∈ l, x.2.expvModulename = n
  · obtain ⟨x, hx, rfl⟩ := h
    obtain ⟨pre, post, rfl⟩ := List.append_of_mem hx
    rw [List.map_append, List.map_cons, List.nodup_middle, List.nodup_cons, List.mem_append] at hn
    refine .inl ⟨pre, x, post, rfl, rfl, fun y hy he => ?_, fun y hy he => ?_⟩
    · exact hn.1 (.inl (he ▸ List.mem_map_of_mem hy))
    · exact hn.1 (.inr (he ▸ List.mem_map_of_mem hy))
  · exact .inr fun y hy he => h ⟨y, hy, he⟩

theorem others_eq_self (h : ∀ y ∈ l, y.2.expvModulename ≠ n) : others n l = l :=
  List.filter_eq_self.2 fun y hy => by simpa using h y hy

theorem Splits.others (h : Splits n l pre x post) : others n l = pre ++ post := by
  have hx : (decide (x.2.expvModulename ≠ n)) = false := by simpa using h.name
  have hpre : Messasy.others n pre = pre := others_eq_self h.before
  have hpost : Messasy.others n post = post := others_eq_self h.after
  rw [h.eq, Messasy.others, List.filter_append, List.filter_cons, hx]
  show Messasy.others n pre ++ Messasy.others n post = _
  rw [hpre, hpost]

theorem owned_append (l l' : List (Nat × Expv)) : owned (l ++ l') = owned l ++ owned l' :=
  List.filterMap_append

theorem owned_cons (x : Nat × Expv) (l : List (Nat × Expv)) :
    owned (x :: l) = x.2.expvModulepriv.toList ++ owned l := by
  rw [owned, List.filterMap_cons]
  cases x.2.expvModulepriv <;> rfl

theorem Splits.owned_others_subset (h : Splits n l pre x post) :
    ∀ q ∈ owned (Messasy.others n l), q ∈ owned l := by
  intro q hq
  rw [h.others, owned_append, List.mem_append] at hq
  rw [h.eq, owned_append, List.mem_append]
  refine hq.imp_right fun hq => ?_
  obtain ⟨y, hy, hq⟩ := List.mem_filterMap.1 hq
  exact List.mem_filterMap.2 ⟨y, List.mem_cons_of_mem x hy, hq⟩

theorem Splits.owned_eq (h : Splits n l pre x post) :
    owned l = owned pre ++ (x.2.expvModulepriv.toList ++ owned post) := by
  rw [h.eq, owned_append, owned_cons]

/-- The entry's own block belongs to no other entry. -/
theorem Splits.own_notMem (h : Splits n l pre x post) (ha : (owned l).Nodup) {q : Nat}
    (hq : x.2.expvModulepriv = some q) : q ∉ owned (Messasy.others n l) := by
  rw [h.owned_eq, hq, Option.toList_some, List.singleton_append, List.nodup_middle,
    List.nodup_cons] at ha
  rw [h.others, owned_append]
  exact ha.1

theorem Splits.mem (h : Splits n l pre x post) : x ∈ l := by
  rw [h.eq, List.mem_append]
  exact .inr List.mem_cons_self

/-- The values of the entries depend on their own blocks only. -/
theorem map_value_congr {privs privs' : Arena (Option Md)}
    (h : ∀ q ∈ owned l, privs'.cell q = privs.cell q) :
    l.map (fun x => x.2.value privs') = l.map fun x => x.2.value privs := by
  apply List.map_congr_left
  intro y hy
  unfold Expv.value
  cases hp : y.2.expvModulepriv with
  | none => rfl
  | some q => simp only [h q (List.mem_filterMap.2 ⟨y, hy, hp⟩)]

/-- The other modules' values, around the module's own one. -/
theorem Splits.values (h : Splits n l pre x post) {privs privs' : Arena (Option Md)}
    (hsame : ∀ q ∈ owned (Messasy.others n l), privs'.cell q = privs.cell q) :
    pre.map (fun x => x.2.value privs') = pre.map (fun x => x.2.value privs) ∧
      post.map (fun x => x.2.value privs') = post.map fun x => x.2.value privs := by
  rw [h.others, owned_append] at hsame
  exact ⟨map_value_congr fun q hq => hsame q (List.mem_append_left _ hq),
    map_value_congr fun q hq => hsame q (List.mem_append_right _ hq)⟩

theorem value_names (privs : Arena (Option Md)) (h : ∀ y ∈ l, y.2.expvModulename ≠ n) :
    ∀ p ∈ l.map (fun x => x.2.value privs), p.expvModulename ≠ n := by
  intro p hp
  obtain ⟨y, hy, rfl⟩ := List.mem_map.1 hp
  exact h y hy

/-! ### The list of values, around the module's own entry -/

theorem Splits.hookSt_eq (h : Splits n l pre x post) (st : PrivSt) :
    st.hookSt l = ⟨pre.map (fun x => x.2.value st.privs) ++
      x.2.value st.privs :: post.map fun x => x.2.value st.privs, st.os⟩ := by
  unfold PrivSt.hookSt
  rw [h.eq, List.map_append, List.map_cons]

/-- Another own entry, in memory where nothing of the other modules has changed. -/
theorem Splits.hookSt_of_same (h : Splits n l pre x post) (st' : PrivSt)
    (hsame : ∀ q ∈ owned (Messasy.others n l), st'.privs.cell q = st.privs.cell q)
    (y : Nat × Expv) :
    st'.hookSt (pre ++ y :: post) = ⟨pre.map (fun x => x.2.value st.privs) ++
      y.2.value st'.privs :: post.map fun x => x.2.value st.privs, st'.os⟩ := by
  obtain ⟨hpre, hpost⟩ := h.values hsame
  unfold PrivSt.hookSt
  rw [List.map_append, List.map_cons, hpre, hpost]

/-- The private pointer of the module's entry. -/
theorem Splits.find (h : Splits n l pre x post) (st : PrivSt) :
    findPriv n (st.hookSt l).mlfiExtrapriv = some (x.2.value st.privs).expvModulepriv := by
  have hname : (x.2.value st.privs).expvModulename = n := h.name
  rw [h.hookSt_eq, findPriv_append (value_names _ h.before), findPriv, if_pos hname]

theorem Splits.getPriv_eq (h : Splits n l pre x post) (st : PrivSt) :
    getPriv n (st.hookSt l).mlfiExtrapriv = (st.hookSt l).mlfiExtrapriv := by
  have hname : (x.2.value st.privs).expvModulename = n := h.name
  rw [h.hookSt_eq, getPriv_append (value_names _ h.before), getPriv, if_pos hname]

theorem Splits.setPriv_eq (h : Splits n l pre x post) (st : PrivSt) (v : Modpriv) :
    setPriv n v (st.hookSt l).mlfiExtrapriv = pre.map (fun x => x.2.value st.privs) ++
      ⟨n, v⟩ :: post.map fun x => x.2.value st.privs := by
  have hname : (x.2.value st.privs).expvModulename = n := h.name
  rw [h.hookSt_eq, setPriv_append (value_names _ h.before), setPriv, if_pos hname, hname]

theorem Splits.removePriv_eq (h : Splits n l pre x post) (st : PrivSt) :
    removePriv n (st.hookSt l).mlfiExtrapriv = pre.map (fun x => x.2.value st.privs) ++
      post.map fun x => x.2.value st.privs := by
  have hname : (x.2.value st.privs).expvModulename = n := h.name
  rw [h.hookSt_eq, removePriv_append (value_names _ h.before), removePriv, if_pos hname]

/-! ## The search and `*_get_priv` -/

theorem PrivSt.Holds.search_found (h : st.Holds l) (hs : Splits n l pre x post) :
    st.search n = some (lastId none pre, some x.1) := by
  have hc := h.chain
  rw [hs.eq] at hc
  refine hc.seek_found (fun y hy => ?_) (by simpa using hs.name) ?_
  · simpa using hs.before y hy
  · have hle := hc.length_le
    rw [List.length_append, List.length_cons] at hle
    omega

theorem PrivSt.Holds.search_none (h : st.Holds l) (hno : ∀ y ∈ l, y.2.expvModulename ≠ n) :
    st.search n = some (lastId none l, none) :=
  h.chain.seek_none (fun y hy => by simpa using hno y hy) h.chain.length_le

/-- `*_get_priv` leads from `st` to `st'`, where the entry `x` stands between `pre` and `post`: it
is the module's own entry, or a new one at the end. -/
def PrivSt.Gets (n : Str) (st : PrivSt) (l : List (Nat × Expv)) (st' : PrivSt)
    (pre : List (Nat × Expv)) (x : Nat × Expv) (post : List (Nat × Expv)) : Prop :=
  (st' = st ∧ Splits n l pre x post) ∨
    ((∀ y ∈ l, y.2.expvModulename ≠ n) ∧ pre = l ∧ x.2 = ⟨n, none⟩ ∧ post = [])

theorem PrivSt.Holds.getPriv (h : st.Holds l) (n : Str) : ∃ st' pre x post,
    st.getPriv n = some (x.1, st') ∧ st'.Holds (pre ++ x :: post) ∧
      Splits n (pre ++ x :: post) pre x post ∧ st'.privs = st.privs ∧
      st'.hookSt (pre ++ x :: post) =
        ⟨Messasy.getPriv n (st.hookSt l).mlfiExtrapriv, st.os⟩ ∧
      PrivSt.Gets n st l st' pre x post := by
  rcases splits_or h.names n with ⟨pre, x, post, hs⟩ | hno
  · refine ⟨st, pre, x, post, ?_, hs.eq ▸ h, hs.eq ▸ hs, rfl, ?_, .inl ⟨rfl, hs⟩⟩
    · rw [PrivSt.getPriv, h.search_found hs]
      rfl
    · rw [← hs.eq, hs.getPriv_eq]
      rfl
  · obtain ⟨expv, head, hsplice, hchain⟩ := h.chain.append_eq ⟨n, none⟩
    have howned : owned (l ++ [(st.expv.next, ⟨n, none⟩)]) = owned l := by
      rw [owned_append]
      exact List.append_nil _
    refine ⟨{ st with expv, mlfiExtrapriv := head }, l, (st.expv.next, ⟨n, none⟩), [], ?_,
      ⟨hchain, ?_, ?_, ?_⟩, ⟨rfl, rfl, hno, fun y hy => by cases hy⟩, rfl, ?_,
      .inr ⟨hno, rfl, rfl, rfl⟩⟩
    · rw [PrivSt.getPriv, h.search_none hno, Option.bind_some]
      simp only [hsplice, Option.map_some]
    · rw [List.map_append, List.map_singleton, List.nodup_append]
      refine ⟨h.names, List.nodup_singleton _, fun a ha b hb => ?_⟩
      obtain ⟨y, hy, rfl⟩ := List.mem_map.1 ha
      rw [List.mem_singleton.1 hb]
      exact hno y hy
    · rw [howned]
      exact h.apart
    · rw [howned]
      exact h.bound
    · have hget := getPriv_append (value_names st.privs hno) []
      rw [List.append_nil] at hget
      unfold PrivSt.hookSt
      rw [hget, List.map_append]
      rfl

/-- What `*_exec_header` and `*_exec_body` do to the entries: the module's own one stays where it
is, or one is appended. -/
def Enters (n : Str) (l l' : List (Nat × Expv)) : Prop :=
  (∃ pre x post e, Splits n l pre x post ∧ e.expvModulename = n ∧ l' = pre ++ (x.1, e) :: post) ∨
    ((∀ y ∈ l, y.2.expvModulename ≠ n) ∧ ∃ x, x.2.expvModulename = n ∧ l' = l ++ [x])

theorem PrivSt.Gets.enters {st' : PrivSt} (h : PrivSt.Gets n st l st' pre x post) {e : Expv}
    (he : e.expvModulename = n) : Enters n l (pre ++ (x.1, e) :: post) := by
  rcases h with ⟨-, hs⟩ | ⟨hno, rfl, -, rfl⟩
  · exact .inl ⟨pre, x, post, e, hs, he, rfl⟩
  · exact .inr ⟨hno, (x.1, e), he, rfl⟩

theorem PrivSt.Gets.frame {st' : PrivSt} (h : PrivSt.Gets n st l st' pre x post)
    (hp : st'.privs = st.privs) : PrivSt.Frame n st st' l (pre ++ x :: post) := by
  refine ⟨?_, fun q _ => by rw [hp]⟩
  rcases h with ⟨-, hs⟩ | ⟨hno, rfl, hx, rfl⟩
  · rw [hs.eq]
  · have hs : Splits n (pre ++ [x]) pre x [] := ⟨rfl, by rw [hx], hno, fun y hy => by cases hy⟩
    rw [hs.others, List.append_nil, others_eq_self hno]

end

/-! ## The private blocks -/

section
variable {n : Str} {l pre post : List (Nat × Expv)} {x : Nat × Expv} {st : PrivSt}

theorem PrivSt.Frame.trans {st1 st2 : PrivSt} {l1 l2 : List (Nat × Expv)}
    (h : PrivSt.Frame n st st1 l l1) (h' : PrivSt.Frame n st1 st2 l1 l2) :
    PrivSt.Frame n st st2 l l2 := by
  refine ⟨h'.entries.trans h.entries, fun q hq => ?_⟩
  rw [h'.privs q (h.entries ▸ hq), h.privs q hq]

/-- Storing a record in the module's own block. -/
theorem PrivSt.Holds.store (h : st.Holds l) (hs : Splits n l pre x post) {mypv : Nat}
    {v : Option Md} (hx : x.2.expvModulepriv = some mypv) (hv : st.privs.cell mypv = some v)
    (md : Md) (os : Os) :
    PrivSt.Holds { st with privs := st.privs.put mypv (some md), os } l ∧
      PrivSt.Frame n st { st with privs := st.privs.put mypv (some md), os } l l ∧
      PrivSt.hookSt { st with privs := st.privs.put mypv (some md), os } l =
        ⟨setPriv n (.block md) (st.hookSt l).mlfiExtrapriv, os⟩ := by
  have hsame : ∀ q ∈ owned (others n l), (st.privs.put mypv (some md)).cell q = st.privs.cell q :=
    fun q hq => Arena.cell_put_of_ne fun he => hs.own_notMem h.apart hx (he ▸ hq)
  refine ⟨⟨h.chain, h.names, h.apart, h.bound⟩, ⟨rfl, hsame⟩, ?_⟩
  have hown : x.2.value (st.privs.put mypv (some md)) = ⟨n, .block md⟩ := by
    simp only [Expv.value, hx, Arena.cell_put_self hv, hs.name]
  have hvalues :=
    hs.hookSt_of_same { st with privs := st.privs.put mypv (some md), os } hsame x
  rw [hown] at hvalues
  rw [hs.setPriv_eq, ← hvalues, ← hs.eq]

/-- Taking the module's own entry out, with its block. -/
theorem PrivSt.Holds.unlink (h : st.Holds l) (hs : Splits n l pre x post) {mypv : Nat}
    {v : Option Md} (hx : x.2.expvModulepriv = some mypv) (hv : st.privs.cell mypv = some v) :
    ∃ st', st.unlink (lastId none pre) x.1 = some st' ∧ st'.Holds (pre ++ post) ∧
      PrivSt.Frame n st st' l (pre ++ post) ∧
      st'.hookSt (pre ++ post) = ⟨removePriv n (st.hookSt l).mlfiExtrapriv, st.os⟩ := by
  have hc := h.chain
  rw [hs.eq] at hc
  obtain ⟨nd, expv, head, hcell, hdata, hsplice, hkeep, -, hchain⟩ := hc.unlink_eq
  have hsame : ∀ q ∈ owned (others n l), (st.privs.drop mypv).cell q = st.privs.cell q :=
    fun q hq => Arena.cell_drop_of_ne fun he => hs.own_notMem h.apart hx (he ▸ hq)
  have hsub : ∀ q ∈ owned (pre ++ post), q ∈ owned l := fun q hq =>
    hs.owned_others_subset q (hs.others ▸ hq)
  refine ⟨⟨head, expv.drop x.1, st.privs.drop mypv, st.os⟩, ?_, ⟨hchain, ?_, ?_, fun q hq => ?_⟩,
    ⟨?_, hsame⟩, ?_⟩
  · have hpriv : nd.data.expvModulepriv = some mypv := by rw [hdata, hx]
    simp only [PrivSt.unlink, hcell, Option.bind_some, hsplice, PrivSt.privFree, hkeep, hpriv,
      Arena.free_of_live hv, Option.map_some]
  · have hn := h.names
    rw [hs.eq, List.map_append, List.map_cons, List.nodup_middle, List.nodup_cons] at hn
    rw [List.map_append]
    exact hn.2
  · have ha := h.apart
    rw [hs.owned_eq, hx, Option.toList_some, List.singleton_append, List.nodup_middle,
      List.nodup_cons] at ha
    rw [owned_append]
    exact ha.2
  · exact h.bound q (hsub q hq)
  · have hrest : ∀ y ∈ pre ++ post, y.2.expvModulename ≠ n := fun y hy =>
      (List.mem_append.1 hy).elim (hs.before y) (hs.after y)
    rw [hs.others, others_eq_self hrest]
  · obtain ⟨hpre, hpost⟩ := hs.values hsame
    rw [hs.removePriv_eq, ← hpre, ← hpost]
    unfold PrivSt.hookSt
    rw [List.map_append]

/-- A new block for the module's own entry. -/
theorem PrivSt.Holds.linkPriv {p : Nat} (h : st.Holds l) (hs : Splits n l pre (p, ⟨n, none⟩) post) :
    ∃ nd, st.expv.cell p = some nd ∧ nd.data = ⟨n, none⟩ ∧
      (st.linkPriv p nd).Holds (pre ++ (p, ⟨n, some st.privs.next⟩) :: post) ∧
      PrivSt.Frame n st (st.linkPriv p nd) l (pre ++ (p, ⟨n, some st.privs.next⟩) :: post) ∧
      (st.linkPriv p nd).hookSt (pre ++ (p, ⟨n, some st.privs.next⟩) :: post) =
        ⟨setPriv n .freed (st.hookSt l).mlfiExtrapriv, st.os⟩ := by
  have hc := h.chain
  obtain ⟨nx, hcell⟩ := hc.live _ hs.mem
  rw [hs.eq] at hc
  have hnew : Splits n (pre ++ (p, ⟨n, some st.privs.next⟩) :: post) pre
      (p, ⟨n, some st.privs.next⟩) post := ⟨rfl, rfl, hs.before, hs.after⟩
  have hold : ∀ q ∈ owned l, (st.privs.alloc none).cell q = st.privs.cell q :=
    fun q hq => Arena.cell_alloc_of_lt (h.bound q hq)
  have hsame : ∀ q ∈ owned (others n l), (st.privs.alloc none).cell q = st.privs.cell q :=
    fun q hq => hold q (hs.owned_others_subset q hq)
  have howned : owned l = owned pre ++ owned post := hs.owned_eq
  refine ⟨⟨⟨n, none⟩, nx⟩, hcell, rfl, ⟨hc.put_data hcell _, ?_, ?_, fun q hq => ?_⟩, ⟨?_, hsame⟩,
    ?_⟩
  · have hn := h.names
    rw [hs.eq, List.map_append, List.map_cons] at hn
    rw [List.map_append, List.map_cons]
    exact hn
  · rw [hnew.owned_eq, Option.toList_some, List.singleton_append, List.nodup_middle,
      List.nodup_cons, ← howned]
    exact ⟨fun hm => Nat.lt_irrefl _ (h.bound _ hm), h.apart⟩
  · rw [hnew.owned_eq, Option.toList_some, List.singleton_append, List.mem_append,
      List.mem_cons] at hq
    show q < st.privs.next + 1
    have hmem : q = st.privs.next ∨ q ∈ owned l := by
      rw [howned, List.mem_append]
      rcases hq with hq | rfl | hq
      · exact .inr (.inl hq)
      · exact .inl rfl
      · exact .inr (.inr hq)
    rcases hmem with rfl | hq
    · exact Nat.lt_succ_self _
    · exact Nat.lt_succ_of_lt (h.bound q hq)
  · rw [hnew.others, hs.others]
  · have hown : Expv.value (st.privs.alloc none) ⟨n, some st.privs.next⟩ = ⟨n, .freed⟩ := by
      simp only [Expv.value, Arena.cell_alloc_self]
    rw [hs.setPriv_eq, ← hown]
    exact hs.hookSt_of_same (st.linkPriv p ⟨⟨n, none⟩, nx⟩) hsame (p, ⟨n, some st.privs.next⟩)

/-- Releasing the module's own block before its record is set. -/
theorem PrivSt.Holds.discard (h : st.Holds l) (hs : Splits n l pre x post) {mypv : Nat}
    (hx : x.2.expvModulepriv = some mypv) (hv : st.privs.cell mypv = some none) (os : Os) :
    PrivSt.Holds { st with privs := st.privs.drop mypv, os } l ∧
      PrivSt.Frame n st { st with privs := st.privs.drop mypv, os } l l ∧
      PrivSt.hookSt { st with privs := st.privs.drop mypv, os } l =
        ⟨(st.hookSt l).mlfiExtrapriv, os⟩ := by
  have hsame : ∀ q ∈ owned (others n l), (st.privs.drop mypv).cell q = st.privs.cell q :=
    fun q hq => Arena.cell_drop_of_ne fun he => hs.own_notMem h.apart hx (he ▸ hq)
  refine ⟨⟨h.chain, h.names, h.apart, h.bound⟩, ⟨rfl, hsame⟩, ?_⟩
  have hown : x.2.value (st.privs.drop mypv) = x.2.value st.privs := by
    simp only [Expv.value, hx, hv, Arena.cell_drop_self]
  have hvalues := hs.hookSt_of_same { st with privs := st.privs.drop mypv, os } hsame x
  rw [hown] at hvalues
  rw [hs.hookSt_eq st, ← hvalues, ← hs.eq]

end

/-! ## The hooks -/

section
variable {l : List (Nat × Expv)} {st : PrivSt} {m : Module} {env : Env} {view : View}

/-- A new block and the record that `*_open` makes. -/
theorem PrivSt.Holds.newPriv {pre post : List (Nat × Expv)} {p : Nat} (h : st.Holds l)
    (hs : Splits m.mymodule l pre (p, ⟨m.mymodule, none⟩) post) {config : ModuleConfig}
    (hc : findConfig m.mymodule view.config.cfExtraconfig = some config) {mydat : Option Md}
    {os : Os} (ho : m.open_ env config view st.os = some (mydat, os)) :
    ∃ nd x st' e, st.expv.cell p = some nd ∧ nd.data = ⟨m.mymodule, none⟩ ∧
      e = (p, ⟨m.mymodule, some st.privs.next⟩) ∧
      st.newPriv m env view p nd = some (x, st') ∧ st'.Holds (pre ++ e :: post) ∧
      PrivSt.Frame m.mymodule st st' l (pre ++ e :: post) ∧ mydat = x.map Prod.snd ∧
      st'.hookSt (pre ++ e :: post) = ⟨setPriv m.mymodule (mydat.elim .freed .block)
        (st.hookSt l).mlfiExtrapriv, os⟩ ∧
      ∀ mypv md, x = some (mypv, md) →
        mypv = st.privs.next ∧ st'.privs.cell mypv = some (some md) := by
  obtain ⟨nd, hcell, hdata, h1, hf1, hk1⟩ := h.linkPriv hs
  have hs1 : Splits m.mymodule (pre ++ (p, ⟨m.mymodule, some st.privs.next⟩) :: post) pre
      (p, ⟨m.mymodule, some st.privs.next⟩) post := ⟨rfl, rfl, hs.before, hs.after⟩
  have hv : (st.linkPriv p nd).privs.cell st.privs.next = some none := Arena.cell_alloc_self _ _
  have ho1 : m.open_ env config view (st.linkPriv p nd).os = some (mydat, os) := ho
  cases mydat with
  | none =>
    obtain ⟨h2, hf2, hk2⟩ := h1.discard hs1 rfl hv os
    refine ⟨nd, none, _, _, hcell, hdata, rfl, ?_, h2, hf1.trans hf2, rfl, ?_,
      fun _ _ he => by cases he⟩
    · simp only [PrivSt.newPriv, hc, ho1, Option.bind_some, Arena.free_of_live hv, Option.map_some]
    · rw [hk2, hk1]
      rfl
  | some md =>
    obtain ⟨h2, hf2, hk2⟩ := h1.store hs1 rfl hv md os
    refine ⟨nd, some (st.privs.next, md), _, _, hcell, hdata, rfl, ?_, h2, hf1.trans hf2, rfl, ?_,
      fun mypv md' he => ?_⟩
    · simp only [PrivSt.newPriv, hc, ho1, Option.bind_some]
    · rw [hk2, hk1, setPriv_setPriv]
      rfl
    · cases he
      exact ⟨rfl, Arena.cell_put_self hv⟩

section
variable {v : HookSt}

theorem Module.record_null
    (hfind : findPriv m.mymodule (getPriv m.mymodule v.mlfiExtrapriv) = some .null) :
    m.record env view v = (findConfig m.mymodule view.config.cfExtraconfig).bind fun config =>
      (m.open_ env config view v.os).map fun (mydat, os) => (mydat,
        ⟨setPriv m.mymodule (mydat.elim .freed .block) (getPriv m.mymodule v.mlfiExtrapriv),
          os⟩) := by
  simp only [Module.record, hfind]
  cases findConfig m.mymodule view.config.cfExtraconfig with
  | none => rfl
  | some config =>
    rw [Option.bind_some]
    dsimp only
    rcases m.open_ env config view v.os with _ | ⟨_ | md, os⟩ <;> rfl

theorem Module.record_block {md : Md}
    (hfind : findPriv m.mymodule (getPriv m.mymodule v.mlfiExtrapriv) = some (.block md)) :
    m.record env view v = some (some md, ⟨getPriv m.mymodule v.mlfiExtrapriv, v.os⟩) := by
  simp only [Module.record, hfind]

theorem Module.record_freed
    (hfind : findPriv m.mymodule (getPriv m.mymodule v.mlfiExtrapriv) = some .freed) :
    m.record env view v = none := by
  simp only [Module.record, hfind]

end

/-- The two hooks up to the record, in memory and on values: both are undefined, or they have the
same record, which lies in the block of the module's own entry. -/
def PrivSt.Records (m : Module) (env : Env) (view : View) (st : PrivSt)
    (l : List (Nat × Expv)) : Prop :=
  (st.record m env view = none ∧ m.record env view (st.hookSt l) = none) ∨
    ∃ x st' l', st.record m env view = some (x, st') ∧ st'.Holds l' ∧ Enters m.mymodule l l' ∧
      PrivSt.Frame m.mymodule st st' l l' ∧
      m.record env view (st.hookSt l) = some (x.map Prod.snd, st'.hookSt l') ∧
      ∀ mypv md, x = some (mypv, md) → ∃ pre y post, Splits m.mymodule l' pre y post ∧
        y.2.expvModulepriv = some mypv ∧ st'.privs.cell mypv = some (some md)

section
variable {st1 : PrivSt} {pre post : List (Nat × Expv)} {p : Nat}

/-- An entry without a block gets one. -/
theorem PrivSt.Gets.record_new
    (hgets : PrivSt.Gets m.mymodule st l st1 pre (p, ⟨m.mymodule, none⟩) post)
    (hget : st.getPriv m.mymodule = some (p, st1))
    (h1 : st1.Holds (pre ++ (p, ⟨m.mymodule, none⟩) :: post))
    (hs1 : Splits m.mymodule (pre ++ (p, ⟨m.mymodule, none⟩) :: post) pre
      (p, ⟨m.mymodule, none⟩) post)
    (hprivs : st1.privs = st.privs)
    (hk1 : st1.hookSt (pre ++ (p, ⟨m.mymodule, none⟩) :: post) =
      ⟨Messasy.getPriv m.mymodule (st.hookSt l).mlfiExtrapriv, st.os⟩) :
    PrivSt.Records m env view st l := by
  obtain ⟨nx, hcell⟩ := h1.chain.live _ hs1.mem
  have hos : st1.os = st.os := congrArg HookSt.os hk1
  have hfind := hs1.find st1
  rw [hk1] at hfind
  have hrecord : st.record m env view = st1.newPriv m env view p ⟨⟨m.mymodule, none⟩, nx⟩ := by
    simp only [PrivSt.record, hget, hcell, Option.bind_some]
  have hvalue : m.record env view (st.hookSt l) = _ := Module.record_null hfind
  cases hc : findConfig m.mymodule view.config.cfExtraconfig with
  | none =>
    rw [hc] at hvalue
    exact .inl ⟨by simp only [hrecord, PrivSt.newPriv, hc, Option.bind_none], hvalue⟩
  | some config =>
    have hos' : (st.hookSt l).os = st1.os := hos.symm
    rw [hc, Option.bind_some, hos'] at hvalue
    cases ho : m.open_ env config view st1.os with
    | none =>
      have ho1 : m.open_ env config view
          (st1.linkPriv p ⟨⟨m.mymodule, none⟩, nx⟩).os = none := ho
      refine .inl ⟨?_, ?_⟩
      · simp only [hrecord, PrivSt.newPriv, hc, ho1, Option.bind_some, Option.bind_none]
      · rw [hvalue, ho, Option.map_none]
    | some o =>
      obtain ⟨mydat, os⟩ := o
      obtain ⟨nd, y, st2, e, hcell2, -, he, hnew, h2, hf2, hy, hk2, hmypv⟩ := h1.newPriv hs1 hc ho
      rw [hcell, Option.some.injEq] at hcell2
      subst hcell2 he
      refine .inr ⟨y, st2, _, hrecord.trans hnew, h2, hgets.enters rfl,
        (hgets.frame hprivs).trans hf2, ?_, fun mypv md hyx => ?_⟩
      · rw [hvalue, hk2, hk1, ← hy, ho, Option.map_some]
      · obtain ⟨rfl, hv⟩ := hmypv mypv md hyx
        exact ⟨pre, _, post, ⟨rfl, rfl, hs1.before, hs1.after⟩, rfl, hv⟩

/-- An entry with a block has its record there. -/
theorem PrivSt.Gets.record_old {q : Nat}
    (hgets : PrivSt.Gets m.mymodule st l st1 pre (p, ⟨m.mymodule, some q⟩) post)
    (hget : st.getPriv m.mymodule = some (p, st1))
    (h1 : st1.Holds (pre ++ (p, ⟨m.mymodule, some q⟩) :: post))
    (hs1 : Splits m.mymodule (pre ++ (p, ⟨m.mymodule, some q⟩) :: post) pre
      (p, ⟨m.mymodule, some q⟩) post)
    (hprivs : st1.privs = st.privs)
    (hk1 : st1.hookSt (pre ++ (p, ⟨m.mymodule, some q⟩) :: post) =
      ⟨Messasy.getPriv m.mymodule (st.hookSt l).mlfiExtrapriv, st.os⟩) :
    PrivSt.Records m env view st l := by
  obtain ⟨nx, hcell⟩ := h1.chain.live _ hs1.mem
  have hfind := hs1.find st1
  rw [hk1] at hfind
  have hrecord : st.record m env view = (st1.mypriv p).map fun x => (some x, st1) := by
    simp only [PrivSt.record, hget, hcell, Option.bind_some]
  have hmypriv : st1.mypriv p =
      (st1.privs.cell q).bind fun mypriv => mypriv.map fun md => (q, md) := by
    simp only [PrivSt.mypriv, hcell, Option.bind_some]
  rcases hq : st1.privs.cell q with _ | _ | md
  · refine .inl ⟨by rw [hrecord, hmypriv, hq]; rfl, Module.record_freed ?_⟩
    rw [hfind]
    simp only [Expv.value, hq]
  · refine .inl ⟨by rw [hrecord, hmypriv, hq]; rfl, Module.record_freed ?_⟩
    rw [hfind]
    simp only [Expv.value, hq]
  · refine .inr ⟨some (q, md), st1, _, by rw [hrecord, hmypriv, hq]; rfl, h1, hgets.enters rfl,
      hgets.frame hprivs, ?_, fun mypv md' he => ?_⟩
    · rw [hk1]
      apply Module.record_block
      rw [hfind]
      simp only [Expv.value, hq]
    · cases he
      exact ⟨pre, _, post, hs1, rfl, hq⟩

end

theorem PrivSt.Holds.record (h : st.Holds l) (m : Module) (env : Env) (view : View) :
    PrivSt.Records m env view st l := by
  obtain ⟨st1, pre, ⟨p, name, ptr⟩, post, hget, h1, hs1, hprivs, hk1, hgets⟩ :=
    h.getPriv m.mymodule
  obtain rfl : name = m.mymodule := hs1.name
  cases ptr with
  | none => exact hgets.record_new hget h1 hs1 hprivs hk1
  | some q => exact hgets.record_old hget h1 hs1 hprivs hk1

/-- `*_exec_header` and `*_exec_body`. -/
theorem PrivSt.Holds.writing (h : st.Holds l) (m : Module) (write : Md → Os → Rc × Md × Os)
    (env : Env) (view : View) :
    (st.writing m write env view = none ∧ m.writing write env view (st.hookSt l) = none) ∨
    ∃ r st' l', st.writing m write env view = some (r, st') ∧ st'.Holds l' ∧
      Enters m.mymodule l l' ∧ PrivSt.Frame m.mymodule st st' l l' ∧
      m.writing write env view (st.hookSt l) = some (r, st'.hookSt l') := by
  unfold PrivSt.writing Module.writing
  rcases h.record m env view with ⟨hnone, hvalue⟩ | ⟨x, st1, l1, hsome, h1, he, hf, hvalue, hx⟩
  · rw [hnone, hvalue]
    exact .inl ⟨rfl, rfl⟩
  · refine .inr ?_
    rw [hsome, hvalue]
    cases x with
    | none => exact ⟨-1, st1, l1, rfl, h1, he, hf, rfl⟩
    | some x =>
      obtain ⟨mypv, md⟩ := x
      obtain ⟨pre, y, post, hs, hptr, hv⟩ := hx mypv md rfl
      obtain ⟨h2, hf2, hk2⟩ := h1.store hs hptr hv (write md st1.os).2.1 (write md st1.os).2.2
      exact ⟨_, _, l1, rfl, h2, he, hf.trans hf2, by rw [hk2]; rfl⟩

/-- What `*_exec_eom` and `*_exec_abort` do: the module's own entry is gone, wherever it stood.
Without one nothing changes. -/
def PrivSt.Leaves (n : Str) (st : PrivSt) (l : List (Nat × Expv)) (st' : PrivSt)
    (l' : List (Nat × Expv)) : Prop :=
  (∃ pre x post, Splits n l pre x post ∧ l' = pre ++ post) ∨
    ((∀ y ∈ l, y.2.expvModulename ≠ n) ∧ st' = st ∧ l' = l)

/-- Without a block in the entry the hooks are undefined. -/
theorem Module.execEom_none {v : HookSt} {x : Modpriv}
    (hfind : findPriv m.mymodule v.mlfiExtrapriv = some x) (hx : ∀ md, x ≠ .block md) :
    m.execEom env view v = none ∧ m.execAbort env view v = none := by
  unfold Module.execEom Module.execAbort
  rw [hfind]
  cases x with
  | block md => exact absurd rfl (hx md)
  | _ => exact ⟨rfl, rfl⟩

/-- The block of the module's own entry. -/
theorem PrivSt.Holds.own_cases {n : Str} {pre post : List (Nat × Expv)} {x : Nat × Expv}
    (h : st.Holds l) (hs : Splits n l pre x post) :
    (st.mypriv x.1 = none ∧ ∀ md, (x.2.value st.privs).expvModulepriv ≠ .block md) ∨
    ∃ mypv md, st.mypriv x.1 = some (mypv, md) ∧ x.2.expvModulepriv = some mypv ∧
      st.privs.cell mypv = some (some md) ∧
      findPriv n (st.hookSt l).mlfiExtrapriv = some (.block md) := by
  obtain ⟨nx, hcell⟩ := h.chain.live _ hs.mem
  rw [hs.find st]
  have hmypriv : st.mypriv x.1 = x.2.expvModulepriv.bind fun mypv =>
      (st.privs.cell mypv).bind fun mypriv => mypriv.map fun md => (mypv, md) := by
    simp only [PrivSt.mypriv, hcell, Option.bind_some]
  rw [hmypriv]
  cases hx : x.2.expvModulepriv with
  | none => exact .inl ⟨rfl, fun md => by simp [Expv.value, hx]⟩
  | some q =>
    rw [Option.bind_some]
    rcases hq : st.privs.cell q with _ | _ | md
    · exact .inl ⟨rfl, fun md => by simp [Expv.value, hx, hq]⟩
    · exact .inl ⟨rfl, fun md => by simp [Expv.value, hx, hq]⟩
    · exact .inr ⟨q, md, rfl, rfl, hq, by simp only [Expv.value, hx, hq]⟩

theorem find_none {n : Str} (hno : ∀ y ∈ l, y.2.expvModulename ≠ n) (st : PrivSt) :
    findPriv n (st.hookSt l).mlfiExtrapriv = none := by
  have hfind := findPriv_append (value_names st.privs hno) []
  rw [List.append_nil] at hfind
  exact hfind

/-- `*_exec_eom`. -/
theorem PrivSt.Holds.execEom (h : st.Holds l) (m : Module) (env : Env) (view : View) :
    (st.execEom m env view = none ∧ m.execEom env view (st.hookSt l) = none) ∨
    ∃ r st' l', st.execEom m env view = some (r, st') ∧ st'.Holds l' ∧
      (r = 0 → PrivSt.Leaves m.mymodule st l st' l') ∧ PrivSt.Frame m.mymodule st st' l l' ∧
      m.execEom env view (st.hookSt l) = some (r, st'.hookSt l') := by
  rcases splits_or h.names m.mymodule with ⟨pre, x, post, hs⟩ | hno
  · have heom : st.execEom m env view = (st.mypriv x.1).bind fun (mypv, md) =>
        (m.close env view.config md st.os).bind fun (rc, md, os) =>
          if rc = .success then
            (PrivSt.unlink (lastId none pre) x.1 { st with os }).map fun st => (0, st)
          else some (-1, { st with privs := st.privs.put mypv (some md), os }) := by
      rw [PrivSt.execEom, h.search_found hs]
      rfl
    rcases h.own_cases hs with ⟨hnone, hblock⟩ | ⟨mypv, md, hmypriv, hptr, hv, hfind⟩
    · exact .inl ⟨by rw [heom, hnone]; rfl, (Module.execEom_none (hs.find st) hblock).1⟩
    · rw [hmypriv, Option.bind_some] at heom
      simp only [Module.execEom, hfind, heom]
      show (((m.close env view.config md st.os).bind _ = none) ∧ _) ∨ _
      have hosl : (st.hookSt l).os = st.os := rfl
      rw [hosl]
      rcases hclose : m.close env view.config md st.os with _ | ⟨rc, md', os⟩
      · exact .inl ⟨rfl, rfl⟩
      · refine .inr ?_
        by_cases hrc : rc = .success
        · subst hrc
          have h1 : PrivSt.Holds { st with os } l := ⟨h.chain, h.names, h.apart, h.bound⟩
          obtain ⟨st', hunlink, h2, hf2, hk2⟩ := h1.unlink hs hptr hv
          refine ⟨0, st', pre ++ post, ?_, h2, fun _ => .inl ⟨pre, x, post, hs, rfl⟩,
            ⟨hf2.entries, hf2.privs⟩, ?_⟩
          · simp only [Option.bind_some, if_true, hunlink, Option.map_some]
          · rw [hk2]
            rfl
        · obtain ⟨h2, hf2, hk2⟩ := h.store hs hptr hv md' os
          refine ⟨-1, _, l, ?_, h2, (fun he => by cases he), hf2, ?_⟩
          · simp only [Option.bind_some, if_neg hrc]
          · rw [hk2]
            cases rc with
            | success => exact absurd rfl hrc
            | positive => rfl
            | error => rfl
  · refine .inr ⟨0, st, l, ?_, h, fun _ => .inr ⟨hno, rfl, rfl⟩, ⟨rfl, fun _ _ => rfl⟩, ?_⟩
    · rw [PrivSt.execEom, h.search_none hno]
      rfl
    · simp only [Module.execEom, find_none hno st]

/-- `*_exec_abort`. -/
theorem PrivSt.Holds.execAbort (h : st.Holds l) (m : Module) (env : Env) (view : View) :
    (st.execAbort m = none ∧ m.execAbort env view (st.hookSt l) = none) ∨
    ∃ st' l', st.execAbort m = some (0, st') ∧ st'.Holds l' ∧
      PrivSt.Leaves m.mymodule st l st' l' ∧ PrivSt.Frame m.mymodule st st' l l' ∧
      m.execAbort env view (st.hookSt l) = some (0, st'.hookSt l') := by
  rcases splits_or h.names m.mymodule with ⟨pre, x, post, hs⟩ | hno
  · have habort : st.execAbort m = (st.mypriv x.1).bind fun (_, md) =>
        (PrivSt.unlink (lastId none pre) x.1
          { st with os := abortTempfile md st.os }).map fun st => ((0 : Int), st) := by
      rw [PrivSt.execAbort, h.search_found hs]
      rfl
    rcases h.own_cases hs with ⟨hnone, hblock⟩ | ⟨mypv, md, hmypriv, hptr, hv, hfind⟩
    · exact .inl ⟨by rw [habort, hnone]; rfl,
        (@Module.execEom_none m env view _ _ (hs.find st) hblock).2⟩
    · have h1 : PrivSt.Holds { st with os := abortTempfile md st.os } l :=
        ⟨h.chain, h.names, h.apart, h.bound⟩
      obtain ⟨st', hunlink, h2, hf2, hk2⟩ := h1.unlink hs hptr hv
      refine .inr ⟨st', pre ++ post, ?_, h2, .inl ⟨pre, x, post, hs, rfl⟩,
        ⟨hf2.entries, hf2.privs⟩, ?_⟩
      · rw [habort, hmypriv, Option.bind_some]
        simp only [hunlink, Option.map_some]
      · simp only [Module.execAbort, hfind]
        rw [hk2]
        rfl
  · refine .inr ⟨st, l, ?_, h, .inr ⟨hno, rfl, rfl⟩, ⟨rfl, fun _ _ => rfl⟩, ?_⟩
    · rw [PrivSt.execAbort, h.search_none hno]
      rfl
    · simp only [Module.execAbort, find_none hno st]

/-- What a successful call does to the list. -/
def PrivSt.Moves (n : Str) (c : HookCall) (st : PrivSt) (l : List (Nat × Expv)) (st' : PrivSt)
    (l' : List (Nat × Expv)) : Prop :=
  match c with
  | .header _ _ => Enters n l l'
  | .body _ => Enters n l l'
  | .eom => PrivSt.Leaves n st l st' l'
  | .abort => PrivSt.Leaves n st l st' l'

/-- **A hook**, in memory and on values: both are undefined, or they have the same result, and the
list in memory is what the list of values says. -/
theorem PrivSt.Holds.call (h : st.Holds l) (m : Module) (env : Env) (view : View) (c : HookCall) :
    (st.call m env view c = none ∧ m.call c env view (st.hookSt l) = none) ∨
    ∃ r st' l', st.call m env view c = some (r, st') ∧ st'.Holds l' ∧
      (r = 0 → PrivSt.Moves m.mymodule c st l st' l') ∧ PrivSt.Frame m.mymodule st st' l l' ∧
      m.call c env view (st.hookSt l) = some (r, st'.hookSt l') := by
  cases c with
  | header f v =>
    rcases h.writing m (fun md os => writeHeader env md f v os) env view with
      hnone | ⟨r, st', l', hsome, h', he, hf, hvalue⟩
    · exact .inl hnone
    · exact .inr ⟨r, st', l', hsome, h', fun _ => he, hf, hvalue⟩
  | body b =>
    rcases h.writing m (fun md os => writeBody env md b os) env view with
      hnone | ⟨r, st', l', hsome, h', he, hf, hvalue⟩
    · exact .inl hnone
    · exact .inr ⟨r, st', l', hsome, h', fun _ => he, hf, hvalue⟩
  | eom => exact h.execEom m env view
  | abort =>
    rcases h.execAbort m env view with hnone | ⟨st', l', hsome, h', hl, hf, hvalue⟩
    · exact .inl hnone
    · exact .inr ⟨0, st', l', hsome, h', fun _ => hl, hf, hvalue⟩

end

/-! ## Runs -/

/-- A session starts without entries. -/
theorem PrivSt.Holds.empty (os : Os) : PrivSt.Holds ⟨none, .empty, .empty, os⟩ [] :=
  ⟨rfl, List.nodup_nil, List.nodup_nil, fun q hq => by cases hq⟩

/-- Successful calls of hooks, of any modules and in any order. -/
inductive PrivSt.Runs : PrivSt → PrivSt → Prop
  | refl (st : PrivSt) : Runs st st
  | step {st st1 st2 : PrivSt} (m : Module) (env : Env) (view : View) (c : HookCall) :
      Runs st st1 → st1.call m env view c = some (0, st2) → Runs st st2

theorem PrivSt.Runs.holds {st st' : PrivSt} (hr : PrivSt.Runs st st') {l : List (Nat × Expv)}
    (h : st.Holds l) : ∃ l', st'.Holds l' := by
  induction hr with
  | refl => exact ⟨l, h⟩
  | step m env view c _ hcall ih =>
    obtain ⟨l1, h1⟩ := ih
    rcases h1.call m env view c with ⟨hnone, -⟩ | ⟨r, st', l', hsome, h', -⟩
    · rw [hnone] at hcall
      cases hcall
    · rw [hsome] at hcall
      cases hcall
      exact ⟨l', h'⟩

/-- **The private list**, after any run of successful calls on any well-formed list: the names are
distinct, `*_get_priv` finds the module's own entry or appends one when there is none, and a further
successful call moves the module's own entry only. -/
theorem private_list_frame {st0 st : PrivSt} {l0 : List (Nat × Expv)} (h0 : st0.Holds l0)
    (hr : PrivSt.Runs st0 st) :
    ∃ l, st.Holds l ∧ (l.map (·.2.expvModulename)).Nodup ∧
      (∀ n, ∃ p st', st.getPriv n = some (p, st') ∧
        ((st' = st ∧ ∃ e : Expv, (p, e) ∈ l ∧ e.expvModulename = n) ∨
          ((∀ y ∈ l, y.2.expvModulename ≠ n) ∧ st'.Holds (l ++ [(p, ⟨n, none⟩)]) ∧
            st'.privs = st.privs))) ∧
      ∀ (m : Module) (env : Env) (view : View) (c : HookCall) (st' : PrivSt),
        st.call m env view c = some (0, st') → ∃ l', st'.Holds l' ∧
          PrivSt.Moves m.mymodule c st l st' l' ∧ PrivSt.Frame m.mymodule st st' l l' := by
  obtain ⟨l, h⟩ := hr.holds h0
  refine ⟨l, h, h.names, fun n => ?_, fun m env view c st' hcall => ?_⟩
  · obtain ⟨st1, pre, x, post, hget, h1, hs1, hprivs, -, hgets⟩ := h.getPriv n
    refine ⟨x.1, st1, hget, ?_⟩
    rcases hgets with ⟨rfl, hs⟩ | ⟨hno, rfl, hx, rfl⟩
    · exact .inl ⟨rfl, x.2, hs.mem, hs.name⟩
    · refine .inr ⟨hno, ?_, hprivs⟩
      rw [← hx]
      exact h1
  · rcases h.call m env view c with ⟨hnone, -⟩ | ⟨r, st1, l1, hsome, h1, hmoves, hf, -⟩
    · rw [hnone] at hcall
      cases hcall
    · rw [hsome] at hcall
      cases hcall
      exact ⟨l1, h1, hmoves rfl, hf⟩

/-- The entry of `gzip` in front of the one of `maildrop`. -/
def twoEntries : PrivSt where
  mlfiExtrapriv := some 0
  expv := (Arena.empty.alloc ⟨⟨bytes "gzip", some 0⟩, some 1⟩).alloc ⟨⟨bytes "maildrop", some 1⟩, none⟩
  privs := (Arena.empty.alloc (some headerMd)).alloc (some headerMd)
  os := .start

theorem twoEntries_holds :
    twoEntries.Holds [(0, ⟨bytes "gzip", some 0⟩), (1, ⟨bytes "maildrop", some 1⟩)] where
  chain := ⟨rfl, _, rfl, rfl, _, rfl, rfl⟩
  names := by decide
  apart := by decide
  bound := by decide

/-- `maildrop` takes its entry from behind the other one. -/
theorem private_list_frame_two : ∃ st, twoEntries.call maildrop .fine exampleView .abort = some (0, st) ∧
    (∃ l, st.Holds l ∧ (l.map (·.2.expvModulename)).Nodup) ∧
    st.expv.cell 0 = some ⟨⟨bytes "gzip", some 0⟩, none⟩ ∧ st.expv.cell 1 = none ∧
    st.privs.cell 0 = some (some headerMd) := by
  refine ⟨_, rfl, ?_, rfl, rfl, rfl⟩
  obtain ⟨l, h, hn, -⟩ := private_list_frame twoEntries_holds
    (.step maildrop .fine exampleView .abort (.refl twoEntries) rfl)
  exact ⟨l, h, hn⟩

end Messasy
