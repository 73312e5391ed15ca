import Mathlib.Data.List.Forall2
import Messasy.Config.Read
import Messasy.Milter.Pass

/-!
# Loading modules (`msy_readmodule.c`)

`read_module_config` puts a handle for every `LoadModule` line before the handles it has, and
`msy_module_init` goes through the handles and lets each module put its hooks before the hooks
that are there. So the hooks stand in the order of the lines (`hooks_in_order`). The function
pointers are found afterwards, by the names of the modules. `malloc` succeeds.
-/

namespace Messasy

open Lib

/-! ## The libraries -/

/-- What tells the `_init` functions apart: `MYMODULE`, the module's entries and its settings. -/
structure InitFunction where
  mymodule : Str
  table : List Cfentry
  sizeofConfig : Nat

/-- An opened library as `dlsym` sees it, the `_init` functions apart from the others. An `_init`
function has the name of its module. -/
structure Library (P : Type) where
  dlsymInit : Str → Option InitFunction
  dlsym : Str → Option P
  named : ∀ name f, dlsymInit name = some f → name = f.mymodule ++ bytes "_init"

/-- `struct modulehandle`. -/
structure Modulehandle (P : Type) where
  mhModulename : Str
  mhPtr : Library P

/-- The files that the lines name, as `is_readable_file` and `dlopen` see them. -/
structure Libraries (P : Type) where
  isReadableFile : Str → Bool
  dlopen : Str → Option (Library P)

/-! ## The lines -/

/-- `status`, with the words that are set. -/
inductive LineStatus
  | head
  | modname (h : Str)
  | path (h m : Str)
  | end_ (h m p : Str)
  deriving DecidableEq

/-- The end of a word. -/
def LineStatus.word (ptmp : Str) : LineStatus → LineStatus
  | .head => .modname ptmp
  | .modname h => .path h ptmp
  | .path h m => .end_ h m ptmp
  | .end_ h m p => .end_ h m p

/-- The loop over the characters of a line; `ptmp` is the word so far. Every blank ends a word, so
that two blanks have an empty word between them. -/
def readModuleLine : LineStatus → Option Str → Str → Option (LineStatus × Option Str)
  | status, ptmp, [] => some (status, ptmp)
  | status, ptmp, c :: pline =>
    if isblank c then readModuleLine (status.word (ptmp.getD [])) none pline
    else match status with
      | .end_ _ _ _ => none
      | status => readModuleLine status (some (ptmp.getD [] ++ [c])) pline

def MODSTR : Str := bytes "LoadModule"

/-- The name and the path that a line gives. Without a word behind the name the path is `NULL`,
which `is_readable_file` refuses. -/
def loadModule (line : Str) : Option (Str × Str) :=
  match readModuleLine .head none line with
  | some (.path head modname, some modpath)
  | some (.end_ head modname modpath, _) =>
    if caseEq head MODSTR then some (modname, modpath) else none
  | _ => none

section
variable {P : Type}

/-- `set_lib_handle`. -/
def setLibHandle (modname : Str) (libptr : Library P) (list : List (Modulehandle P)) :
    List (Modulehandle P) :=
  ⟨modname, libptr⟩ :: list

/-- The loop over the lines. -/
def readModuleLines (libs : Libraries P) :
    List Str → List (Modulehandle P) → Int × List (Modulehandle P)
  | [], mhandleList => (0, mhandleList)
  | line :: lines, mhandleList =>
    if skipped line then readModuleLines libs lines mhandleList
    else match loadModule line with
      | none => (-1, mhandleList)
      | some (modname, modpath) =>
        if libs.isReadableFile modpath then
          match libs.dlopen modpath with
          | none => (-1, mhandleList)
          | some libHandle =>
            readModuleLines libs lines (setLibHandle modname libHandle mhandleList)
        else (-1, mhandleList)

/-- `read_module_config`; `file` is the text of the file, when it can be read. -/
def readModuleConfig (libs : Libraries P) (file : Option Str)
    (mhandleList : List (Modulehandle P)) : Int × List (Modulehandle P) :=
  match file with
  | none => (-1, mhandleList)
  | some text =>
    let (ret, mhandleList) := readModuleLines libs (configLines [] text).1 mhandleList
    if (configLines [] text).2 then (ret, mhandleList) else (-1, mhandleList)

/-- The lines that are neither comments nor empty. -/
def moduleLines (lines : List Str) : List Str := lines.filter fun line => !skipped line

/-- The names and the paths that the lines of a file give. -/
def loadLines (text : Str) : List (Str × Str) :=
  (moduleLines (configLines [] text).1).filterMap loadModule

/-! ## The hooks -/

/-- `maildrop_init` and its siblings, for the module of `f`. -/
def InitFunction.run (f : InitFunction) (st : InitState P) : InitState P :=
  let newCfgsize := st.cfgsize + f.sizeofConfig
  let block := (st.cfg.block.realloc newCfgsize).memset ⟨st.cfgsize, newCfgsize - st.cfgsize⟩
  let newCfesize := st.cfesize + f.table.length * sizeofCfentry
  let newCfe := reallocArray st.cfe (newCfesize / sizeofCfentry)
  let newCfe := memcpyArray newCfe (st.cfesize / sizeofCfentry) f.table
  let newCfe := updateOffsets newCfe (st.cfesize / sizeofCfentry) f.table.length st.cfgsize
  let hook (suffix : String) (list : List (Modulelist P)) :=
    ⟨f.mymodule, f.mymodule ++ bytes suffix, none⟩ :: list
  { cfe := newCfe
    cfesize := newCfesize
    cfg :=
      { block
        cfExecHeader := hook "_exec_header" st.cfg.cfExecHeader
        cfExecBody := hook "_exec_body" st.cfg.cfExecBody
        cfExecEom := hook "_exec_eom" st.cfg.cfExecEom
        cfExecEoh := st.cfg.cfExecEoh
        cfExecAbort := hook "_exec_abort" st.cfg.cfExecAbort
        cfExtraconfig := ⟨f.mymodule, st.cfgsize⟩ :: st.cfg.cfExtraconfig }
    cfgsize := newCfgsize }

/-- The first loop of `msy_module_init`. -/
def initHandles : List (Modulehandle P) → InitState P → Option (InitState P)
  | [], st => some st
  | p :: list, st => (p.mhPtr.dlsymInit (p.mhModulename ++ bytes "_init")).bind fun f =>
    initHandles list (f.run st)

/-- `set_dlsymbol`, for the handle `h`. -/
def Modulehandle.setDlsymbol (h : Modulehandle P) :
    List (Modulelist P) → Option (List (Modulelist P))
  | [] => some []
  | p :: list =>
    if h.mhModulename = p.mlistModulename then
      (h.mhPtr.dlsym p.mlistFuncname).bind fun f =>
        (h.setDlsymbol list).map ({ p with mlistFuncptr := some f } :: ·)
    else (h.setDlsymbol list).map (p :: ·)

/-- The second loop. -/
def resolveHandles : List (Modulehandle P) → ConfigData P → Option (ConfigData P)
  | [], cfg => some cfg
  | p :: list, cfg =>
    (p.setDlsymbol cfg.cfExecHeader).bind fun header =>
    (p.setDlsymbol cfg.cfExecBody).bind fun body =>
    (p.setDlsymbol cfg.cfExecEoh).bind fun eoh =>
    (p.setDlsymbol cfg.cfExecEom).bind fun eom =>
    (p.setDlsymbol cfg.cfExecAbort).bind fun abort =>
    resolveHandles list { cfg with
      cfExecHeader := header, cfExecBody := body, cfExecEoh := eoh, cfExecEom := eom,
      cfExecAbort := abort }

/-- `msy_module_init` for any loaded libraries, with the block at the address `addr` in the end. -/
def initLoaded (addr : Nat) (mhandleList : List (Modulehandle P)) (st : InitState P) :
    Option (InitState P) :=
  (initHandles mhandleList st).bind fun st =>
  (resolveHandles mhandleList st.cfg).map fun cfg =>
  { st with cfg := { cfg with
      cfExtraconfig := cfg.cfExtraconfig.map fun p => { p with excfConfig := addr + p.excfConfig } } }

/-- The loop of the `msy_exec_*` functions; `call` is the call of a function pointer. -/
def execHooks {σ : Type} (call : P → σ → Option (Int × σ)) :
    List (Modulelist P) → σ → Option (Int × σ)
  | [], s => some (0, s)
  | p :: list, s =>
    p.mlistFuncptr.bind fun func => (call func s).bind fun (check, s) =>
      if check ≠ 0 then some (check, s) else execHooks call list s

end

/-- The four lists that the modules register hooks in. -/
inductive HookEvent
  | header
  | body
  | eom
  | abort
  deriving DecidableEq

def HookEvent.suffix : HookEvent → String
  | .header => "_exec_header"
  | .body => "_exec_body"
  | .eom => "_exec_eom"
  | .abort => "_exec_abort"

def ConfigData.hooks {P : Type} (cfg : ConfigData P) : HookEvent → List (Modulelist P)
  | .header => cfg.cfExecHeader
  | .body => cfg.cfExecBody
  | .eom => cfg.cfExecEom
  | .abort => cfg.cfExecAbort

/-! ## The model of the four modules is an instance -/

/-- The library of a module of the source. -/
def Lm.library {P : Type} (dlsym : Lm → Str → Option P) (m : Lm) : Library P where
  dlsymInit name := if name = m.mymodule ++ bytes "_init" then
    (dlsym m name).map fun _ => ⟨m.mymodule, m.table, m.sizeofConfig⟩ else none
  dlsym := dlsym m
  named name f h := by
    split at h
    · rename_i hname
      obtain ⟨_, -, rfl⟩ := Option.map_eq_some_iff.1 h
      exact hname
    · cases h

def Lm.handle {P : Type} (dlsym : Lm → Str → Option P) (m : Lm) : Modulehandle P :=
  ⟨m.mymodule, m.library dlsym⟩

section
variable {P : Type} (dlsym : Lm → Str → Option P)

theorem initHandles_lm : ∀ (mods : List Lm) (st : InitState P),
    initHandles (mods.map (Lm.handle dlsym)) st = initModules dlsym mods st
  | [], _ => rfl
  | m :: mods, st => by
    simp only [List.map_cons, initHandles, initModules, Lm.handle, Lm.library, if_true]
    cases dlsym m (m.mymodule ++ bytes "_init") with
    | none => rfl
    | some f => exact initHandles_lm mods (moduleInit m st)

theorem setDlsymbol_lm (m : Lm) : ∀ list : List (Modulelist P),
    (m.handle dlsym).setDlsymbol list = setDlsymbol dlsym m list
  | [] => rfl
  | p :: list => by
    simp only [Modulehandle.setDlsymbol, setDlsymbol, setDlsymbol_lm m list]
    rfl

theorem resolveHandles_lm : ∀ (mods : List Lm) (cfg : ConfigData P),
    resolveHandles (mods.map (Lm.handle dlsym)) cfg = setDlsymbols dlsym mods cfg
  | [], _ => rfl
  | m :: mods, cfg => by
    simp only [List.map_cons, resolveHandles, setDlsymbols, setDlsymbol_lm, resolveHandles_lm mods]

theorem initLoaded_lm (addr : Nat) (mods : List Lm) (st : InitState P) :
    initLoaded addr (mods.map (Lm.handle dlsym)) st = msyModuleInit dlsym addr mods st := by
  simp only [initLoaded, msyModuleInit, initHandles_lm, resolveHandles_lm]

end

/-! ## The handles -/

section
variable {P : Type} {libs : Libraries P}

/-- The handle of a `LoadModule` line. -/
def Loads (libs : Libraries P) (line : Str × Str) (h : Modulehandle P) : Prop :=
  h.mhModulename = line.1 ∧ libs.dlopen line.2 = some h.mhPtr

/-- The handles come before the ones that were there, the last line's first. No line is left
out. -/
theorem readModuleLines_loads : ∀ (lines : List Str) {list list' : List (Modulehandle P)},
    readModuleLines libs lines list = (0, list') →
      ∃ (loads : List (Str × Str)) (loaded : List (Modulehandle P)),
        (moduleLines lines).map loadModule = loads.map some ∧
        List.Forall₂ (Loads libs) loads loaded ∧ list' = loaded.reverse ++ list
  | [], list, list', h => by
    cases h
    exact ⟨[], [], rfl, .nil, rfl⟩
  | line :: lines, list, list', h => by
    unfold readModuleLines at h
    by_cases hs : skipped line = true
    · rw [if_pos hs] at h
      rw [moduleLines, List.filter_cons_of_neg (by simp [hs])]
      exact readModuleLines_loads lines h
    · rw [if_neg hs] at h
      rw [moduleLines, List.filter_cons_of_pos (by simpa using hs), List.map_cons]
      cases hl : loadModule line with
      | none =>
        rw [hl] at h
        cases congrArg Prod.fst h
      | some l =>
        obtain ⟨modname, modpath⟩ := l
        simp only [hl] at h
        split at h
        · cases ho : libs.dlopen modpath with
          | none =>
            rw [ho] at h
            cases congrArg Prod.fst h
          | some libHandle =>
            rw [ho] at h
            obtain ⟨loads, loaded, hmap, hloads, hlist⟩ := readModuleLines_loads lines h
            refine ⟨(modname, modpath) :: loads, ⟨modname, libHandle⟩ :: loaded,
              congrArg (some (modname, modpath) :: ·) hmap, .cons ⟨rfl, ho⟩ hloads, ?_⟩
            rw [hlist, setLibHandle, List.reverse_cons, List.append_assoc, List.singleton_append]
        · cases congrArg Prod.fst h

theorem readModuleConfig_loads {text : Str} {list list' : List (Modulehandle P)}
    (h : readModuleConfig libs (some text) list = (0, list')) :
    (moduleLines (configLines [] text).1).map loadModule = (loadLines text).map some ∧
      ∃ loaded, List.Forall₂ (Loads libs) (loadLines text) loaded ∧
        list' = loaded.reverse ++ list := by
  unfold readModuleConfig at h
  by_cases hend : (configLines [] text).2 = true
  · simp only [if_pos hend] at h
    obtain ⟨loads, loaded, hmap, hloads, hlist⟩ := readModuleLines_loads _ h
    have hlines : loadLines text = loads := by
      show (moduleLines _).filterMap (id ∘ loadModule) = loads
      rw [← List.filterMap_map, hmap, List.filterMap_map]
      exact List.filterMap_some
    rw [hlines]
    exact ⟨hmap, loaded, hloads, hlist⟩
  · simp only [if_neg hend] at h
    cases congrArg Prod.fst h

theorem loads_names : ∀ {lines : List (Str × Str)} {loaded : List (Modulehandle P)},
    List.Forall₂ (Loads libs) lines loaded →
      loaded.map (·.mhModulename) = lines.map Prod.fst
  | _, _, .nil => rfl
  | _, _, .cons hl hloads => by
    rw [List.map_cons, List.map_cons, hl.1, loads_names hloads]

end

/-! ## The lists -/

section
variable {P : Type} {e : HookEvent}

/-- The hook of a module for an event. -/
def Modulehandle.hook (e : HookEvent) (h : Modulehandle P) : Modulelist P :=
  ⟨h.mhModulename, h.mhModulename ++ bytes e.suffix,
    h.mhPtr.dlsym (h.mhModulename ++ bytes e.suffix)⟩

/-- The same before the function is looked up. -/
def Modulehandle.unresolved (e : HookEvent) (h : Modulehandle P) : Modulelist P :=
  ⟨h.mhModulename, h.mhModulename ++ bytes e.suffix, none⟩

/-- The `_init` functions put their hooks in front, in the order of the handles. -/
theorem initHandles_hooks : ∀ (list : List (Modulehandle P)) {st st' : InitState P},
    initHandles list st = some st' →
      st'.cfg.hooks e = list.reverse.map (·.unresolved e) ++ st.cfg.hooks e
  | [], st, st', h => by
    cases h
    rfl
  | p :: list, st, st', h => by
    obtain ⟨f, hf, h⟩ := Option.bind_eq_some_iff.1 h
    have hname : p.mhModulename = f.mymodule :=
      List.append_cancel_right (p.mhPtr.named _ f hf)
    have hrun : (f.run st).cfg.hooks e = p.unresolved e :: st.cfg.hooks e := by
      unfold Modulehandle.unresolved
      rw [hname]
      cases e <;> rfl
    rw [initHandles_hooks list h, hrun, List.reverse_cons, List.map_append, List.append_assoc]
    rfl

/-- What the handle `h` makes of a hook. -/
def Modulehandle.resolve (h : Modulehandle P) (p : Modulelist P) : Modulelist P :=
  if h.mhModulename = p.mlistModulename then
    { p with mlistFuncptr := h.mhPtr.dlsym p.mlistFuncname }
  else p

/-- `set_dlsymbol` goes through the whole list, and finds every function it looks for. -/
theorem setDlsymbol_resolve {h : Modulehandle P} : ∀ {list list' : List (Modulelist P)},
    h.setDlsymbol list = some list' → list' = list.map h.resolve ∧
      ∀ p ∈ list, p.mlistModulename = h.mhModulename → h.mhPtr.dlsym p.mlistFuncname ≠ none
  | [], _, hs => by
    cases hs
    exact ⟨rfl, fun p hp => by cases hp⟩
  | p :: list, list', hs => by
    unfold Modulehandle.setDlsymbol at hs
    by_cases hname : h.mhModulename = p.mlistModulename
    · rw [if_pos hname] at hs
      obtain ⟨f, hf, hs⟩ := Option.bind_eq_some_iff.1 hs
      obtain ⟨rest, hrest, rfl⟩ := Option.map_eq_some_iff.1 hs
      obtain ⟨rfl, hfound⟩ := setDlsymbol_resolve hrest
      refine ⟨?_, fun q hq hn => ?_⟩
      · rw [List.map_cons, Modulehandle.resolve, if_pos hname, hf]
      · rcases List.mem_cons.1 hq with rfl | hq
        · rw [hf]
          exact Option.some_ne_none f
        · exact hfound q hq hn
    · rw [if_neg hname] at hs
      obtain ⟨rest, hrest, rfl⟩ := Option.map_eq_some_iff.1 hs
      obtain ⟨rfl, hfound⟩ := setDlsymbol_resolve hrest
      refine ⟨?_, fun q hq hn => ?_⟩
      · rw [List.map_cons, Modulehandle.resolve, if_neg hname]
      · rcases List.mem_cons.1 hq with rfl | hq
        · exact absurd hn.symm hname
        · exact hfound q hq hn

/-- A round of the second loop, seen from one of the lists. -/
theorem resolveHandles_cons {p : Modulehandle P} {list : List (Modulehandle P)}
    {cfg cfg' : ConfigData P} (h : resolveHandles (p :: list) cfg = some cfg') :
    ∃ cfg1, p.setDlsymbol (cfg.hooks e) = some (cfg1.hooks e) ∧
      resolveHandles list cfg1 = some cfg' := by
  unfold resolveHandles at h
  obtain ⟨header, hheader, h⟩ := Option.bind_eq_some_iff.1 h
  obtain ⟨body, hbody, h⟩ := Option.bind_eq_some_iff.1 h
  obtain ⟨eoh, -, h⟩ := Option.bind_eq_some_iff.1 h
  obtain ⟨eom, heom, h⟩ := Option.bind_eq_some_iff.1 h
  obtain ⟨abort, habort, h⟩ := Option.bind_eq_some_iff.1 h
  refine ⟨_, ?_, h⟩
  cases e with
  | header => exact hheader
  | body => exact hbody
  | eom => exact heom
  | abort => exact habort

/-- The second loop, for modules with distinct names: each hook gets the function of its own
module, and the others stay as they are. -/
theorem resolveHandles_map : ∀ {list : List (Modulehandle P)} {cfg cfg' : ConfigData P},
    (list.map (·.mhModulename)).Nodup → resolveHandles list cfg = some cfg' →
    ∃ f : Modulelist P → Modulelist P, cfg'.hooks e = (cfg.hooks e).map f ∧
      (∀ p, p.mlistModulename ∉ list.map (·.mhModulename) → f p = p) ∧
      ∀ h ∈ list, ∀ p ∈ cfg.hooks e, p.mlistModulename = h.mhModulename →
        f p = h.resolve p ∧ h.mhPtr.dlsym p.mlistFuncname ≠ none
  | [], cfg, cfg', _, hr => by
    cases hr
    exact ⟨id, (List.map_id _).symm, fun p _ => rfl, fun h hh => by cases hh⟩
  | h :: list, cfg, cfg', hn, hr => by
    rw [List.map_cons, List.nodup_cons] at hn
    obtain ⟨cfg1, hs, hr⟩ := resolveHandles_cons (e := e) hr
    obtain ⟨f, hf, hother, hown⟩ := resolveHandles_map hn.2 hr
    obtain ⟨hlist, hfound⟩ := setDlsymbol_resolve hs
    have hskip : ∀ p, p.mlistModulename ≠ h.mhModulename → h.resolve p = p := fun p hp => by
      rw [Modulehandle.resolve, if_neg (Ne.symm hp)]
    refine ⟨f ∘ h.resolve, by rw [hf, hlist, List.map_map], fun p hp => ?_, fun g hg p hp he => ?_⟩
    · rw [List.map_cons, List.mem_cons, not_or] at hp
      show f (h.resolve p) = p
      rw [hskip p hp.1, hother p hp.2]
    · rcases List.mem_cons.1 hg with rfl | hg
      · refine ⟨hother _ ?_, hfound p hp he⟩
        rw [Modulehandle.resolve, if_pos he.symm]
        show p.mlistModulename ∉ _
        rw [he]
        exact hn.1
      · have hne : p.mlistModulename ≠ h.mhModulename := fun hph =>
          hn.1 (hph ▸ he ▸ List.mem_map_of_mem hg)
        have hp1 : p ∈ cfg1.hooks e := hlist ▸ List.mem_map.2 ⟨p, hp, hskip p hne⟩
        show f (h.resolve p) = _ ∧ _
        rw [hskip p hne]
        exact hown g hg p hp1 he

/-- What `msy_module_init` leaves in the four lists, when they are empty at first: the hooks in the
opposite order of the handles. -/
theorem initLoaded_hooks {addr : Nat} {list : List (Modulehandle P)} {st : InitState P}
    (hn : (list.map (·.mhModulename)).Nodup) (h : initLoaded addr list (initState P) = some st) :
    st.cfg.hooks e = list.reverse.map (·.hook e) ∧
      ∀ g ∈ list, (g.hook e).mlistFuncptr ≠ none := by
  obtain ⟨st1, hi, h⟩ := Option.bind_eq_some_iff.1 h
  obtain ⟨cfg, hr, rfl⟩ := Option.map_eq_some_iff.1 h
  obtain ⟨f, hf, -, hown⟩ := resolveHandles_map (e := e) hn hr
  have hstart : (initState P).cfg.hooks e = [] := by cases e <;> rfl
  have hlist : st1.cfg.hooks e = list.reverse.map (·.unresolved e) := by
    rw [initHandles_hooks list hi, hstart, List.append_nil]
  have hmem : ∀ g ∈ list, g.unresolved e ∈ st1.cfg.hooks e := fun g hg => by
    rw [hlist]
    exact List.mem_map_of_mem (List.mem_reverse.2 hg)
  refine ⟨?_, fun g hg => (hown g hg _ (hmem g hg) rfl).2⟩
  have hkeep : ∀ excf, ConfigData.hooks { cfg with cfExtraconfig := excf } e = cfg.hooks e := by
    intro excf
    cases e <;> rfl
  rw [hkeep, hf, hlist, List.map_map]
  apply List.map_congr_left
  intro g hg
  have hg := List.mem_reverse.1 hg
  show f (g.unresolved e) = g.hook e
  rw [(hown g hg _ (hmem g hg) rfl).1, Modulehandle.resolve, Modulehandle.unresolved, if_pos rfl]
  rfl

end

/-! ## The loop -/

section
variable {P σ : Type} {call : P → σ → Option (Int × σ)} {s s' : σ} {r : Int}

/-- These functions return 0, one after the other, and lead from `s` to `s'`. -/
def AllZero (call : P → σ → Option (Int × σ)) : List P → σ → σ → Prop
  | [], s, s' => s = s'
  | f :: fs, s, s' => ∃ s1, call f s = some (0, s1) ∧ AllZero call fs s1 s'

/-- The functions run in this order: all of them return 0, or those before the first one that does
not, whose result is the result and behind which no other is called. -/
def RunsInOrder (call : P → σ → Option (Int × σ)) (fs : List P) (s : σ) (r : Int) (s' : σ) :
    Prop :=
  (r = 0 ∧ AllZero call fs s s') ∨
    ∃ pre f post s1, fs = pre ++ f :: post ∧ AllZero call pre s s1 ∧ call f s1 = some (r, s') ∧
      r ≠ 0

theorem runsInOrder_cons {f : P} {fs : List P} : RunsInOrder call (f :: fs) s r s' ↔
    (∃ s1, call f s = some (0, s1) ∧ RunsInOrder call fs s1 r s') ∨
      (call f s = some (r, s') ∧ r ≠ 0) := by
  constructor
  · rintro (⟨rfl, s1, hf, hall⟩ | ⟨pre, g, post, s1, heq, hall, hg, hr⟩)
    · exact .inl ⟨s1, hf, .inl ⟨rfl, hall⟩⟩
    · cases pre with
      | nil =>
        obtain ⟨rfl, rfl⟩ := List.cons.inj heq
        obtain rfl : s = s1 := hall
        exact .inr ⟨hg, hr⟩
      | cons h pre =>
        obtain ⟨rfl, rfl⟩ := List.cons.inj heq
        obtain ⟨s2, hf, hall⟩ := hall
        exact .inl ⟨s2, hf, .inr ⟨pre, g, post, s1, rfl, hall, hg, hr⟩⟩
  · rintro (⟨s1, hf, ⟨rfl, hall⟩ | ⟨pre, g, post, s2, rfl, hall, hg, hr⟩⟩ | ⟨hf, hr⟩)
    · exact .inl ⟨rfl, s1, hf, hall⟩
    · exact .inr ⟨f :: pre, g, post, s2, rfl, ⟨s1, hf, hall⟩, hg, hr⟩
    · exact .inr ⟨[], f, fs, s, rfl, rfl, hf, hr⟩

/-- The loop over a list whose functions were found. -/
theorem execHooks_iff : ∀ {list : List (Modulelist P)} {fs : List P} {s : σ},
    list.map (·.mlistFuncptr) = fs.map some →
      (execHooks call list s = some (r, s') ↔ RunsInOrder call fs s r s')
  | [], fs, s, hlist => by
    obtain rfl : fs = [] := List.map_eq_nil_iff.1 hlist.symm
    constructor
    · intro h
      cases h
      exact .inl ⟨rfl, rfl⟩
    · rintro (⟨rfl, rfl⟩ | ⟨pre, f, post, -, heq, -⟩)
      · rfl
      · cases pre <;> cases heq
  | p :: list, [], s, hlist => by cases hlist
  | p :: list, f :: fs, s, hlist => by
    obtain ⟨hp, hlist⟩ := List.cons.inj hlist
    have hp : p.mlistFuncptr = some f := hp
    have ih : ∀ s, execHooks call list s = some (r, s') ↔ RunsInOrder call fs s r s' :=
      fun s => execHooks_iff hlist
    rw [runsInOrder_cons, execHooks, hp, Option.bind_some]
    cases hf : call f s with
    | none => simp
    | some x =>
      obtain ⟨check, s1⟩ := x
      by_cases hc : check = 0
      · subst hc
        simp only [Option.bind_some, ne_eq, not_true_eq_false, if_false, ih, Option.some.injEq,
          Prod.mk.injEq, true_and, exists_eq_left']
        constructor
        · exact Or.inl
        · rintro (h | ⟨⟨h, -⟩, hr⟩)
          · exact h
          · exact absurd h.symm hr
      · simp only [Option.bind_some, ne_eq, hc, not_false_eq_true, if_true, Option.some.injEq,
          Prod.mk.injEq, false_and, exists_false, false_or]
        constructor
        · rintro ⟨rfl, rfl⟩
          exact ⟨⟨rfl, rfl⟩, hc⟩
        · rintro ⟨h, -⟩
          exact h

end

/-! ## The order -/

/-- What the two functions leave for an event: one hook for each module in the order of `loaded`,
each with the function of its own library, and a loop that runs them in this order. -/
structure HooksFollow {P : Type} (loaded : List (Modulehandle P)) (cfg : ConfigData P)
    (e : HookEvent) : Prop where
  hooks : cfg.hooks e = loaded.map (·.hook e)
  runs : ∃ fs : List P,
    loaded.map (fun h => h.mhPtr.dlsym (h.mhModulename ++ bytes e.suffix)) = fs.map some ∧
    ∀ {σ : Type} (call : P → σ → Option (Int × σ)) (s : σ) (r : Int) (s' : σ),
      execHooks call (cfg.hooks e) s = some (r, s') ↔ RunsInOrder call fs s r s'

theorem exists_map_some {α : Type} : ∀ {l : List (Option α)}, (∀ x ∈ l, x ≠ none) →
    ∃ fs : List α, l = fs.map some
  | [], _ => ⟨[], rfl⟩
  | x :: l, h => by
    obtain ⟨f, rfl⟩ := Option.ne_none_iff_exists'.1 (h x List.mem_cons_self)
    obtain ⟨fs, rfl⟩ := exists_map_some fun y hy => h y (List.mem_cons_of_mem _ hy)
    exact ⟨f :: fs, rfl⟩

/-- The libraries of two modules. -/
def twoLibraries : Libraries Str where
  isReadableFile _ := true
  dlopen path :=
    if path = bytes "/l.so" then some (Lm.lda.library fun _ name => some name)
    else if path = bytes "/g.so" then some (Lm.gzip.library fun _ name => some name)
    else none

/-- A file that loads them. -/
def twoLines : Str := bytes "LoadModule lda /l.so\n# compressed\nloadmodule gzip /g.so \n"

/-- **The order of the hooks** is the order of the `LoadModule` lines, for any file that is read,
any libraries and any number of modules with distinct names. -/
theorem hooks_in_order {P : Type} {libs : Libraries P} {text : Str} {addr : Nat}
    {mhandleList : List (Modulehandle P)} {st : InitState P}
    (hn : ((loadLines text).map Prod.fst).Nodup)
    (hread : readModuleConfig libs (some text) [] = (0, mhandleList))
    (hinit : initLoaded addr mhandleList (initState P) = some st) :
    (moduleLines (configLines [] text).1).map loadModule = (loadLines text).map some ∧
      ∃ loaded : List (Modulehandle P), List.Forall₂ (Loads libs) (loadLines text) loaded ∧
        ∀ e, HooksFollow loaded st.cfg e := by
  obtain ⟨hmap, loaded, hloads, rfl⟩ := readModuleConfig_loads hread
  refine ⟨hmap, loaded, hloads, fun e => ?_⟩
  have hnames : (loaded.reverse.map (·.mhModulename)).Nodup := by
    rw [List.map_reverse, List.nodup_reverse, loads_names hloads]
    exact hn
  rw [List.append_nil] at hinit
  obtain ⟨hhooks, hfound⟩ := initLoaded_hooks (e := e) hnames hinit
  rw [List.reverse_reverse] at hhooks
  obtain ⟨fs, hfs⟩ := exists_map_some
    (l := loaded.map fun h => h.mhPtr.dlsym (h.mhModulename ++ bytes e.suffix)) fun x hx => by
      obtain ⟨g, hg, rfl⟩ := List.mem_map.1 hx
      exact hfound g (List.mem_reverse.2 hg)
  refine ⟨hhooks, fs, hfs, fun call s r s' => execHooks_iff ?_⟩
  rw [hhooks, List.map_map, ← hfs]
  rfl

/-- Two modules, with a comment between their lines: the functions are called in the order of the
lines, and a loop ends with the first one that fails. -/
theorem hooks_in_order_two : ∃ st : InitState Str,
    (∃ loaded : List (Modulehandle Str), List.Forall₂ (Loads twoLibraries)
      [(bytes "lda", bytes "/l.so"), (bytes "gzip", bytes "/g.so")] loaded ∧
        ∀ e, HooksFollow loaded st.cfg e) ∧
    execHooks (fun f s => some (0, s ++ [f])) st.cfg.cfExecEom [] =
      some (0, [bytes "lda_exec_eom", bytes "gzip_exec_eom"]) ∧
    execHooks (fun f s => some (-1, s ++ [f])) st.cfg.cfExecEom [] =
      some (-1, [bytes "lda_exec_eom"]) := by
  have hlines : loadLines twoLines =
      [(bytes "lda", bytes "/l.so"), (bytes "gzip", bytes "/g.so")] := by decide +kernel
  have hread : readModuleConfig twoLibraries (some twoLines) [] =
      (0, [Lm.gzip.handle fun _ name => some name, Lm.lda.handle fun _ name => some name]) := by
    rfl
  have hinit : (initLoaded 4096 [Lm.gzip.handle fun _ name => some name,
      Lm.lda.handle fun _ name => some name] (initState Str)).isSome = true := by decide +kernel
  have h := hooks_in_order (by rw [hlines]; decide +kernel) hread (Option.some_get hinit).symm
  rw [hlines] at h
  exact ⟨_, h.2, rfl, rfl⟩

/-! ## The hooks of the sessions -/

/-- The list that a call goes through. -/
def HookCall.event : HookCall → HookEvent
  | .header _ _ => .header
  | .body _ => .body
  | .eom => .eom
  | .abort => .abort

/-- When the functions of the libraries are the hooks of `mods`, the loop over a list is the loop
of the sessions over the hooks registered for these modules. -/
theorem execHooks_loading {mods : List Module} {loaded : List (Modulehandle (HookCall → Hook))}
    {cfg : ConfigData (HookCall → Hook)} (settings : Settings) (c : HookCall)
    (hfollow : HooksFollow loaded cfg c.event)
    (hown : List.Forall₂ (fun (m : Module) h => (h.hook c.event).mlistFuncptr = some m.call)
      mods loaded) (env : Env) (view : View) (st : HookSt) :
    execHooks (fun func st => func c env view st) (cfg.hooks c.event) st =
      msyExec ((settings.loading mods).registered c) env view st := by
  rw [hfollow.hooks, registered_loading]
  clear hfollow
  induction hown generalizing st with
  | nil => rfl
  | @cons m h mods loaded hm _ ih =>
    have hcall : execHooks (fun func st => func c env view st)
        ((h :: loaded).map (·.hook c.event)) st =
          (m.call c env view st).bind fun x => if x.1 ≠ 0 then some x
            else execHooks (fun func st => func c env view st)
              (loaded.map (·.hook c.event)) x.2 := by
      rw [List.map_cons, execHooks, hm]
      rfl
    rw [hcall, List.map_cons, msyExec_cons]
    cases m.call c env view st with
    | none => rfl
    | some x =>
      obtain ⟨check, st1⟩ := x
      by_cases hc : check = 0
      · simpa only [Option.bind_some, hc, ne_eq, not_true_eq_false, if_false, if_true] using ih st1
      · simp only [Option.bind_some, ne_eq, hc, not_false_eq_true, if_true, if_false]

end Messasy
