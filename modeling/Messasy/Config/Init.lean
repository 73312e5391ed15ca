import Mathlib.Data.List.Nodup
import Messasy.Config.Entry

/-!
# Module initialisation (`msy_config.c`, the modules' `_init`)

`msy_module_init` lets every loaded module register its hooks, enlarge the config block and the
entry table, and leave the offset of its own settings in the extra config list; at the end the
offsets become pointers. `malloc` and `realloc` succeed.

The block is `struct config` followed by one region for each module, and no two settings overlap
(`msyModuleInit_layout`).
-/

namespace Messasy

open Lib

/-- What an entry stores: a number, or a pointer to a string of its own. -/
inductive CfValue
  | word (v : UInt32)
  | string (s : Str)
  deriving DecidableEq

/-- `struct modulelist`; `P` is the type of function pointers. -/
structure Modulelist (P : Type) where
  mlistModulename : Str
  mlistFuncname : Str
  mlistFuncptr : Option P

/-- `struct extra_config`: an offset into the block first, a pointer in the end. -/
structure ExcfNode where
  excfModulename : Str
  excfConfig : Nat
  deriving DecidableEq

/-- The config block, and the lists that `struct config` heads. -/
structure ConfigData (P : Type) where
  block : Block CfValue
  cfExecHeader : List (Modulelist P)
  cfExecBody : List (Modulelist P)
  cfExecEom : List (Modulelist P)
  cfExecEoh : List (Modulelist P)
  cfExecAbort : List (Modulelist P)
  cfExtraconfig : List ExcfNode

/-- `init_config`. -/
def initConfig (P : Type) : ConfigData P :=
  ⟨(Block.malloc sizeofConfig).memset ⟨0, sizeofConfig⟩, [], [], [], [], [], []⟩

/-- The arguments of `msy_module_init`; an entry that is not written yet is `none`. -/
structure InitState (P : Type) where
  cfe : List (Option Cfentry)
  cfesize : Nat
  cfg : ConfigData P
  cfgsize : Nat

def reallocArray {α : Type} (l : List (Option α)) (n : Nat) : List (Option α) :=
  (l ++ List.replicate (n - l.length) none).take n

def memcpyArray {α : Type} (l : List (Option α)) (i : Nat) (src : List α) : List (Option α) :=
  l.take i ++ (src.map some ++ l.drop (i + src.length))

/-- The loop over `cf_dataoffset`, for `n` entries from `i` on. -/
def updateOffsets (l : List (Option Cfentry)) (i n cfgsize : Nat) : List (Option Cfentry) :=
  l.take i ++ (((l.drop i).take n).map (Option.map fun e =>
    { e with cfDataoffset := e.cfDataoffset + cfgsize }) ++ l.drop (i + n))

section
variable {P : Type}

/-- `maildrop_set_module_list` and its siblings. -/
def setModuleList (m : Lm) (hook : String) (list : List (Modulelist P)) : List (Modulelist P) :=
  ⟨m.mymodule, m.mymodule ++ bytes hook, none⟩ :: list

/-- `maildrop_set_extra_config` and its siblings. -/
def setExtraConfig (m : Lm) (cfgsize : Nat) (list : List ExcfNode) : List ExcfNode :=
  ⟨m.mymodule, cfgsize⟩ :: list

/-- The entries of a module's own table. -/
def Lm.table (m : Lm) : List Cfentry := m.cfe.map (EntryDecl.cfentry memberCtype m.members)

/-- `maildrop_init` and its siblings. -/
def moduleInit (m : Lm) (st : InitState P) : InitState P :=
  let newCfgsize := st.cfgsize + m.sizeofConfig
  let block := (st.cfg.block.realloc newCfgsize).memset ⟨st.cfgsize, newCfgsize - st.cfgsize⟩
  let newCfesize := st.cfesize + m.table.length * sizeofCfentry
  let newCfe := reallocArray st.cfe (newCfesize / sizeofCfentry)
  let newCfe := memcpyArray newCfe (st.cfesize / sizeofCfentry) m.table
  let newCfe := updateOffsets newCfe (st.cfesize / sizeofCfentry) m.table.length st.cfgsize
  { cfe := newCfe
    cfesize := newCfesize
    cfg :=
      { block
        cfExecHeader := setModuleList m "_exec_header" st.cfg.cfExecHeader
        cfExecBody := setModuleList m "_exec_body" st.cfg.cfExecBody
        cfExecEom := setModuleList m "_exec_eom" st.cfg.cfExecEom
        cfExecEoh := st.cfg.cfExecEoh
        cfExecAbort := setModuleList m "_exec_abort" st.cfg.cfExecAbort
        cfExtraconfig := setExtraConfig m st.cfgsize st.cfg.cfExtraconfig }
    cfgsize := newCfgsize }

/-- The `init` functions, as far as `dlsym` finds them. -/
def initModules (dlsym : Lm → Str → Option P) : List Lm → InitState P → Option (InitState P)
  | [], st => some st
  | m :: mods, st => (dlsym m (m.mymodule ++ bytes "_init")).bind fun _ =>
    initModules dlsym mods (moduleInit m st)

/-- `set_dlsymbol`. -/
def setDlsymbol (dlsym : Lm → Str → Option P) (m : Lm) :
    List (Modulelist P) → Option (List (Modulelist P))
  | [] => some []
  | p :: list =>
    if m.mymodule = p.mlistModulename then
      (dlsym m p.mlistFuncname).bind fun f =>
        (setDlsymbol dlsym m list).map ({ p with mlistFuncptr := some f } :: ·)
    else (setDlsymbol dlsym m list).map (p :: ·)

/-- The second loop of `msy_module_init`. -/
def setDlsymbols (dlsym : Lm → Str → Option P) : List Lm → ConfigData P → Option (ConfigData P)
  | [], cfg => some cfg
  | m :: mods, cfg =>
    (setDlsymbol dlsym m cfg.cfExecHeader).bind fun header =>
    (setDlsymbol dlsym m cfg.cfExecBody).bind fun body =>
    (setDlsymbol dlsym m cfg.cfExecEoh).bind fun eoh =>
    (setDlsymbol dlsym m cfg.cfExecEom).bind fun eom =>
    (setDlsymbol dlsym m cfg.cfExecAbort).bind fun abort =>
    setDlsymbols dlsym mods { cfg with
      cfExecHeader := header, cfExecBody := body, cfExecEoh := eoh, cfExecEom := eom,
      cfExecAbort := abort }

/-- `msy_module_init`, with the block at the address `addr` in the end. -/
def msyModuleInit (dlsym : Lm → Str → Option P) (addr : Nat) (mods : List Lm)
    (st : InitState P) : Option (InitState P) :=
  (initModules dlsym mods st).bind fun st =>
  (setDlsymbols dlsym mods st.cfg).map fun cfg =>
  { st with cfg := { cfg with
      cfExtraconfig := cfg.cfExtraconfig.map fun p => { p with excfConfig := addr + p.excfConfig } } }

/-- The entries of `cfe`. -/
def coreTable : List Cfentry := Messasy.cfe.map (EntryDecl.cfentry ConfigMember.ctype ConfigMember.all)

/-- What `set_config` gives to `msy_module_init`. -/
def initState (P : Type) : InitState P :=
  ⟨coreTable.map some, coreTable.length * sizeofCfentry, initConfig P, sizeofConfig⟩

/-- How a module finds its settings. -/
def findExcf (mymodule : Str) (list : List ExcfNode) : Option Nat :=
  (list.find? fun p => p.excfModulename = mymodule).map (·.excfConfig)

end

/-! ## Growing the table -/

section
variable {α : Type}

theorem reallocArray_eq (l : List (Option α)) (k : Nat) :
    reallocArray l (l.length + k) = l ++ List.replicate k none := by
  rw [reallocArray, Nat.add_sub_cancel_left]
  apply List.take_of_length_le
  rw [List.length_append, List.length_replicate]

theorem memcpyArray_eq (l : List (Option α)) (src : List α) :
    memcpyArray (l ++ List.replicate src.length none) l.length src = l ++ src.map some := by
  have hdrop : (l ++ List.replicate src.length none).drop (l.length + src.length) = [] := by
    apply List.drop_eq_nil_of_le
    rw [List.length_append, List.length_replicate]
  rw [memcpyArray, hdrop, List.take_left' rfl, List.append_nil]

theorem updateOffsets_eq (l : List (Option Cfentry)) (src : List Cfentry) (cfgsize : Nat) :
    updateOffsets (l ++ src.map some) l.length src.length cfgsize =
      l ++ src.map fun e => some { e with cfDataoffset := e.cfDataoffset + cfgsize } := by
  have hdrop : (l ++ src.map some).drop (l.length + src.length) = [] := by
    apply List.drop_eq_nil_of_le
    rw [List.length_append, List.length_map]
  have htake : (src.map some).take src.length = src.map some := by
    apply List.take_of_length_le
    rw [List.length_map]
  rw [updateOffsets, hdrop, List.take_left' rfl, List.drop_left' rfl, htake, List.append_nil,
    List.map_map]
  rfl

end

/-! ## The regions -/

/-- One region for each module, from the offset `off` on. -/
def regions : Nat → List Lm → List (Lm × Extent)
  | _, [] => []
  | off, m :: mods => (m, ⟨off, m.sizeofConfig⟩) :: regions (off + m.sizeofConfig) mods

/-- Where the last region ends. -/
def regionsEnd : Nat → List Lm → Nat
  | off, [] => off
  | off, m :: mods => regionsEnd (off + m.sizeofConfig) mods

/-- The entries of a module that store into the region at `start`. -/
def Lm.tableAt (m : Lm) (start : Nat) : List Cfentry :=
  m.table.map fun e => { e with cfDataoffset := e.cfDataoffset + start }

theorem le_regionsEnd : ∀ (mods : List Lm) (off : Nat), off ≤ regionsEnd off mods
  | [], off => Nat.le_refl off
  | _ :: mods, off => Nat.le_trans (Nat.le_add_right off _) (le_regionsEnd mods _)

theorem regions_bounds : ∀ (mods : List Lm) (off : Nat), ∀ x ∈ regions off mods,
    off ≤ x.2.start ∧ x.2.stop ≤ regionsEnd off mods ∧ x.2.width = x.1.sizeofConfig
  | [], _, x, hx => by cases hx
  | m :: mods, off, x, hx => by
    rcases List.mem_cons.1 hx with rfl | hx
    · exact ⟨Nat.le_refl _, le_regionsEnd mods _, rfl⟩
    · obtain ⟨hlo, hhi, hw⟩ := regions_bounds mods _ x hx
      exact ⟨Nat.le_trans (Nat.le_add_right off _) hlo, hhi, hw⟩

theorem regions_disjoint : ∀ (mods : List Lm) (off : Nat),
    (regions off mods).Pairwise fun x y => x.2.Disjoint y.2
  | [], _ => List.Pairwise.nil
  | m :: mods, off => by
    refine List.Pairwise.cons (fun y hy => .inl ?_) (regions_disjoint mods _)
    exact (regions_bounds mods _ y hy).1

theorem regions_fst : ∀ (mods : List Lm) (off : Nat), (regions off mods).map Prod.fst = mods
  | [], _ => rfl
  | m :: mods, _ => congrArg (m :: ·) (regions_fst mods _)

section
variable {P : Type} {st st' : InitState P} {dlsym : Lm → Str → Option P} {mods : List Lm}

/-- The table, the sizes and the extra config list are what the regions say. -/
structure Laid (table : List Cfentry) (excf : List ExcfNode) (st : InitState P) : Prop where
  block : st.cfg.block.size = st.cfgsize
  cfesize : st.cfesize = st.cfe.length * sizeofCfentry
  cfe : st.cfe = table.map some
  excf : st.cfg.cfExtraconfig = excf

theorem Laid.start : Laid coreTable [] (initState P) :=
  ⟨rfl, by rw [initState, List.length_map], rfl, rfl⟩

/-- The `init` function of a module adds its region, its entries and its offset. -/
theorem Laid.moduleInit {table : List Cfentry} {excf : List ExcfNode} (h : Laid table excf st)
    (m : Lm) : Laid (table ++ m.tableAt st.cfgsize) (⟨m.mymodule, st.cfgsize⟩ :: excf)
      (moduleInit m st) ∧ (moduleInit m st).cfgsize = st.cfgsize + m.sizeofConfig := by
  have hpos : 0 < sizeofCfentry := by decide +kernel
  have hold : st.cfesize / sizeofCfentry = st.cfe.length := by
    rw [h.cfesize, Nat.mul_div_cancel _ hpos]
  have hnew : (st.cfesize + m.table.length * sizeofCfentry) / sizeofCfentry =
      st.cfe.length + m.table.length := by
    rw [h.cfesize, ← Nat.add_mul, Nat.mul_div_cancel _ hpos]
  have hcfe : (Messasy.moduleInit m st).cfe = (table ++ m.tableAt st.cfgsize).map some := by
    show updateOffsets (memcpyArray (reallocArray st.cfe
      ((st.cfesize + m.table.length * sizeofCfentry) / sizeofCfentry))
      (st.cfesize / sizeofCfentry) m.table) (st.cfesize / sizeofCfentry) m.table.length
      st.cfgsize = _
    rw [hnew, hold, reallocArray_eq, memcpyArray_eq, updateOffsets_eq, List.map_append, h.cfe,
      Lm.tableAt, List.map_map]
    rfl
  refine ⟨⟨rfl, ?_, hcfe, ?_⟩, rfl⟩
  · rw [hcfe, List.length_map, List.length_append, Lm.tableAt, List.length_map, Nat.add_mul]
    show st.cfesize + m.table.length * sizeofCfentry = _
    rw [h.cfesize, h.cfe, List.length_map]
  · show setExtraConfig m st.cfgsize st.cfg.cfExtraconfig = _
    rw [h.excf, setExtraConfig]

theorem initModules_laid : ∀ (mods : List Lm) {st : InitState P} {table : List Cfentry}
    {excf : List ExcfNode}, Laid table excf st → initModules dlsym mods st = some st' →
    Laid (table ++ (regions st.cfgsize mods).flatMap fun x => x.1.tableAt x.2.start)
      ((regions st.cfgsize mods).reverse.map (fun x => ⟨x.1.mymodule, x.2.start⟩) ++ excf) st' ∧
      st'.cfgsize = regionsEnd st.cfgsize mods
  | [], st, table, excf, h, hi => by
    cases hi
    refine ⟨?_, rfl⟩
    rw [regions, List.flatMap_nil, List.append_nil]
    exact h
  | m :: mods, st, table, excf, h, hi => by
    obtain ⟨f, -, hi⟩ := Option.bind_eq_some_iff.1 hi
    obtain ⟨h1, hsize⟩ := h.moduleInit m
    obtain ⟨h2, hend⟩ := initModules_laid mods h1 hi
    rw [hsize] at h2 hend
    refine ⟨?_, hend⟩
    simp only [regions, List.flatMap_cons, List.reverse_cons, List.map_append, List.map_cons,
      List.map_nil, List.append_assoc, List.singleton_append] at h2 ⊢
    exact h2

/-- Resolving the hooks leaves the block and the extra config list alone. -/
theorem setDlsymbols_keeps : ∀ {mods : List Lm} {cfg cfg' : ConfigData P},
    setDlsymbols dlsym mods cfg = some cfg' →
      cfg'.block = cfg.block ∧ cfg'.cfExtraconfig = cfg.cfExtraconfig
  | [], cfg, cfg', h => by
    cases h
    exact ⟨rfl, rfl⟩
  | m :: mods, cfg, cfg', h => by
    unfold setDlsymbols at h
    obtain ⟨_, -, h⟩ := Option.bind_eq_some_iff.1 h
    obtain ⟨_, -, h⟩ := Option.bind_eq_some_iff.1 h
    obtain ⟨_, -, h⟩ := Option.bind_eq_some_iff.1 h
    obtain ⟨_, -, h⟩ := Option.bind_eq_some_iff.1 h
    obtain ⟨_, -, h⟩ := Option.bind_eq_some_iff.1 h
    have ih := setDlsymbols_keeps h
    exact ih

end

/-! ## The settings -/

/-- A member of `struct config` or of a module's struct. -/
inductive Member
  | core (f : ConfigMember)
  | lm (m : Lm) (f : LmMember)
  deriving DecidableEq

/-- Where a member lies in the block. -/
inductive Member.At (mods : List Lm) : Member → Extent → Prop
  | core (f : ConfigMember) : At mods (.core f) f.extent
  | lm {m : Lm} {r : Extent} {f : LmMember} : (m, r) ∈ regions sizeofConfig mods →
      f ∈ m.members → At mods (.lm m f) ((m.extent f).shift r.start)

section
variable {mods : List Lm} {p q : Member} {r s : Extent}

theorem ConfigMember.extent_inside (f : ConfigMember) :
    f.extent.Inside ⟨0, sizeofConfig⟩ ∧ f.extent.width = f.ctype.size :=
  memberExtent_inside ctype_align_pos f.mem_all

theorem ConfigMember.extent_stop (f : ConfigMember) : f.extent.stop ≤ sizeofConfig := by
  have h := f.extent_inside.1.2
  simp only [Extent.stop, Nat.zero_add] at h ⊢
  exact h

theorem ConfigMember.extent_width_pos (f : ConfigMember) : 0 < f.extent.width := by
  rw [f.extent_inside.2]
  cases f <;> decide

theorem Lm.extent_inside {m : Lm} {f : LmMember} (hf : f ∈ m.members) :
    (m.extent f).Inside ⟨0, m.sizeofConfig⟩ ∧ (m.extent f).width = POINTER.size :=
  memberExtent_inside memberCtype_align_pos hf

/-- A module's member lies in the module's region. -/
theorem Member.At.inside_region {m : Lm} {f : LmMember}
    (hr : (m, r) ∈ regions sizeofConfig mods) (hf : f ∈ m.members) :
    ((m.extent f).shift r.start).Inside r := by
  have hin := (Lm.extent_inside hf).1.shift r.start
  have hw : r.width = m.sizeofConfig := (regions_bounds mods _ _ hr).2.2
  rw [show Extent.shift r.start ⟨0, m.sizeofConfig⟩ = r by rw [← hw]; rfl] at hin
  exact hin

/-- The regions lie behind `struct config`. -/
theorem region_disjoint {x : Lm × Extent} (hx : x ∈ regions sizeofConfig mods) :
    Extent.Disjoint ⟨0, sizeofConfig⟩ x.2 := by
  have hstart := (regions_bounds mods _ x hx).1
  refine .inl ?_
  rw [Extent.stop, Nat.zero_add]
  exact hstart

theorem regions_unique (hn : mods.Nodup) {m : Lm} (hr : (m, r) ∈ regions sizeofConfig mods)
    (hs : (m, s) ∈ regions sizeofConfig mods) : r = s := by
  rw [← regions_fst mods sizeofConfig] at hn
  exact congrArg Prod.snd (List.inj_on_of_nodup_map hn hr hs rfl)

/-- Two members do not overlap. -/
theorem Member.At.disjoint (hn : mods.Nodup) (hp : p.At mods r) (hq : q.At mods s)
    (hne : p ≠ q) : r.Disjoint s := by
  cases hp with
  | core f =>
    cases hq with
    | core g =>
      exact memberExtent_disjoint ctype_align_pos f.mem_all g.mem_all fun he =>
        hne (congrArg Member.core he)
    | lm hs hg =>
      exact (region_disjoint hs).inside f.extent_inside.1 (Member.At.inside_region hs hg)
  | @lm m r f hr hf =>
    cases hq with
    | core g =>
      exact (region_disjoint hr).symm.inside (Member.At.inside_region hr hf) g.extent_inside.1
    | @lm m' s g hs hg =>
      by_cases hm : m = m'
      · subst hm
        obtain rfl := regions_unique hn hr hs
        refine (memberExtent_disjoint Lm.memberCtype_align_pos hf hg fun he => hne ?_).shift _
        rw [he]
      · have : Std.Symm fun x y : Lm × Extent => x.2.Disjoint y.2 := ⟨fun _ _ h => h.symm⟩
        have hdisj := (regions_disjoint mods sizeofConfig).forall hr hs
          fun he => hm (congrArg Prod.fst he)
        exact hdisj.inside (Member.At.inside_region hr hf) (Member.At.inside_region hs hg)

theorem Member.At.width_pos (hp : p.At mods r) : 0 < r.width := by
  cases hp with
  | core f => exact f.extent_width_pos
  | @lm m r f hr hf =>
    show 0 < (m.extent f).width
    rw [(Lm.extent_inside hf).2]
    decide

/-- An entry of `cfe` stores at the member it names. -/
theorem coreTable_extent {e : Cfentry} (he : e ∈ coreTable) :
    ∃ d ∈ Messasy.cfe, e.cfName = d.cfName ∧ e.cfType = d.cfType ∧ e.cfDefault = d.cfDefault ∧
      e.extent = d.member.extent := by
  obtain ⟨d, hd, rfl⟩ := List.mem_map.1 he
  refine ⟨d, hd, rfl, rfl, rfl, ?_⟩
  have hw : d.member.extent.width = d.cfType.ctype.size := by
    rw [d.member.extent_inside.2, cfe_width d hd]
  show (⟨d.member.extent.start, d.cfType.ctype.size⟩ : Extent) = d.member.extent
  rw [← hw]

/-- An entry of a module stores in the module's region, at the member it names. -/
theorem Lm.tableAt_extent {m : Lm} {start : Nat} {e : Cfentry} (he : e ∈ m.tableAt start) :
    ∃ d ∈ m.cfe, e.cfName = d.cfName ∧ e.cfType = d.cfType ∧ e.cfDefault = d.cfDefault ∧
      d.member ∈ m.members ∧ e.extent = (m.extent d.member).shift start := by
  obtain ⟨e', he', rfl⟩ := List.mem_map.1 he
  obtain ⟨d, hd, rfl⟩ := List.mem_map.1 he'
  have hmem : d.member ∈ m.members := m.cfe_members ▸ List.mem_map_of_mem hd
  refine ⟨d, hd, rfl, rfl, rfl, hmem, ?_⟩
  have hw : (m.extent d.member).width = d.cfType.ctype.size := by
    rw [(Lm.extent_inside hmem).2, m.cfe_width d hd]
    rfl
  show (⟨(m.extent d.member).start + start, d.cfType.ctype.size⟩ : Extent) = _
  rw [Nat.add_comm, ← hw]
  rfl

theorem findExcf_of_mem {p : ExcfNode} : ∀ {list : List ExcfNode},
    (list.map (·.excfModulename)).Nodup → p ∈ list →
      findExcf p.excfModulename list = some p.excfConfig
  | [], _, h => by cases h
  | x :: list, hn, h => by
    rw [List.map_cons, List.nodup_cons] at hn
    unfold findExcf
    rcases List.mem_cons.1 h with rfl | h
    · rw [List.find?_cons_of_pos (by simp)]
      rfl
    · have hx : x.excfModulename ≠ p.excfModulename :=
        fun he => hn.1 (he ▸ List.mem_map_of_mem h)
      rw [List.find?_cons_of_neg (by simpa using hx)]
      exact findExcf_of_mem hn.2 h

end

section
variable {P : Type} {st st' : InitState P} {dlsym : Lm → Str → Option P} {mods : List Lm}

/-- Nothing is stored in `struct config` yet. -/
structure Cleared (st : InitState P) : Prop where
  size : st.cfg.block.size = st.cfgsize
  room : sizeofConfig ≤ st.cfgsize
  zero : ∀ f : ConfigMember, st.cfg.block.load f.extent = .zero

theorem Cleared.start : Cleared (initState P) :=
  ⟨rfl, Nat.le_refl _, fun f => Block.load_memset f.extent_inside.1⟩

theorem Cleared.moduleInit (h : Cleared st) (m : Lm) : Cleared (moduleInit m st) := by
  refine ⟨rfl, Nat.le_trans h.room (Nat.le_add_right _ _), fun f => ?_⟩
  have hstop : f.extent.stop ≤ sizeofConfig := f.extent_stop
  have hpos : 0 < f.extent.width := f.extent_width_pos
  show (((st.cfg.block.realloc _).memset ⟨st.cfgsize, _⟩).load f.extent) = _
  rw [Block.load_memset_of_disjoint hpos (.inr (Nat.le_trans hstop h.room)),
    Block.load_realloc hpos (h.size ▸ Nat.le_trans hstop h.room), h.zero]

theorem initModules_cleared : ∀ (mods : List Lm) {st : InitState P}, Cleared st →
    initModules dlsym mods st = some st' → Cleared st'
  | [], _, h, hi => by
    cases hi
    exact h
  | m :: mods, _, h, hi => by
    obtain ⟨_, -, hi⟩ := Option.bind_eq_some_iff.1 hi
    exact initModules_cleared mods (h.moduleInit m) hi

/-- The table for `read_config`, which may name a module twice. -/
def fullTable (mods : List Lm) : List Cfentry :=
  coreTable ++ (regions sizeofConfig mods).flatMap fun x => x.1.tableAt x.2.start

/-- What `read_config` works on. -/
theorem msyModuleInit_table {addr : Nat} (h : msyModuleInit dlsym addr mods (initState P) = some st) :
    st.cfe = (fullTable mods).map some ∧ st.cfesize = st.cfe.length * sizeofCfentry ∧
      Cleared st := by
  obtain ⟨st1, hi, h⟩ := Option.bind_eq_some_iff.1 h
  obtain ⟨cfg, hs, rfl⟩ := Option.map_eq_some_iff.1 h
  obtain ⟨hlaid, -⟩ := initModules_laid mods .start hi
  have hclear := initModules_cleared mods .start hi
  obtain ⟨hblock, -⟩ := setDlsymbols_keeps hs
  refine ⟨hlaid.cfe, hlaid.cfesize, ?_, hclear.room, fun f => ?_⟩
  · show cfg.block.size = _
    rw [hblock]
    exact hclear.size
  · show cfg.block.load f.extent = _
    rw [hblock]
    exact hclear.zero f

/-- An entry of a module stores behind `struct config`. -/
theorem fullTable_rest {e : Cfentry}
    (he : e ∈ (regions sizeofConfig mods).flatMap fun x => x.1.tableAt x.2.start)
    (f : ConfigMember) : e.extent.Disjoint f.extent := by
  obtain ⟨x, hx, he⟩ := List.mem_flatMap.1 he
  obtain ⟨d, -, -, -, -, hmem, hextent⟩ := Lm.tableAt_extent he
  rw [hextent]
  exact (region_disjoint hx).symm.inside (Member.At.inside_region hx hmem) f.extent_inside.1

end

/-- **The config block** behind `msy_module_init`: where the regions lie, what the entry table
holds, and where the entries store. -/
structure ConfigLayout {P : Type} (addr : Nat) (mods : List Lm) (st : InitState P) : Prop where
  /-- The block is `struct config` and one region for each module. -/
  modules : (regions sizeofConfig mods).map Prod.fst = mods
  size : st.cfg.block.size = regionsEnd sizeofConfig mods
  inside : ∀ x ∈ regions sizeofConfig mods, x.2.width = x.1.sizeofConfig ∧
    Extent.Disjoint ⟨0, sizeofConfig⟩ x.2 ∧ x.2.Inside ⟨0, st.cfg.block.size⟩
  disjoint : (regions sizeofConfig mods).Pairwise fun x y => x.2.Disjoint y.2
  /-- The table is `cfe` and the modules' own entries. -/
  table : st.cfe = (coreTable ++
    (regions sizeofConfig mods).flatMap fun x => x.1.tableAt x.2.start).map some
  count : st.cfesize = st.cfe.length * sizeofCfentry
  core : ∀ e ∈ coreTable, ∃ d ∈ Messasy.cfe, e.cfName = d.cfName ∧
    Member.At mods (.core d.member) e.extent
  own : ∀ x ∈ regions sizeofConfig mods, ∀ e ∈ x.1.tableAt x.2.start, e.extent.Inside x.2 ∧
    ∃ d ∈ x.1.cfe, e.cfName = d.cfName ∧ Member.At mods (.lm x.1 d.member) e.extent
  /-- A module finds its own region. -/
  pointer : ∀ x ∈ regions sizeofConfig mods,
    findExcf x.1.mymodule st.cfg.cfExtraconfig = some (addr + x.2.start)
  /-- A store into a member changes no other member. -/
  frame : ∀ (b : Block CfValue) (v : CfValue) (p q : Member) (r s : Extent), p.At mods r →
    q.At mods s → p ≠ q → (b.store r v).load s = b.load s

/-- **The layout**, for any list of distinct modules. -/
theorem msyModuleInit_layout {P : Type} {dlsym : Lm → Str → Option P} {addr : Nat}
    {mods : List Lm} {st : InitState P} (hn : mods.Nodup)
    (h : msyModuleInit dlsym addr mods (initState P) = some st) : ConfigLayout addr mods st := by
  obtain ⟨st1, hi, h⟩ := Option.bind_eq_some_iff.1 h
  obtain ⟨cfg, hs, rfl⟩ := Option.map_eq_some_iff.1 h
  obtain ⟨hlaid, hsize⟩ := initModules_laid mods .start hi
  obtain ⟨hblock, hexcf⟩ := setDlsymbols_keeps hs
  have hsize : cfg.block.size = regionsEnd sizeofConfig mods := by
    rw [hblock, hlaid.block, hsize]
    rfl
  refine ⟨regions_fst mods _, hsize, fun x hx => ?_, regions_disjoint mods _, hlaid.cfe,
    hlaid.cfesize, fun e he => ?_, fun x hx e he => ?_, fun x hx => ?_, ?_⟩
  · obtain ⟨-, hend, hw⟩ := regions_bounds mods _ x hx
    refine ⟨hw, region_disjoint hx, Nat.zero_le _, ?_⟩
    show x.2.stop ≤ 0 + cfg.block.size
    rw [Nat.zero_add, hsize]
    exact hend
  · obtain ⟨d, hd, hname, -, -, hextent⟩ := coreTable_extent he
    exact ⟨d, hd, hname, hextent ▸ .core d.member⟩
  · obtain ⟨d, hd, hname, -, -, hmem, hextent⟩ := Lm.tableAt_extent he
    rw [hextent]
    exact ⟨Member.At.inside_region hx hmem, d, hd, hname, .lm hx hmem⟩
  · have hnames : ((regions sizeofConfig mods).reverse.map fun x => x.1.mymodule).Nodup := by
      rw [List.map_reverse, List.nodup_reverse, show (fun x : Lm × Extent => x.1.mymodule) =
        Lm.mymodule ∘ Prod.fst from rfl, ← List.map_map, regions_fst]
      exact hn.map fun m m' he => Lm.mymodule_injective he
    have hlist : cfg.cfExtraconfig.map (fun p => { p with excfConfig := addr + p.excfConfig }) =
        (regions sizeofConfig mods).reverse.map
          fun x => ⟨x.1.mymodule, addr + x.2.start⟩ := by
      rw [hexcf, hlaid.excf, List.append_nil, List.map_map]
      rfl
    show findExcf x.1.mymodule (cfg.cfExtraconfig.map _) = _
    rw [hlist]
    exact findExcf_of_mem (p := ⟨x.1.mymodule, addr + x.2.start⟩)
      (by rw [List.map_map]; exact hnames)
      (List.mem_map.2 ⟨x, List.mem_reverse.2 hx, rfl⟩)
  · intro b v p q r s hp hq hne
    exact Block.load_store_of_disjoint hq.width_pos (hp.disjoint hn hq hne) v

/-- Three modules, the command of the last one in a region of one pointer. -/
theorem msyModuleInit_layout_three : ∃ st : InitState Unit,
    ConfigLayout 4096 [.gzip, .maildrop, .lda] st ∧
      (regions sizeofConfig [.gzip, .maildrop, .lda]).map (·.2) =
        [⟨304, 40⟩, ⟨344, 32⟩, ⟨376, 8⟩] := by
  have h : (msyModuleInit (fun _ _ => some ()) 4096 [.gzip, .maildrop, .lda]
      (initState Unit)).isSome = true := by decide +kernel
  exact ⟨_, msyModuleInit_layout (by decide) (Option.some_get h).symm, by decide +kernel⟩

end Messasy
