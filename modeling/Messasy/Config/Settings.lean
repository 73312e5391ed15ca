import Messasy.Config.LoadModule
import Messasy.Config.Order
import Messasy.Module.Lda
import Messasy.Module.Levels
import Messasy.Module.Maildrop
import Messasy.Module.Zip

/-!
# The settings of the sessions

From the block of an accepted configuration to what the callbacks read: the members of
`struct config`, and for each module the settings that it finds by its own name. Every module's
string entry has a check that refuses the empty text, so none of them is NULL, and each has passed
its check or is the default (`Entered.string`); the hooks stand in the order of the modules
(`setConfig_serves`).
-/

namespace Messasy

open Lib

/-- The code of a module. -/
def Lm.code : Lm → Module
  | .maildrop => Messasy.maildrop
  | .gzip => Messasy.gzip
  | .enczip => Messasy.enczip
  | .lda => Messasy.lda

/-- The module of a name. -/
def Lm.ofName (mymodule : Str) : Option Lm :=
  [Lm.maildrop, .gzip, .enczip, .lda].find? fun m => m.mymodule = mymodule

section
variable {P : Type}

/-- A member of a module's struct, which starts at `off`; NULL where nothing was stored. -/
def ConfigData.setting (cfg : ConfigData P) (m : Lm) (off : Nat) (f : LmMember) : Option Str :=
  match cfg.block.load ((m.extent f).shift off) with
  | .value (.string s) => some s
  | _ => none

def ConfigData.folderConfig (cfg : ConfigData P) (m : Lm) (off : Nat) : Option FolderConfig := do
  let cfMaildir ← cfg.setting m off .maildir
  let cfMailfolder ← cfg.setting m off .mailfolder
  let cfDotdelimiter ← cfg.setting m off .dotdelimiter
  let cfSlashdelimiter ← cfg.setting m off .slashdelimiter
  return ⟨cfMaildir, cfMailfolder, cfDotdelimiter, cfSlashdelimiter⟩

/-- What a module reads behind its pointer; `none` when a setting is NULL. -/
def ConfigData.moduleConfig (cfg : ConfigData P) (m : Lm) (off : Nat) : Option ModuleConfig :=
  match m with
  | .maildrop => (cfg.folderConfig .maildrop off).map .maildrop
  | .gzip => do
    let cfGzipcommand ← cfg.setting .gzip off .command
    let folder ← cfg.folderConfig .gzip off
    return .gzip cfGzipcommand folder
  | .enczip => do
    let cfEnczipcommand ← cfg.setting .enczip off .command
    let cfEnczippassword ← cfg.setting .enczip off .password
    let folder ← cfg.folderConfig .enczip off
    return .enczip cfEnczipcommand cfEnczippassword folder
  | .lda => (cfg.setting .lda off .command).map .lda

/-- A node of `cf_extraconfig` with what it points to; the block is at the address `addr`. -/
def ConfigData.extraConfig (cfg : ConfigData P) (addr : Nat) (p : ExcfNode) :
    Option ExtraConfig := do
  let m ← Lm.ofName p.excfModulename
  let config ← cfg.moduleConfig m (p.excfConfig - addr)
  return ⟨p.excfModulename, config⟩

/-- What the callbacks read of a configuration. -/
def LoadedConfig.settings (cfg : LoadedConfig P) (addr : Nat) : Settings where
  cfErroractionConv := cfg.cfErroractionConv
  cfSavepolicyConv := cfg.cfSavepolicyConv
  cfMydomain := (cfg.data.pointer .cfMydomain).getD []
  cfSavemailaddress := (cfg.data.pointer .cfSavemailaddress).getD []
  cfSaveignoreheaderRegex := cfg.cfSaveignoreheaderRegex
  cfDefaultdomain := (cfg.data.pointer .cfDefaultdomain).getD []
  cfLdapcheck := (cfg.data.number .cfLdapcheck).toNat
  cfLdapmailfilter := cfg.data.pointer .cfLdapmailfilter
  cfMsyhostname := cfg.cfMsyhostname
  cfExtraconfig := cfg.data.cfExtraconfig.filterMap (cfg.data.extraConfig addr)

/-- The functions that a list of hooks points to. -/
def hookFunctions (list : List (Modulelist P)) : List P := list.filterMap (·.mlistFuncptr)

/-- The configuration of a session, with the hooks that the lists point to. -/
def LoadedConfig.config (cfg : LoadedConfig (HookCall → Hook)) (addr : Nat) : Config :=
  { cfg.settings addr with
    cfExecHeader := (hookFunctions cfg.data.cfExecHeader).map fun func headerf headerv =>
      func (.header headerf headerv)
    cfExecBody := (hookFunctions cfg.data.cfExecBody).map fun func bodyp => func (.body bodyp)
    cfExecEom := (hookFunctions cfg.data.cfExecEom).map fun func => func .eom
    cfExecAbort := (hookFunctions cfg.data.cfExecAbort).map fun func => func .abort }

end

/-! ## Each entry of the table gets its own lines -/

section
variable {mods : List Lm} {i : Nat} {e : Cfentry}

theorem Lm.cfe_names (m : Lm) : (m.cfe.map fun d => lower d.cfName).Nodup := by
  cases m <;> decide +kernel

theorem Lm.cfe_names_core (m : Lm) : ∀ name ∈ m.cfe.map (fun d => lower d.cfName),
    name ∉ Messasy.cfe.map fun d => lower d.cfName := by
  cases m <;> decide +kernel

theorem Lm.cfe_names_other {m m' : Lm} (h : m ≠ m') : ∀ name ∈ m.cfe.map (fun d => lower d.cfName),
    name ∉ m'.cfe.map fun d => lower d.cfName := by
  revert h
  cases m <;> cases m' <;> decide +kernel

/-- The names of the table, in lower case. -/
theorem fullTable_map_names (mods : List Lm) :
    (fullTable mods).map (fun e => lower e.cfName) = Messasy.cfe.map (fun d => lower d.cfName) ++
      mods.flatMap fun m => m.cfe.map fun d => lower d.cfName := by
  have hmods : ((regions sizeofConfig mods).flatMap fun x => x.1.cfe.map fun d =>
      lower d.cfName) = mods.flatMap fun m => m.cfe.map fun d => lower d.cfName := by
    conv_rhs => rw [← regions_fst mods sizeofConfig, List.flatMap_map]
  rw [fullTable, List.map_append, List.map_flatMap, ← hmods, coreTable, List.map_map]
  congr 1
  apply List.flatMap_congr
  intro x _
  rw [Lm.tableAt, Lm.table, List.map_map, List.map_map]
  rfl

theorem fullTable_names (hn : mods.Nodup) :
    ((fullTable mods).map fun e => lower e.cfName).Nodup := by
  rw [fullTable_map_names, List.nodup_append]
  refine ⟨Messasy.cfe_names, ?_, fun name hname name' hname' he => ?_⟩
  · rw [List.nodup_flatMap]
    refine ⟨fun m _ => m.cfe_names, ?_⟩
    exact hn.imp fun h name hname hname' => Lm.cfe_names_other h name hname hname'
  · obtain ⟨m, -, hm⟩ := List.mem_flatMap.1 hname'
    exact m.cfe_names_core name' hm (he ▸ hname)

/-- Every entry of the table gets its own lines and stores at its own place. -/
theorem fullTable_owns (hn : mods.Nodup) (he : (fullTable mods)[i]? = some e) :
    Owns (fullTable mods) i e := by
  have hmem := List.mem_of_getElem? he
  refine ⟨he, fun j hj x hx line hline => ?_, fun j x hx hj => ?_, ?_⟩
  · exact keyValue_unique (fullTable_plain mods x (List.mem_of_getElem? hx))
      (fullTable_plain mods e hmem)
      (ne_of_nodup_map (fullTable_names hn) hx he (Nat.ne_of_lt hj)) hline
  · exact (fullTable_apart mods).disjoint hx he hj
  · show 0 < e.cfType.ctype.size
    cases e.cfType <;> exact Nat.succ_pos _

end

/-! ## A string entry is set -/

section
variable {env : ConfEnv} {lines : List Str} {start : Loaded CfValue} {e : Cfentry}
  {data : Block CfValue} {c : StrCheck} {str : Str}

theorem readString_accepted {cfCheck : Option StrCheck}
    (h : readString env cfCheck str ≠ .error) : (cfCheck.bind fun c => c.run env str) = none := by
  by_contra hcheck
  exact h (if_pos hcheck)

/-- An entry with a check that refuses the empty text holds a text that passed the check, or its
default. -/
theorem Entered.string (h : Entered env lines start e data) (ht : e.cfType = .string (some c))
    (hempty : c.run env [] ≠ none) : ∃ s, data.load e.extent = .value (.string s) ∧
      (c.run env s = none ∨ e.cfDefault = some s) := by
  have hread : ∀ str, e.cfType.read env str = readString env (some c) str := by
    intro str
    rw [ht]
    rfl
  by_cases hv : values e.cfName lines = []
  · obtain ⟨s, hs, hload⟩ := h.unnamed hv
    refine ⟨s, ?_, .inr hs⟩
    rw [hload, ht]
    rfl
  · have hpassed : ∀ str ∈ values e.cfName lines, c.run env str = none := by
      intro str hstr
      have hok := h.accepted str hstr
      rw [hread] at hok
      exact readString_accepted hok
    have hstored : e.storedBy env (values e.cfName lines) =
        (values e.cfName lines).map .string := by
      unfold Cfentry.storedBy
      rw [← List.filterMap_eq_map]
      refine List.filterMap_congr fun str hstr => ?_
      obtain ⟨line, -, hline⟩ := exists_line_of_values hstr
      have hok := h.accepted str hstr
      rw [hread] at hok ⊢
      rw [readString_value hline hok, if_pos]
      · rfl
      · rintro rfl
        exact hempty (hpassed [] hstr)
    obtain ⟨s, hlast⟩ := Option.ne_none_iff_exists'.1 (mt List.getLast?_eq_none_iff.1 hv)
    refine ⟨s, ?_, .inl (hpassed s (List.mem_of_getLast? hlast))⟩
    rw [h.named hv, hstored, latest, List.getLast?_map, hlast]
    rfl

/-- `stat` of the empty path fails. -/
def ConfEnv.RefusesEmpty (env : ConfEnv) : Prop := ∃ err, env.stat [] = .error err

/-- The checks of the modules' entries. -/
def moduleChecks : List StrCheck :=
  [.isWritableDirectory, .isMailfolder, .isDotdelimiter, .isSlashdelimiter, .isExecutableFile,
    .isUsablePassword, .isExecutableFileSize]

/-- They refuse the empty text. -/
theorem moduleChecks_nil (hstat : env.RefusesEmpty) : ∀ c ∈ moduleChecks, c.run env [] ≠ none := by
  obtain ⟨err, hstat⟩ := hstat
  have hfile : isExecutableFile env [] ≠ none := by
    have hbefore : before [] (ch ' ') = [] := rfl
    simp only [isExecutableFile, hbefore, hstat, ne_eq, reduceCtorEq, not_false_eq_true]
  intro c hc
  simp only [moduleChecks, List.mem_cons, List.not_mem_nil, or_false] at hc
  rcases hc with rfl | rfl | rfl | rfl | rfl | rfl | rfl
  · show isWritableDirectory env [] ≠ none
    unfold isWritableDirectory
    rw [hstat]
    exact Option.some_ne_none _
  · exact (by decide : isMailfolder [] ≠ none)
  · exact (by decide : isDotdelimiter [] ≠ none)
  · exact (by decide : isSlashdelimiter [] ≠ none)
  · exact hfile
  · exact (by decide : isUsablePassword [] ≠ none)
  · exact hfile

theorem Lm.cfe_checks (m : Lm) :
    ∀ d ∈ m.cfe, ∃ c ∈ moduleChecks, d.cfType = .string (some c) := by
  cases m <;> decide +kernel

end

/-! ## The settings of a module -/

section
variable {P : Type} {ld : Loader P} {text : Str} {file : Option Str} {data : ConfigData P}
  {cfg : LoadedConfig P} {facility : Str} {m : Lm} {r : Extent} {d : EntryDecl LmMember}
  {c : StrCheck}

/-- A module's setting is a text that passed its check, or the default. -/
theorem ConfigData.ReadFrom.setting (h : data.ReadFrom ld (some text))
    (hn : ld.mhandleList.Nodup) (hstat : ld.env.RefusesEmpty)
    (hr : (m, r) ∈ regions sizeofConfig ld.mhandleList) (hd : d ∈ m.cfe)
    (ht : d.cfType = .string (some c)) : ∃ s, data.setting m r.start d.member = some s ∧
      (c.run ld.env s = none ∨ d.cfDefault = some s) := by
  obtain ⟨c', hc', ht'⟩ := m.cfe_checks d hd
  obtain rfl : c' = c := by
    rw [ht] at ht'
    injection ht' with hcheck
    exact (Option.some.inj hcheck).symm
  have hentry : ({ d.cfentry Lm.memberCtype m.members with
      cfDataoffset := (d.cfentry Lm.memberCtype m.members).cfDataoffset + r.start } : Cfentry) ∈
        fullTable ld.mhandleList := by
    apply List.mem_append_right
    refine List.mem_flatMap.2 ⟨(m, r), hr, ?_⟩
    exact List.mem_map.2 ⟨_, List.mem_map.2 ⟨d, hd, rfl⟩, rfl⟩
  obtain ⟨i, hi⟩ := List.mem_iff_getElem?.1 hentry
  obtain ⟨st, -, hread⟩ := h
  obtain ⟨-, hentered⟩ := readConfig_load (fullTable_owns hn hi) hread
  obtain ⟨s, hload, hs⟩ := hentered.string ht (moduleChecks_nil hstat c' hc')
  refine ⟨s, ?_, hs⟩
  rw [Lm.entry_extent hd] at hload
  unfold ConfigData.setting
  rw [hload]

/-- What `set_config` leaves besides the block is what `msy_module_init` left. -/
theorem loadConfig_data (h : loadConfig ld file = .ok (cfg, facility)) : ∃ st,
    msyModuleInit ld.dlsym ld.addr ld.mhandleList (initState P) = some st ∧
      cfg.data = { st.cfg with block := cfg.data.block } := by
  unfold loadConfig at h
  obtain ⟨st, hst, h⟩ := Except.bind_eq_ok.1 h
  have hst := orError_eq_ok.1 hst
  obtain ⟨table, -, h⟩ := Except.bind_eq_ok.1 h
  obtain ⟨data, hdata, h⟩ := Except.bind_eq_ok.1 h
  obtain ⟨_, -, h⟩ := Except.bind_eq_ok.1 h
  obtain ⟨cfg', hconv, h⟩ := Except.bind_eq_ok.1 h
  obtain ⟨facility', -, h⟩ := Except.bind_eq_ok.1 h
  split at h
  · cases h
  · cases h
    obtain ⟨rfl, -⟩ := convConfig_ok hconv
    refine ⟨st, hst, ?_⟩
    unfold readData at hdata
    split at hdata
    case h_1 => cases hdata
    case h_2 => rw [← Except.ok.inj hdata]
    case h_3 => cases hdata

/-- The nodes of `cf_extraconfig` point to the modules' regions. -/
theorem msyModuleInit_excf {dlsym : Lm → Str → Option P} {addr : Nat} {mods : List Lm}
    {st : InitState P} (h : msyModuleInit dlsym addr mods (initState P) = some st) :
    st.cfg.cfExtraconfig = (regions sizeofConfig mods).reverse.map
      fun x => ⟨x.1.mymodule, addr + x.2.start⟩ := by
  obtain ⟨st1, hi, h⟩ := Option.bind_eq_some_iff.1 h
  obtain ⟨cfg, hs, rfl⟩ := Option.map_eq_some_iff.1 h
  obtain ⟨hlaid, -⟩ := initModules_laid mods .start hi
  obtain ⟨-, hexcf⟩ := setDlsymbols_keeps hs
  show cfg.cfExtraconfig.map (fun p => { p with excfConfig := addr + p.excfConfig }) = _
  rw [hexcf, hlaid.excf, List.append_nil, List.map_map]
  rfl

/-- A module finds what its own node points to. -/
theorem findConfig_filterMap {g : ExcfNode → Option ExtraConfig}
    (hname : ∀ p x, g p = some x → x.excfModulename = p.excfModulename) {p : ExcfNode}
    {x : ExtraConfig} (hx : g p = some x) : ∀ {list : List ExcfNode},
    (list.map (·.excfModulename)).Nodup → p ∈ list →
      findConfig p.excfModulename (list.filterMap g) = some x.excfConfig
  | [], _, hp => by cases hp
  | q :: list, hn, hp => by
    rw [List.map_cons, List.nodup_cons] at hn
    rcases List.mem_cons.1 hp with rfl | hp
    · rw [List.filterMap_cons_some hx]
      unfold findConfig
      rw [List.find?_cons_of_pos (by simp [hname p x hx])]
      rfl
    · have hne : q.excfModulename ≠ p.excfModulename :=
        fun he => hn.1 (he ▸ List.mem_map_of_mem hp)
      have ih := findConfig_filterMap hname hx hn.2 hp
      cases hq : g q with
      | none =>
        rw [List.filterMap_cons_none hq]
        exact ih
      | some y =>
        rw [List.filterMap_cons_some hq]
        unfold findConfig at ih ⊢
        rw [List.find?_cons_of_neg (by simpa [hname q y hq] using hne)]
        exact ih

end

/-! ## What the modules can rely on -/

/-- The folder settings passed their checks. -/
structure FolderConfig.Accepted (env : ConfEnv) (folder : FolderConfig) : Prop
    extends folder.Checked where
  maildir : isWritableDirectory env folder.cfMaildir = none

/-- A command that passed its check, or the default, which is not checked. -/
def CommandAccepted (env : ConfEnv) (command : Str) (cfDefault : String) : Prop :=
  isExecutableFile env command = none ∨ command = bytes cfDefault

/-- The settings of the module `m` passed their checks. -/
def ModuleConfig.Accepted (env : ConfEnv) : Lm → ModuleConfig → Prop
  | .maildrop, .maildrop folder => folder.Accepted env
  | .gzip, .gzip cfGzipcommand folder =>
    CommandAccepted env cfGzipcommand "/usr/bin/gzip" ∧ folder.Accepted env
  | .enczip, .enczip cfEnczipcommand cfEnczippassword folder =>
    CommandAccepted env cfEnczipcommand "/usr/bin/zip" ∧
      isUsablePassword cfEnczippassword = none ∧ folder.Accepted env
  | .lda, .lda cfLdacommand => isExecutableFileSize env cfLdacommand = none
  | _, _ => False

section
variable {P : Type} {ld : Loader P} {text : Str} {data : ConfigData P} {m : Lm} {r : Extent}

/-- The folder settings, for the modules whose table has them under some names. -/
theorem ConfigData.ReadFrom.folderConfig (h : data.ReadFrom ld (some text))
    (hn : ld.mhandleList.Nodup) (hstat : ld.env.RefusesEmpty)
    (hr : (m, r) ∈ regions sizeofConfig ld.mhandleList)
    {maildir mailfolder dotdelimiter slashdelimiter : String}
    (htable : ∀ d ∈ Lm.folderCfe maildir mailfolder dotdelimiter slashdelimiter, d ∈ m.cfe) :
    ∃ folder, data.folderConfig m r.start = some folder ∧ folder.Accepted ld.env := by
  have hset : ∀ {d : EntryDecl LmMember} {c : StrCheck},
      d ∈ Lm.folderCfe maildir mailfolder dotdelimiter slashdelimiter →
      d.cfType = .string (some c) → ∃ s, data.setting m r.start d.member = some s ∧
        (c.run ld.env s = none ∨ d.cfDefault = some s) :=
    fun hd ht => h.setting hn hstat hr (htable _ hd) ht
  simp only [Lm.folderCfe, List.mem_cons, List.not_mem_nil, or_false] at hset
  obtain ⟨dir, hdir, hdir'⟩ := hset (.inl rfl) rfl
  obtain ⟨tree, htree, htree'⟩ := hset (.inr (.inl rfl)) rfl
  obtain ⟨dot, hdot, hdot'⟩ := hset (.inr (.inr (.inl rfl))) rfl
  obtain ⟨slash, hslash, hslash'⟩ := hset (.inr (.inr (.inr rfl))) rfl
  refine ⟨⟨dir, tree, dot, slash⟩, ?_, ⟨⟨?_, ?_, ?_⟩, ?_⟩⟩
  · unfold ConfigData.folderConfig
    rw [hdir, htree, hdot, hslash]
    rfl
  · rcases htree' with hcheck | hdefault
    · exact hcheck
    · cases hdefault
  · rcases hdot' with hcheck | hdefault
    · exact hcheck
    · rw [← Option.some.inj hdefault]
      exact (by decide : isDotdelimiter (bytes ",") = none)
  · rcases hslash' with hcheck | hdefault
    · exact hcheck
    · rw [← Option.some.inj hdefault]
      exact (by decide : isSlashdelimiter (bytes "_") = none)
  · rcases hdir' with hcheck | hdefault
    · exact hcheck
    · cases hdefault

/-- Every module's settings are there, and passed their checks. -/
theorem ConfigData.ReadFrom.moduleConfig (h : data.ReadFrom ld (some text))
    (hn : ld.mhandleList.Nodup) (hstat : ld.env.RefusesEmpty)
    (hr : (m, r) ∈ regions sizeofConfig ld.mhandleList) :
    ∃ config, data.moduleConfig m r.start = some config ∧ config.Accepted ld.env m := by
  cases m with
  | maildrop =>
    obtain ⟨folder, hfolder, hf⟩ := h.folderConfig hn hstat hr fun d hd => hd
    refine ⟨.maildrop folder, ?_, hf⟩
    unfold ConfigData.moduleConfig
    rw [hfolder]
    rfl
  | gzip =>
    obtain ⟨folder, hfolder, hf⟩ := h.folderConfig hn hstat hr
      fun d hd => List.mem_cons_of_mem _ hd
    obtain ⟨command, hcommand, hc⟩ := h.setting hn hstat hr List.mem_cons_self rfl
    refine ⟨.gzip command folder, ?_, hc.imp_right fun hd => (Option.some.inj hd).symm, hf⟩
    unfold ConfigData.moduleConfig
    rw [hfolder, hcommand]
    rfl
  | enczip =>
    obtain ⟨folder, hfolder, hf⟩ := h.folderConfig hn hstat hr
      fun d hd => List.mem_cons_of_mem _ (List.mem_cons_of_mem _ hd)
    obtain ⟨command, hcommand, hc⟩ := h.setting hn hstat hr List.mem_cons_self rfl
    obtain ⟨password, hpassword, hp⟩ := h.setting hn hstat hr
      (List.mem_cons_of_mem _ List.mem_cons_self) rfl
    refine ⟨.enczip command password folder, ?_, hc.imp_right fun hd => (Option.some.inj hd).symm,
      ?_, hf⟩
    · unfold ConfigData.moduleConfig
      rw [hfolder, hcommand, hpassword]
      rfl
    · rcases hp with hcheck | hdefault
      · exact hcheck
      · cases hdefault
  | lda =>
    obtain ⟨command, hcommand, hc⟩ := h.setting hn hstat hr List.mem_cons_self rfl
    refine ⟨.lda command, ?_, ?_⟩
    · unfold ConfigData.moduleConfig
      rw [hcommand]
      rfl
    · rcases hc with hcheck | hdefault
      · exact hcheck
      · cases hdefault

/-- The two lists are those of the texts that `conv_config` splits. -/
theorem convConfig_lists {cfg : LoadedConfig P} (h : convConfig ld data = .ok cfg) :
    cfg.cfMydomainList = splitComma ((cfg.data.pointer .cfMydomain).getD []) ∧
      cfg.cfSavemailaddressList = splitComma ((cfg.data.pointer .cfSavemailaddress).getD []) := by
  unfold convConfig at h
  obtain ⟨_, -, h⟩ := Except.bind_eq_ok.1 h
  obtain ⟨_, -, h⟩ := Except.bind_eq_ok.1 h
  obtain ⟨_, -, h⟩ := Except.bind_eq_ok.1 h
  obtain ⟨_, -, h⟩ := Except.bind_eq_ok.1 h
  obtain ⟨_, -, h⟩ := Except.bind_eq_ok.1 h
  obtain ⟨_, -, h⟩ := Except.bind_eq_ok.1 h
  obtain ⟨_, -, h⟩ := Except.bind_eq_ok.1 h
  obtain ⟨mydomain, hmydomain, h⟩ := Except.bind_eq_ok.1 h
  obtain ⟨savemailaddress, hsavemailaddress, h⟩ := Except.bind_eq_ok.1 h
  cases h
  rw [orNull_eq_ok.1 hmydomain, orNull_eq_ok.1 hsavemailaddress]
  exact ⟨rfl, rfl⟩

theorem Lm.ofName_mymodule (m : Lm) : Lm.ofName m.mymodule = some m := by
  cases m <;> decide

theorem Lm.code_mymodule (m : Lm) : m.code.mymodule = m.mymodule := by
  cases m <;> rfl

end

section
variable {ld : Loader (HookCall → Hook)} {text : Str} {log log' : LogState}
  {cfg : LoadedConfig (HookCall → Hook)}

/-- The libraries of the modules are the modules' code. -/
def Loader.Genuine (ld : Loader (HookCall → Hook)) : Prop :=
  ∀ m ∈ ld.mhandleList, ∀ e : HookEvent,
    ld.dlsym m (m.mymodule ++ bytes e.suffix) = some m.code.call

/-- The hooks of a list are those of the modules, in the order of their lines. -/
theorem Loader.Genuine.hooks (hlib : ld.Genuine) (hn : ld.mhandleList.Nodup)
    {st : InitState (HookCall → Hook)}
    (hst : msyModuleInit ld.dlsym ld.addr ld.mhandleList (initState _) = some st) (e : HookEvent) :
    hookFunctions (st.cfg.hooks e) = ld.mhandleList.reverse.map fun m => m.code.call := by
  have hnames : ((ld.mhandleList.map (Lm.handle ld.dlsym)).map (·.mhModulename)).Nodup := by
    rw [List.map_map]
    exact hn.map fun m m' he => Lm.mymodule_injective he
  rw [← initLoaded_lm] at hst
  obtain ⟨hhooks, -⟩ := initLoaded_hooks (e := e) hnames hst
  rw [hhooks, ← List.map_reverse, List.map_map, hookFunctions, List.filterMap_map]
  rw [← List.filterMap_eq_map]
  refine List.filterMap_congr fun m hm => ?_
  exact hlib m (List.mem_reverse.1 hm) e

theorem LoadedConfig.config_loading (hlib : ld.Genuine) (hn : ld.mhandleList.Nodup)
    {st : InitState (HookCall → Hook)}
    (hst : msyModuleInit ld.dlsym ld.addr ld.mhandleList (initState _) = some st)
    (hdata : cfg.data = { st.cfg with block := cfg.data.block }) :
    cfg.config ld.addr =
      (cfg.settings ld.addr).loading (ld.mhandleList.reverse.map Lm.code) := by
  have hhooks : ∀ e, hookFunctions (cfg.data.hooks e) =
      ld.mhandleList.reverse.map fun m => m.code.call := by
    intro e
    have hsame : cfg.data.hooks e = st.cfg.hooks e := by
      rw [hdata]
      cases e <;> rfl
    rw [hsame]
    exact hlib.hooks hn hst e
  have hheader := hhooks .header
  have hbody := hhooks .body
  have heom := hhooks .eom
  have habort := hhooks .abort
  unfold ConfigData.hooks at hheader hbody heom habort
  unfold LoadedConfig.config Settings.loading
  simp only [hheader, hbody, heom, habort, List.map_map]
  rfl

/-- A module finds its own settings by its name. -/
theorem LoadedConfig.findConfig_settings (hn : ld.mhandleList.Nodup)
    (hexcf : cfg.data.cfExtraconfig = (regions sizeofConfig ld.mhandleList).reverse.map
      fun x => ⟨x.1.mymodule, ld.addr + x.2.start⟩)
    {m : Lm} {r : Extent} (hr : (m, r) ∈ regions sizeofConfig ld.mhandleList)
    {config : ModuleConfig} (hconfig : cfg.data.moduleConfig m r.start = some config) :
    findConfig m.code.mymodule (cfg.settings ld.addr).cfExtraconfig = some config := by
  have hnode : cfg.data.extraConfig ld.addr ⟨m.mymodule, ld.addr + r.start⟩ =
      some ⟨m.mymodule, config⟩ := by
    unfold ConfigData.extraConfig
    rw [m.ofName_mymodule, Nat.add_sub_cancel_left]
    show (cfg.data.moduleConfig m r.start >>= _) = _
    rw [hconfig]
    rfl
  have hnames : (cfg.data.cfExtraconfig.map (·.excfModulename)).Nodup := by
    rw [hexcf, List.map_map, List.map_reverse, List.nodup_reverse]
    show ((regions sizeofConfig ld.mhandleList).map (Lm.mymodule ∘ Prod.fst)).Nodup
    rw [← List.map_map, regions_fst]
    exact hn.map fun m m' he => Lm.mymodule_injective he
  have hname : ∀ p x, cfg.data.extraConfig ld.addr p = some x →
      x.excfModulename = p.excfModulename := by
    intro p x hx
    unfold ConfigData.extraConfig at hx
    obtain ⟨m, -, hx⟩ := Option.bind_eq_some_iff.1 hx
    obtain ⟨config, -, hx⟩ := Option.bind_eq_some_iff.1 hx
    rw [← Option.some.inj hx]
  rw [m.code_mymodule]
  apply findConfig_filterMap hname hnode hnames
  rw [hexcf]
  exact List.mem_map.2 ⟨(m, r), List.mem_reverse.2 hr, rfl⟩

/-- **From the file to the sessions**: a configuration that `set_config` accepts is the settings
with the hooks of the loaded modules, in the order of their lines, and each module finds settings
that passed its checks. -/
theorem setConfig_serves (hn : ld.mhandleList.Nodup) (hlib : ld.Genuine)
    (hstat : ld.env.RefusesEmpty) (h : setConfig ld (some text) log = (.ok cfg, log')) :
    cfg.config ld.addr = (cfg.settings ld.addr).loading (ld.mhandleList.reverse.map Lm.code) ∧
      (cfg.settings ld.addr).cfMydomainList = cfg.cfMydomainList ∧
      (cfg.settings ld.addr).cfSavemailaddressList = cfg.cfSavemailaddressList ∧
      ∀ m ∈ ld.mhandleList, ∃ config,
        findConfig m.code.mymodule (cfg.settings ld.addr).cfExtraconfig = some config ∧
          config.Accepted ld.env m := by
  obtain ⟨facility, hload, -⟩ := setConfig_ok h
  obtain ⟨st, hst, hdata⟩ := loadConfig_data hload
  obtain ⟨hread, -, hconv, -⟩ := loadConfig_ok hload
  obtain ⟨hmydomain, hsavemailaddress⟩ := convConfig_lists hconv
  refine ⟨cfg.config_loading hlib hn hst hdata, hmydomain.symm, hsavemailaddress.symm,
    fun m hm => ?_⟩
  obtain ⟨⟨m', r⟩, hr, rfl⟩ := List.mem_map.1 ((regions_fst ld.mhandleList sizeofConfig).symm ▸ hm)
  obtain ⟨config, hconfig, haccepted⟩ := hread.moduleConfig hn hstat hr
  refine ⟨config, cfg.findConfig_settings hn ?_ hr hconfig, haccepted⟩
  rw [hdata]
  exact msyModuleInit_excf hst

end

end Messasy
