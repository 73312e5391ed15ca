import Messasy.Config.Config
import Messasy.Config.Read

/-!
# Loading a configuration (`msy_config.c`)

`set_config` with its exits, and the destination of the log, which it switches while it works.
For every entry of `cfe` the loaded configuration holds what `read_config` left there
(`ConfigData.ReadFrom.entered`), so that a string member is NULL only where every line of its entry is
empty (`pointer_eq`).
-/

namespace Messasy

open Lib

/-! ## The log -/

/-- What `dgconfig_log` points to. -/
inductive DgconfigLog
  | LOG
  | NoLOG
  | syslog
  deriving DecidableEq, Repr

/-- `dgconfig_log`, and the program name and the facility that `openlog` got last. -/
structure LogState where
  dgconfigLog : DgconfigLog
  openlog : Option (Str × Int)
  deriving DecidableEq

def IDENT : Str := bytes "messasy"

def dgloginit (log : LogState) : LogState := { log with dgconfigLog := .LOG }

def dglogchange (name facilityName : Str) (log : LogState) : LogState :=
  if caseEq facilityName (bytes "stderr") then { log with dgconfigLog := .LOG }
  else if caseEq facilityName (bytes "none") then { log with dgconfigLog := .NoLOG }
  else ⟨.syslog, some (name, (syslogFacility facilityName).elim (-1) fun n => n)⟩

/-! ## Conversions -/

def convErroraction (cfErroraction : Str) : Option ErrorAction :=
  if caseEq cfErroraction (bytes "accept") then some .accept
  else if caseEq cfErroraction (bytes "reject") then some .reject
  else if caseEq cfErroraction (bytes "tempfail") then some .tempfail
  else none

def convSavepolicy (cfSavepolicy : Str) : Option SavePolicy :=
  if caseEq cfSavepolicy (bytes "both") then some .both
  else if caseEq cfSavepolicy (bytes "onlyfrom") then some .onlyfrom
  else if caseEq cfSavepolicy (bytes "onlyto") then some .onlyto
  else if caseEq cfSavepolicy (bytes "none") then some .none
  else none

/-- `cf_ldapscope_conv`. -/
inductive LdapScope
  | onelevel
  | subtree
  deriving DecidableEq, Repr

def convLdapscope (cfLdapscope : Str) : Option LdapScope :=
  if caseEq cfLdapscope (bytes "onelevel") then some .onelevel
  else if caseEq cfLdapscope (bytes "subtree") then some .subtree
  else none

/-- `regcomp` yields the test that `regexec` makes. -/
def convSaveignoreheader (regcomp : Str → Option (Str → Bool)) :
    Option Str → Option (Option (Str → Bool))
  | none => some none
  | some [] => some none
  | some s => (regcomp s).map some

/-! ## `set_config` -/

/-- What `set_config` finds: the system, the modules that are loaded, the address where the block
ends up, and `msy_hostname`. -/
structure Loader (P : Type) where
  env : ConfEnv
  dlsym : Lm → Str → Option P
  mhandleList : List Lm
  addr : Nat
  regcomp : Str → Option (Str → Bool)
  msyHostname : Str

/-- `struct config` when it is complete. -/
structure LoadedConfig (P : Type) where
  data : ConfigData P
  cfErroractionConv : ErrorAction
  cfSavepolicyConv : SavePolicy
  cfLdapscopeConv : LdapScope
  cfSaveignoreheaderRegex : Option (Str → Bool)
  cfMydomainList : List Str
  cfSavemailaddressList : List Str
  cfMsyhostname : Str

/-- How `set_config` ends without a configuration: it returns `R_ERROR`, or it uses a NULL or an
entry that nobody wrote, or a check writes past its array. -/
inductive LoadFault
  | error
  | null
  | overflow
  deriving DecidableEq, Repr

/-- A result that is tested. -/
def orError {α : Type} (o : Option α) : Except LoadFault α := o.elim (.error .error) .ok

/-- A pointer that is not. -/
def orNull {α : Type} (o : Option α) : Except LoadFault α := o.elim (.error .null) .ok

section
variable {P : Type}

/-- A member that is a string; NULL where nothing was stored. -/
def ConfigData.pointer (cfg : ConfigData P) (f : ConfigMember) : Option Str :=
  match cfg.block.load f.extent with
  | .value (.string s) => some s
  | _ => none

/-- A member that is a number; 0 where nothing was stored. -/
def ConfigData.number (cfg : ConfigData P) (f : ConfigMember) : UInt32 :=
  match cfg.block.load f.extent with
  | .value (.word v) => v
  | _ => 0

/-- The table that `read_config` goes through. -/
def entries : List (Option Cfentry) → Option (List Cfentry)
  | [] => some []
  | none :: _ => none
  | some e :: cfe => (entries cfe).map (e :: ·)

/-- `read_config`, with the test of its result. -/
def readData (env : ConfEnv) (file : Option Str) (table : List Cfentry) (cfg : ConfigData P) :
    Except LoadFault (ConfigData P) :=
  match readConfig env file table cfg.block with
  | none => .error .overflow
  | some (0, block) => .ok { cfg with block }
  | some _ => .error .error

/-- The mandatory values. -/
def ConfigData.mandatory (cfg : ConfigData P) : Except LoadFault Unit :=
  if cfg.pointer .cfAdminpassword = none then .error .error
  else if cfg.pointer .cfMydomain = none then .error .error
  else if cfg.pointer .cfSavemailaddress = none then .error .error
  else if cfg.number .cfListenport = 0 then .error .error
  else if cfg.number .cfCommandport = 0 then .error .error
  else if cfg.number .cfLdapport = 0 then .error .error
  else .ok ()

/-- `conv_config`, with `cf_msyhostname`. -/
def convConfig (ld : Loader P) (cfg : ConfigData P) : Except LoadFault (LoadedConfig P) := do
  let erroraction ← orNull (cfg.pointer .cfErroraction)
  let erroractionConv ← orError (convErroraction erroraction)
  let savepolicy ← orNull (cfg.pointer .cfSavepolicy)
  let savepolicyConv ← orError (convSavepolicy savepolicy)
  let ldapscope ← orNull (cfg.pointer .cfLdapscope)
  let ldapscopeConv ← orError (convLdapscope ldapscope)
  let regex ← orError (convSaveignoreheader ld.regcomp (cfg.pointer .cfSaveignoreheader))
  let mydomain ← orNull (cfg.pointer .cfMydomain)
  let savemailaddress ← orNull (cfg.pointer .cfSavemailaddress)
  return ⟨cfg, erroractionConv, savepolicyConv, ldapscopeConv, regex, splitComma mydomain,
    splitComma savemailaddress, ld.msyHostname⟩

/-- `set_config` between `dgloginit` and `dglogchange`: the configuration, and the facility. The
`_mod_extra_config` functions of the modules change nothing. -/
def loadConfig (ld : Loader P) (file : Option Str) : Except LoadFault (LoadedConfig P × Str) := do
  let st ← orError (msyModuleInit ld.dlsym ld.addr ld.mhandleList (initState P))
  let table ← orNull (entries (st.cfe.take (st.cfesize / sizeofCfentry)))
  let data ← readData ld.env file table st.cfg
  data.mandatory
  let cfg ← convConfig ld data
  let facility ← orNull (data.pointer .cfSyslogfacility)
  if isSyslogFacility facility ≠ none then .error .error
  else return (cfg, facility)

def setConfig (ld : Loader P) (file : Option Str) (log : LogState) :
    Except LoadFault (LoadedConfig P) × LogState :=
  match loadConfig ld file with
  | .error fault => (.error fault, dgloginit log)
  | .ok (cfg, facility) => (.ok cfg, dglogchange IDENT facility (dgloginit log))

end

/-! ## Results -/

theorem Except.bind_eq_ok {ε α β : Type} {x : Except ε α} {f : α → Except ε β} {b : β} :
    (x >>= f) = .ok b ↔ ∃ a, x = .ok a ∧ f a = .ok b := by
  cases x with
  | error e =>
    constructor
    · intro h
      cases h
    · rintro ⟨a, ha, -⟩
      cases ha
  | ok a =>
    constructor
    · exact fun h => ⟨a, rfl, h⟩
    · rintro ⟨a', ha, h⟩
      cases ha
      exact h

theorem orError_eq_ok {α : Type} {o : Option α} {a : α} : orError o = .ok a ↔ o = some a := by
  cases o <;> simp [orError]

theorem orNull_eq_ok {α : Type} {o : Option α} {a : α} : orNull o = .ok a ↔ o = some a := by
  cases o <;> simp [orNull]

theorem entries_map_some : ∀ table : List Cfentry, entries (table.map some) = some table
  | [] => rfl
  | e :: table => by
    show (entries (table.map some)).map (e :: ·) = _
    rw [entries_map_some table]
    rfl

section
variable {P : Type} {ld : Loader P} {text : Str} {file : Option Str} {log log' : LogState}
  {cfg : LoadedConfig P} {data : ConfigData P} {facility : Str} {fault : LoadFault}

/-- Every exit without a configuration leaves the log where `dgloginit` puts it. -/
theorem setConfig_error (h : setConfig ld file log = (.error fault, log')) :
    log' = dgloginit log := by
  unfold setConfig at h
  split at h
  · cases h
    rfl
  · cases h

theorem setConfig_ok (h : setConfig ld file log = (.ok cfg, log')) :
    ∃ facility, loadConfig ld file = .ok (cfg, facility) ∧
      log' = dglogchange IDENT facility (dgloginit log) := by
  unfold setConfig at h
  split at h
  case h_1 => cases h
  case h_2 cfg' facility hload =>
    cases h
    exact ⟨facility, hload, rfl⟩

/-- A configuration that some test finds good is one that `set_config` returned. -/
theorem setConfig_of_any {p : LoadedConfig P → Bool}
    (h : (setConfig ld file log).1.toOption.any p = true) :
    ∃ cfg log', setConfig ld file log = (.ok cfg, log') ∧ p cfg = true := by
  cases hr : setConfig ld file log with
  | mk res log' =>
    rw [hr] at h
    cases res with
    | error fault => cases h
    | ok cfg => exact ⟨cfg, log', rfl, h⟩

theorem convConfig_ok (h : convConfig ld data = .ok cfg) : cfg.data = data ∧
    ∃ erroraction savepolicy ldapscope,
      data.pointer .cfErroraction = some erroraction ∧
      convErroraction erroraction = some cfg.cfErroractionConv ∧
      data.pointer .cfSavepolicy = some savepolicy ∧
      convSavepolicy savepolicy = some cfg.cfSavepolicyConv ∧
      data.pointer .cfLdapscope = some ldapscope ∧
      convLdapscope ldapscope = some cfg.cfLdapscopeConv := by
  unfold convConfig at h
  obtain ⟨erroraction, he, h⟩ := Except.bind_eq_ok.1 h
  obtain ⟨ec, hec, h⟩ := Except.bind_eq_ok.1 h
  obtain ⟨savepolicy, hs, h⟩ := Except.bind_eq_ok.1 h
  obtain ⟨sc, hsc, h⟩ := Except.bind_eq_ok.1 h
  obtain ⟨ldapscope, hl, h⟩ := Except.bind_eq_ok.1 h
  obtain ⟨lc, hlc, h⟩ := Except.bind_eq_ok.1 h
  obtain ⟨_, -, h⟩ := Except.bind_eq_ok.1 h
  obtain ⟨_, -, h⟩ := Except.bind_eq_ok.1 h
  obtain ⟨_, -, h⟩ := Except.bind_eq_ok.1 h
  cases h
  exact ⟨rfl, erroraction, savepolicy, ldapscope, orNull_eq_ok.1 he, orError_eq_ok.1 hec,
    orNull_eq_ok.1 hs, orError_eq_ok.1 hsc, orNull_eq_ok.1 hl, orError_eq_ok.1 hlc⟩

theorem mandatory_ok (h : data.mandatory = .ok ()) : data.pointer .cfAdminpassword ≠ none ∧
    data.pointer .cfMydomain ≠ none ∧ data.pointer .cfSavemailaddress ≠ none ∧
    data.number .cfListenport ≠ 0 ∧ data.number .cfCommandport ≠ 0 ∧
    data.number .cfLdapport ≠ 0 := by
  unfold ConfigData.mandatory at h
  split at h
  · cases h
  split at h
  · cases h
  split at h
  · cases h
  split at h
  · cases h
  split at h
  · cases h
  split at h
  · cases h
  exact ⟨‹_›, ‹_›, ‹_›, ‹_›, ‹_›, ‹_›⟩

/-- The settings are what `read_config` left of the file, when it found no error. -/
def ConfigData.ReadFrom (ld : Loader P) (file : Option Str) (data : ConfigData P) : Prop :=
  ∃ st, msyModuleInit ld.dlsym ld.addr ld.mhandleList (initState P) = some st ∧
    readConfig ld.env file (fullTable ld.mhandleList) st.cfg.block = some (0, data.block)

/-- Every entry that `read_config` sees was written. -/
theorem entries_table {st : InitState P}
    (h : msyModuleInit ld.dlsym ld.addr ld.mhandleList (initState P) = some st) :
    entries (st.cfe.take (st.cfesize / sizeofCfentry)) = some (fullTable ld.mhandleList) := by
  obtain ⟨hcfe, hsize, -⟩ := msyModuleInit_table h
  have hpos : 0 < sizeofCfentry := by decide +kernel
  rw [hsize, Nat.mul_div_cancel _ hpos, List.take_length, hcfe, entries_map_some]

theorem readData_ok {st : InitState P}
    (hst : msyModuleInit ld.dlsym ld.addr ld.mhandleList (initState P) = some st)
    (h : readData ld.env file (fullTable ld.mhandleList) st.cfg = .ok data) :
    data.ReadFrom ld file := by
  refine ⟨st, hst, ?_⟩
  unfold readData at h
  split at h
  case h_1 => cases h
  case h_2 block hread =>
    rw [← Except.ok.inj h]
    exact hread
  case h_3 => cases h

/-- What `set_config` goes through before it returns a configuration. -/
theorem loadConfig_ok (h : loadConfig ld file = .ok (cfg, facility)) :
    cfg.data.ReadFrom ld file ∧ cfg.data.mandatory = .ok () ∧
    convConfig ld cfg.data = .ok cfg ∧ cfg.data.pointer .cfSyslogfacility = some facility := by
  unfold loadConfig at h
  obtain ⟨st, hst, h⟩ := Except.bind_eq_ok.1 h
  have hst := orError_eq_ok.1 hst
  rw [entries_table hst] at h
  obtain ⟨table, htable, h⟩ := Except.bind_eq_ok.1 h
  obtain rfl := Option.some.inj (orNull_eq_ok.1 htable)
  obtain ⟨data, hdata, h⟩ := Except.bind_eq_ok.1 h
  obtain ⟨_, hmandatory, h⟩ := Except.bind_eq_ok.1 h
  obtain ⟨cfg', hconv, h⟩ := Except.bind_eq_ok.1 h
  obtain ⟨facility', hfacility, h⟩ := Except.bind_eq_ok.1 h
  split at h
  · cases h
  · cases h
    obtain ⟨rfl, -⟩ := convConfig_ok hconv
    exact ⟨readData_ok hst hdata, hmandatory, hconv, orNull_eq_ok.1 hfacility⟩

end

/-! ## The entries of `cfe` -/

/-- The entry in the table. -/
def EntryDecl.core (d : EntryDecl ConfigMember) : Cfentry :=
  d.cfentry ConfigMember.ctype ConfigMember.all

section
variable {mods : List Lm} {i j : Nat} {d d' : EntryDecl ConfigMember} {x : Cfentry}

theorem EntryDecl.core_extent (hd : d ∈ Messasy.cfe) : d.core.extent = d.member.extent := by
  have hw : d.member.extent.width = d.cfType.ctype.size := by
    rw [d.member.extent_inside.2, cfe_width d hd]
  show (⟨d.member.extent.start, d.cfType.ctype.size⟩ : Extent) = d.member.extent
  rw [← hw]

theorem cfe_names : (Messasy.cfe.map fun d => lower d.cfName).Nodup := by decide +kernel

theorem cfe_plain : ∀ d ∈ Messasy.cfe, ch '=' ∉ d.cfName := by decide +kernel

/-- Two entries of a list have different values where no value of `f` occurs twice. -/
theorem ne_of_nodup_map {α β : Type} {l : List α} {f : α → β} (h : (l.map f).Nodup) {a b : α}
    (hi : l[i]? = some a) (hj : l[j]? = some b) (hne : i ≠ j) : f a ≠ f b := by
  intro he
  have hlt : i < (l.map f).length := by
    rw [List.length_map]
    exact (List.getElem?_eq_some_iff.1 hi).1
  refine hne ((List.getElem?_inj hlt h).1 ?_)
  rw [List.getElem?_map, List.getElem?_map, hi, hj, Option.map_some, Option.map_some, he]

theorem coreTable_getElem? : coreTable[i]? = Messasy.cfe[i]?.map EntryDecl.core :=
  List.getElem?_map

/-- An entry of the full table is one of `cfe`, at its place, or one of a module. -/
theorem fullTable_getElem? (hx : (fullTable mods)[i]? = some x) :
    (∃ d, Messasy.cfe[i]? = some d ∧ x = d.core) ∨
      Messasy.cfe.length ≤ i ∧
        x ∈ (regions sizeofConfig mods).flatMap fun r => r.1.tableAt r.2.start := by
  have hlen : coreTable.length = Messasy.cfe.length := List.length_map _
  rcases Nat.lt_or_ge i coreTable.length with hlt | hge
  · rw [fullTable, List.getElem?_append_left hlt, coreTable_getElem?] at hx
    obtain ⟨d, hd, rfl⟩ := Option.map_eq_some_iff.1 hx
    exact .inl ⟨d, hd, rfl⟩
  · rw [fullTable, List.getElem?_append_right hge] at hx
    exact .inr ⟨hlen ▸ hge, List.mem_of_getElem? hx⟩

/-- An entry of `cfe` gets its own lines, and no other entry stores at its member. -/
theorem core_owns (hd : Messasy.cfe[i]? = some d) : Owns (fullTable mods) i d.core := by
  have hmem : d ∈ Messasy.cfe := List.mem_of_getElem? hd
  have hlt : i < Messasy.cfe.length := (List.getElem?_eq_some_iff.1 hd).1
  refine ⟨?_, fun j hj x hx line hline => ?_, fun j x hx hj => ?_, ?_⟩
  · rw [fullTable, List.getElem?_append_left (by rw [coreTable, List.length_map]; exact hlt),
      coreTable_getElem?, hd, Option.map_some]
  · rcases fullTable_getElem? hx with ⟨d', hd', rfl⟩ | ⟨hge, -⟩
    · exact keyValue_unique (cfe_plain d' (List.mem_of_getElem? hd')) (cfe_plain d hmem)
        (ne_of_nodup_map cfe_names hd' hd (Nat.ne_of_lt hj)) hline
    · omega
  · rw [EntryDecl.core_extent hmem]
    rcases fullTable_getElem? hx with ⟨d', hd', rfl⟩ | ⟨-, hx⟩
    · rw [EntryDecl.core_extent (List.mem_of_getElem? hd')]
      exact memberExtent_disjoint ctype_align_pos d'.member.mem_all d.member.mem_all
        (ne_of_nodup_map cfe_members hd' hd hj)
    · exact fullTable_rest hx d.member
  · rw [EntryDecl.core_extent hmem]
    exact d.member.extent_width_pos

end

section
variable {P : Type} {ld : Loader P} {text : Str} {data : ConfigData P}
  {d : EntryDecl ConfigMember}

/-- **An entry of `cfe`** in settings that come from a file. -/
theorem ConfigData.ReadFrom.entered (h : data.ReadFrom ld (some text))
    (hd : d ∈ Messasy.cfe) : (configLines [] text).2 = true ∧
      Entered ld.env (configLines [] text).1 .zero d.core data.block := by
  obtain ⟨i, hi⟩ := List.mem_iff_getElem?.1 hd
  obtain ⟨st, hst, hread⟩ := h
  obtain ⟨-, -, hclear⟩ := msyModuleInit_table hst
  obtain ⟨hend, hentered⟩ := readConfig_load (core_owns hi) hread
  rw [EntryDecl.core_extent hd, hclear.zero] at hentered
  exact ⟨hend, hentered⟩

/-- What a string entry is set to: the last value that is not empty, or the default. -/
def stringSetting (d : EntryDecl ConfigMember) (lines : List Str) : Option Str :=
  if values d.cfName lines = [] then d.cfDefault
  else ((values d.cfName lines).filter (· ≠ [])).getLast?

/-- What a number is set to: the last value, or the default. -/
def numberSetting (d : EntryDecl ConfigMember) (lines : List Str) : UInt32 :=
  toUnsigned (strtol (((values d.cfName lines).getLast?.or d.cfDefault).getD [])).1

/-- A value that passes is stored unless it is empty. -/
theorem readString_value {env : ConfEnv} {cfCheck : Option StrCheck} {cfName line str : Str}
    (hv : keyValue cfName line = some str) (h : readString env cfCheck str ≠ .error) :
    (readString env cfCheck str).value = if str ≠ [] then some (.string str) else none := by
  unfold readString at h ⊢
  by_cases hcheck : (cfCheck.bind fun c => c.run env str) ≠ none
  · rw [if_pos hcheck] at h
    exact absurd rfl h
  · rw [if_neg hcheck]
    by_cases hs : str = []
    · rw [if_pos ((all_isspace_of_keyValue hv).2 hs), if_neg (not_not.2 hs)]
      rfl
    · rw [if_neg (mt (all_isspace_of_keyValue hv).1 hs), if_pos hs]
      rfl

theorem readInt_value {plus : Bool} {cfCheck : Option IntCheck} {str : Str}
    (h : readInt plus cfCheck str ≠ .error) :
    (readInt plus cfCheck str).value = some (.word (toUnsigned (strtol str).1)) := by
  revert h
  unfold readInt
  simp only
  split
  · exact fun h => absurd rfl h
  split
  · exact fun h => absurd rfl h
  split
  · exact fun h => absurd rfl h
  split
  · exact fun h => absurd rfl h
  exact fun _ => rfl

theorem exists_line_of_values {cfName str : Str} {lines : List Str}
    (h : str ∈ values cfName lines) : ∃ line ∈ lines, keyValue cfName line = some str := by
  obtain ⟨line, hline, hv⟩ := List.mem_filterMap.1 h
  exact ⟨line, List.mem_of_mem_filter hline, hv⟩

/-- A string member holds what the lines say. -/
theorem pointer_eq {cfCheck : Option StrCheck}
    (h : data.ReadFrom ld (some text)) (hd : d ∈ Messasy.cfe)
    (ht : d.cfType = .string cfCheck) :
    data.pointer d.member = stringSetting d (configLines [] text).1 := by
  obtain ⟨-, haccepted, hnamed, hunnamed⟩ := h.entered hd
  rw [EntryDecl.core_extent hd] at hnamed hunnamed
  have hread : ∀ str, d.core.cfType.read ld.env str = readString ld.env cfCheck str := by
    intro str
    show d.cfType.read ld.env str = _
    rw [ht]
    rfl
  unfold ConfigData.pointer stringSetting
  by_cases hv : values d.cfName (configLines [] text).1 = []
  · obtain ⟨s, hs, hload⟩ := hunnamed hv
    have hdefault : d.core.cfType.default s = .string s := by
      show d.cfType.default s = _
      rw [ht]
      rfl
    rw [if_pos hv, hload, hdefault]
    exact hs.symm
  · have hstored : d.core.storedBy ld.env (values d.cfName (configLines [] text).1) =
        ((values d.cfName (configLines [] text).1).filter (· ≠ [])).map .string := by
      unfold Cfentry.storedBy
      rw [← List.filterMap_eq_map, List.filterMap_filter]
      refine List.filterMap_congr fun str hstr => ?_
      obtain ⟨line, -, hline⟩ := exists_line_of_values hstr
      have hok := haccepted str hstr
      rw [hread] at hok ⊢
      rw [readString_value hline hok]
      by_cases hs : str = [] <;> simp [hs]
    rw [if_neg hv, hnamed hv]
    show (match latest .zero (d.core.storedBy ld.env (values d.cfName (configLines [] text).1)) with
      | .value (.string s) => some s
      | _ => none) = _
    rw [hstored, latest, List.getLast?_map]
    cases ((values d.cfName (configLines [] text).1).filter (· ≠ [])).getLast? <;> rfl

/-- A number holds what the lines say. -/
theorem number_eq (plus : Bool) {cfCheck : Option IntCheck}
    (h : data.ReadFrom ld (some text)) (hd : d ∈ Messasy.cfe)
    (ht : d.cfType = if plus then .intPlus cfCheck else .integer cfCheck) :
    data.number d.member = numberSetting d (configLines [] text).1 := by
  obtain ⟨-, haccepted, hnamed, hunnamed⟩ := h.entered hd
  rw [EntryDecl.core_extent hd] at hnamed hunnamed
  have hread : ∀ str, d.core.cfType.read ld.env str = readInt plus cfCheck str := by
    intro str
    show d.cfType.read ld.env str = _
    rw [ht]
    cases plus <;> rfl
  unfold ConfigData.number numberSetting
  by_cases hv : values d.cfName (configLines [] text).1 = []
  · obtain ⟨s, hs, hload⟩ := hunnamed hv
    have hdefault : d.core.cfType.default s = .word (toUnsigned (strtol s).1) := by
      show d.cfType.default s = _
      rw [ht]
      cases plus <;> rfl
    have hs : d.cfDefault = some s := hs
    rw [hload, hdefault, hv, hs]
    rfl
  · have hstored : d.core.storedBy ld.env (values d.cfName (configLines [] text).1) =
        (values d.cfName (configLines [] text).1).map
          fun str => .word (toUnsigned (strtol str).1) := by
      unfold Cfentry.storedBy
      rw [← List.filterMap_eq_map]
      refine List.filterMap_congr fun str hstr => ?_
      have hok := haccepted str hstr
      rw [hread] at hok ⊢
      exact readInt_value hok
    obtain ⟨str, hlast⟩ := Option.ne_none_iff_exists'.1 (mt List.getLast?_eq_none_iff.1 hv)
    rw [hnamed hv]
    show (match latest .zero (d.core.storedBy ld.env (values d.cfName (configLines [] text).1)) with
      | .value (.word v) => v
      | _ => 0) = _
    rw [hstored, latest, List.getLast?_map, hlast]
    rfl

/-- An entry with a default is set when its check refuses the empty string. -/
theorem pointer_isSome {c : StrCheck} (h : data.ReadFrom ld (some text))
    (hd : d ∈ Messasy.cfe) (ht : d.cfType = .string (some c)) (hdef : d.cfDefault ≠ none)
    (hempty : c.run ld.env [] ≠ none) : data.pointer d.member ≠ none := by
  rw [pointer_eq h hd ht]
  unfold stringSetting
  by_cases hv : values d.cfName (configLines [] text).1 = []
  · rw [if_pos hv]
    exact hdef
  · rw [if_neg hv]
    obtain ⟨str, hstr⟩ := List.exists_mem_of_ne_nil _ hv
    have hok : d.cfType.read ld.env str ≠ .error := (h.entered hd).2.accepted str hstr
    have hne : str ≠ [] := by
      rintro rfl
      rw [ht] at hok
      exact hok (if_pos hempty)
    intro hnone
    have hfilter := List.filter_eq_nil_iff.1 (List.getLast?_eq_none_iff.1 hnone) str hstr
    exact hfilter (by simpa using hne)

end

/-! ## An example -/

/-- A process without modules. -/
def exampleLoader : Loader Unit where
  env := ⟨fun s => s = bytes "127.0.0.1", fun _ => .ok true, bytes "Not a directory",
    fun _ => .ok (), fun _ => true⟩
  dlsym _ _ := some ()
  mhandleList := []
  addr := 4096
  regcomp _ := none
  msyHostname := bytes "mail"

/-- A file with these lines. -/
def exampleText (lines : List String) : Str := lines.flatMap fun line => bytes line ++ [LF]

/-- The mandatory lines. -/
def plainText : Str :=
  exampleText ["AdminPassword=secret", "MyDomain=a.jp", "SaveMailAddress=@a.jp"]

/-- A password with a space, and LDAP with an empty filter. -/
def awkwardText : Str :=
  exampleText ["AdminPassword=a b", "MyDomain=a.jp", "SaveMailAddress=@a.jp", "LdapCheck=1",
    "LdapMailFilter="]

theorem plainText_loaded : ∃ cfg log', setConfig exampleLoader (some plainText) ⟨.LOG, none⟩ =
      (.ok cfg, log') ∧ cfg.data.pointer .cfAdminpassword = some (bytes "secret") := by
  have hrun : (setConfig exampleLoader (some plainText) ⟨.LOG, none⟩).1.toOption.any
      (fun cfg => cfg.data.pointer .cfAdminpassword = some (bytes "secret")) = true := by
    decide +kernel
  obtain ⟨cfg, log', h, hp⟩ := setConfig_of_any hrun
  exact ⟨cfg, log', h, of_decide_eq_true hp⟩

theorem awkwardText_loaded : ∃ cfg log', setConfig exampleLoader (some awkwardText)
      ⟨.LOG, none⟩ = (.ok cfg, log') ∧ cfg.data.pointer .cfAdminpassword = some (bytes "a b") ∧
      cfg.data.number .cfLdapcheck = 1 ∧ cfg.data.pointer .cfLdapmailfilter = none := by
  have hrun : (setConfig exampleLoader (some awkwardText) ⟨.LOG, none⟩).1.toOption.any
      (fun cfg => cfg.data.pointer .cfAdminpassword = some (bytes "a b") ∧
        cfg.data.number .cfLdapcheck = 1 ∧ cfg.data.pointer .cfLdapmailfilter = none) = true := by
    decide +kernel
  obtain ⟨cfg, log', h, hp⟩ := setConfig_of_any hrun
  exact ⟨cfg, log', h, of_decide_eq_true hp⟩

end Messasy
