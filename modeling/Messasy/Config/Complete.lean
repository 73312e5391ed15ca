import Messasy.Config.Load

/-!
# What an accepted configuration holds

Every string entry of `cfe` with a check has a default and a check that refuses the empty value,
so its member is set (`checked_isSome`). `set_config` tests three of the others for NULL, and
`AdminPassword`, `MyDomain` and `SaveMailAddress` are set, too. `LdapMailFilter` has neither: an
empty line takes its default away and stores nothing (`setConfig_complete_iff`).
-/

namespace Messasy

open Lib

/-- The check of a string entry. -/
def EntryDecl.strCheck (d : EntryDecl ConfigMember) : Option StrCheck :=
  match d.cfType with
  | .string cfCheck => cfCheck
  | _ => none

/-- The checks of `cfe`. -/
def refusing : List StrCheck :=
  [.isIpaddr, .isSyslogFacility, .isErroraction, .isSavepolicy, .isNotNull, .isLdapscope]

/-- They refuse the empty string, whatever `inet_aton` says about it. -/
theorem refusing_nil (env : ConfEnv) : ∀ c ∈ refusing, c.run env [] ≠ none := by
  intro c hc
  simp only [refusing, List.mem_cons, List.not_mem_nil, or_false] at hc
  rcases hc with rfl | rfl | rfl | rfl | rfl | rfl
  · show isIpaddr env [] ≠ none
    unfold isIpaddr
    cases env.inetAton [] <;> decide
  · exact (by decide : isSyslogFacility [] ≠ none)
  · exact (by decide : isErroraction [] ≠ none)
  · exact (by decide : isSavepolicy [] ≠ none)
  · exact (by decide : isNotNull [] ≠ none)
  · exact (by decide : isLdapscope [] ≠ none)

theorem cfe_strCheck : ∀ d ∈ Messasy.cfe, ∀ c ∈ d.strCheck, d.cfDefault ≠ none ∧ c ∈ refusing := by
  decide +kernel

/-- The members of the entries with a check. -/
def checkedMembers : List ConfigMember :=
  [.cfListenip, .cfSyslogfacility, .cfErroraction, .cfSavepolicy, .cfDefaultdomain, .cfLdapserver,
    .cfLdapscope]

theorem checkedMembers_entry : ∀ f ∈ checkedMembers, ∃ d ∈ Messasy.cfe, d.member = f ∧
    d.strCheck.isSome := by
  decide

section
variable {P : Type} {ld : Loader P} {text : Str} {file : Option Str} {data : ConfigData P}
  {cfg : LoadedConfig P} {log log' : LogState} {f : ConfigMember}

theorem ConfigData.ReadFrom.readable (h : data.ReadFrom ld file) : ∃ text, file = some text := by
  obtain ⟨st, -, hread⟩ := h
  cases file with
  | none => cases congrArg Prod.fst (Option.some.inj hread)
  | some text => exact ⟨text, rfl⟩

/-- A member whose entry has a check is set. -/
theorem checked_isSome (h : data.ReadFrom ld file) (hf : f ∈ checkedMembers) :
    data.pointer f ≠ none := by
  obtain ⟨text, rfl⟩ := h.readable
  obtain ⟨d, hd, rfl, hsome⟩ := checkedMembers_entry f hf
  obtain ⟨c, hc⟩ := Option.isSome_iff_exists.1 hsome
  obtain ⟨hdef, hmem⟩ := cfe_strCheck d hd c hc
  have ht : d.cfType = .string (some c) := by
    unfold EntryDecl.strCheck at hc
    split at hc
    case h_1 cfCheck heq => rw [heq, hc]
    case h_2 => cases hc
  exact pointer_isSome h hd ht hdef (refusing_nil ld.env c hmem)

/-! ## `set_config` uses no NULL -/

theorem Except.bind_eq_error {ε α β : Type} {x : Except ε α} {g : α → Except ε β} {e : ε} :
    (x >>= g) = .error e ↔ x = .error e ∨ ∃ a, x = .ok a ∧ g a = .error e := by
  cases x with
  | error e' =>
    constructor
    · intro h
      cases h
      exact .inl rfl
    · rintro (h | ⟨a, ha, -⟩)
      · cases h
        rfl
      · cases ha
  | ok a =>
    constructor
    · exact fun h => .inr ⟨a, rfl, h⟩
    · rintro (h | ⟨a', ha, h⟩)
      · cases h
      · cases ha
        exact h

theorem orError_ne_null {α : Type} {o : Option α} : orError o ≠ .error .null := by
  cases o with
  | none => exact fun h => by cases h
  | some a => exact fun h => by cases h

theorem orNull_ne_null {α : Type} {o : Option α} (h : o ≠ none) : orNull o ≠ .error .null := by
  cases o with
  | none => exact absurd rfl h
  | some a => exact fun h => by cases h

theorem convConfig_ne_null (h : data.ReadFrom ld file) (hm : data.mandatory = .ok ()) :
    convConfig ld data ≠ .error .null := by
  obtain ⟨-, hdomain, haddress, -⟩ := mandatory_ok hm
  unfold convConfig
  intro he
  rcases Except.bind_eq_error.1 he with he | ⟨_, -, he⟩
  · exact orNull_ne_null (checked_isSome h (by decide)) he
  rcases Except.bind_eq_error.1 he with he | ⟨_, -, he⟩
  · exact orError_ne_null he
  rcases Except.bind_eq_error.1 he with he | ⟨_, -, he⟩
  · exact orNull_ne_null (checked_isSome h (by decide)) he
  rcases Except.bind_eq_error.1 he with he | ⟨_, -, he⟩
  · exact orError_ne_null he
  rcases Except.bind_eq_error.1 he with he | ⟨_, -, he⟩
  · exact orNull_ne_null (checked_isSome h (by decide)) he
  rcases Except.bind_eq_error.1 he with he | ⟨_, -, he⟩
  · exact orError_ne_null he
  rcases Except.bind_eq_error.1 he with he | ⟨_, -, he⟩
  · exact orError_ne_null he
  rcases Except.bind_eq_error.1 he with he | ⟨_, -, he⟩
  · exact orNull_ne_null hdomain he
  rcases Except.bind_eq_error.1 he with he | ⟨_, -, he⟩
  · exact orNull_ne_null haddress he
  cases he

theorem mandatory_ne_null : data.mandatory ≠ .error .null := by
  intro he
  unfold ConfigData.mandatory at he
  repeat' split at he
  all_goals cases he

/-- `set_config` reads no null pointer, whatever the file. -/
theorem loadConfig_ne_null : loadConfig ld file ≠ .error .null := by
  unfold loadConfig
  intro he
  rcases Except.bind_eq_error.1 he with he | ⟨st, hst, he⟩
  · exact orError_ne_null he
  have hst := orError_eq_ok.1 hst
  rw [entries_table hst] at he
  rcases Except.bind_eq_error.1 he with he | ⟨table, htable, he⟩
  · cases he
  obtain rfl := Option.some.inj (orNull_eq_ok.1 htable)
  rcases Except.bind_eq_error.1 he with he | ⟨data, hdata, he⟩
  · unfold readData at he
    split at he <;> cases he
  have hread := readData_ok hst hdata
  rcases Except.bind_eq_error.1 he with he | ⟨_, hm, he⟩
  · exact mandatory_ne_null he
  rcases Except.bind_eq_error.1 he with he | ⟨_, -, he⟩
  · exact convConfig_ne_null hread hm he
  rcases Except.bind_eq_error.1 he with he | ⟨_, -, he⟩
  · exact orNull_ne_null (checked_isSome hread (by decide)) he
  split at he <;> cases he

/-! ## Completeness -/

/-- The strings that later code uses without a test for NULL. -/
structure Complete (data : ConfigData P) : Prop where
  listenip : data.pointer .cfListenip ≠ none
  adminpassword : data.pointer .cfAdminpassword ≠ none
  mydomain : data.pointer .cfMydomain ≠ none
  savemailaddress : data.pointer .cfSavemailaddress ≠ none
  defaultdomain : data.pointer .cfDefaultdomain ≠ none
  erroraction : data.pointer .cfErroraction ≠ none
  savepolicy : data.pointer .cfSavepolicy ≠ none
  ldapscope : data.pointer .cfLdapscope ≠ none
  ldap : data.number .cfLdapcheck = 1 →
    data.pointer .cfLdapserver ≠ none ∧ data.pointer .cfLdapmailfilter ≠ none

/-- The last `LdapCheck` line sets 1. -/
def LdapCheckOn (lines : List Str) : Prop :=
  ∃ str, (values (bytes "LdapCheck") lines).getLast? = some str ∧ toUnsigned (strtol str).1 = 1

/-- No `LdapMailFilter` line, or one with a value. -/
def FilterGiven (lines : List Str) : Prop :=
  values (bytes "LdapMailFilter") lines = [] ∨
    ∃ str ∈ values (bytes "LdapMailFilter") lines, str ≠ []

theorem ldapcheck_eq_one (h : data.ReadFrom ld (some text)) :
    data.number .cfLdapcheck = 1 ↔ LdapCheckOn (configLines [] text).1 := by
  have hd : (⟨bytes "LdapCheck", .integer (some .isBoolean), some (bytes "0"), .cfLdapcheck⟩ :
    EntryDecl ConfigMember) ∈ Messasy.cfe := by decide +kernel
  have hn := number_eq false h hd rfl
  rw [hn]
  unfold numberSetting LdapCheckOn
  cases (values (bytes "LdapCheck") (configLines [] text).1).getLast? with
  | none =>
    have hzero : toUnsigned (strtol (bytes "0")).1 ≠ 1 := by decide +kernel
    constructor
    · exact fun h => absurd h hzero
    · rintro ⟨str, hstr, -⟩
      cases hstr
  | some str =>
    constructor
    · exact fun h => ⟨str, rfl, h⟩
    · rintro ⟨s, hs, h⟩
      cases hs
      exact h

theorem ldapmailfilter_ne_none (h : data.ReadFrom ld (some text)) :
    data.pointer .cfLdapmailfilter ≠ none ↔ FilterGiven (configLines [] text).1 := by
  have hd : (⟨bytes "LdapMailFilter", .string none, some (bytes "(mail=%M)"),
    .cfLdapmailfilter⟩ : EntryDecl ConfigMember) ∈ Messasy.cfe := by decide +kernel
  have hp := pointer_eq h hd rfl
  rw [hp]
  unfold stringSetting FilterGiven
  by_cases hv : values (bytes "LdapMailFilter") (configLines [] text).1 = []
  · rw [if_pos hv]
    exact ⟨fun _ => .inl hv, fun _ => Option.some_ne_none _⟩
  · rw [if_neg hv, Ne, List.getLast?_eq_none_iff, List.filter_eq_nil_iff]
    constructor
    · intro hne
      obtain ⟨str, hstr, hs⟩ : ∃ str ∈ values (bytes "LdapMailFilter") (configLines [] text).1,
          str ≠ [] := by
        by_contra hall
        refine hne fun str hstr => ?_
        have hnil : str = [] := not_not.1 fun hs => hall ⟨str, hstr, hs⟩
        simp [hnil]
      exact .inr ⟨str, hstr, hs⟩
    · rintro (hnil | ⟨str, hstr, hs⟩)
      · exact absurd hnil hv
      · exact fun hall => hall str hstr (by simpa using hs)

/-- **Completeness**: an accepted configuration is complete unless it asks for LDAP and gives
`LdapMailFilter` empty values only. -/
theorem setConfig_complete_iff (h : setConfig ld (some text) log = (.ok cfg, log')) :
    Complete cfg.data ↔
      (LdapCheckOn (configLines [] text).1 → FilterGiven (configLines [] text).1) := by
  obtain ⟨facility, hload, -⟩ := setConfig_ok h
  obtain ⟨hread, hm, -, -⟩ := loadConfig_ok hload
  obtain ⟨hpassword, hdomain, haddress, -⟩ := mandatory_ok hm
  rw [← ldapcheck_eq_one hread, ← ldapmailfilter_ne_none hread]
  constructor
  · exact fun hc hon => (hc.ldap hon).2
  · intro hf
    exact
      { listenip := checked_isSome hread (by decide)
        adminpassword := hpassword
        mydomain := hdomain
        savemailaddress := haddress
        defaultdomain := checked_isSome hread (by decide)
        erroraction := checked_isSome hread (by decide)
        savepolicy := checked_isSome hread (by decide)
        ldapscope := checked_isSome hread (by decide)
        ldap := fun hon => ⟨checked_isSome hread (by decide), hf hon⟩ }

end

/-- No LDAP. -/
theorem setConfig_complete_iff_plain : ∃ (cfg : LoadedConfig Unit) (log' : LogState),
    setConfig exampleLoader (some plainText) ⟨.LOG, none⟩ = (.ok cfg, log') ∧
    (Complete cfg.data ↔ (LdapCheckOn (configLines [] plainText).1 →
      FilterGiven (configLines [] plainText).1)) := by
  obtain ⟨cfg, log', h, -⟩ := plainText_loaded
  exact ⟨cfg, log', h, setConfig_complete_iff h⟩

/-- LDAP with an empty line for the filter. -/
theorem setConfig_incomplete : ¬ ∀ (ld : Loader Unit) (text : Str) (log log' : LogState)
    (cfg : LoadedConfig Unit), setConfig ld (some text) log = (.ok cfg, log') →
      Complete cfg.data := by
  intro hall
  obtain ⟨cfg, log', h, -, hcheck, hfilter⟩ := awkwardText_loaded
  exact ((hall _ _ _ _ _ h).ldap hcheck).2 hfilter

end Messasy
