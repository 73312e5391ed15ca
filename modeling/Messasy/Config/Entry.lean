import Messasy.Lib.Layout
import Messasy.Module.Check

/-!
# Configuration entries

The table `cfe` of `msy_config.c`, the tables of the modules, the structs their entries store
into, and the check functions (`msy_config.c`, `libdgconfig.c`). Sizes are those of a platform
with 4-byte `int` and 8-byte pointers. A check yields the text of its error, or `none`.
-/

namespace Messasy

open Lib

/-! ## Checks -/

/-- What the checks ask of the system, with the texts of `strerror`. -/
structure ConfEnv where
  inetAton : Str → Bool
  /-- Whether the path is a directory. -/
  stat : Str → Except Str Bool
  enotdir : Str
  accessW : Str → Except Str Unit
  accessX : Str → Bool

def ERR_CONF_IPADDR : Str := bytes "invalid ip address"

def ERR_CONF_PORT : Str := bytes "invalid port number"

def ERR_CONF_BOOL : Str := bytes "invalid number"

def ERR_CONF_LDAPSCAPE : Str := bytes "invalid LDAP database scope"

def ERR_CONF_SYSLOGFACILITY : Str := bytes "unknown syslog facility string"

def ERR_CONF_TIMEOUT : Str := bytes "invalid timeout value"

def ERR_CONF_ERRORACTION : Str := bytes "invalid erroraction value"

def ERR_CONF_SAVEPOLICY : Str := bytes "invalid savepolicy value"

def ERR_CONF_NULL : Str := bytes "must be set"

def ERR_CONF_COMMANDMAXCLIENTS : Str := bytes "invalid commandmaxclients value"

def ERR_FILE_EXIST : Str := bytes "nosuch file directory"

def ERR_FILE_EXECUTE_PERMITION : Str := bytes "execute permission denied"

def ERR_PASSWORD_NULL : Str := bytes "password must be set"

def ERR_INVALID_PASSWORD : Str := bytes "invalid password value"

def CHAR_PASSWORD : Str := bytes "abcdefghijklmnopqrstuvwxyzABCDEFGHIJKLMNOPQRSTUVWXYZ0123456789"

def isIpaddr (env : ConfEnv) (str : Str) : Option Str :=
  if env.inetAton str = false then some ERR_CONF_IPADDR
  else if str.count (ch '.') ≠ 3 then some ERR_CONF_IPADDR
  else none

def isPort (value : Int) : Option Str :=
  if value < 0 ∨ value > 65535 then some ERR_CONF_PORT else none

def isBoolean (value : Int) : Option Str :=
  if value ≠ 0 ∧ value ≠ 1 then some ERR_CONF_BOOL else none

/-- `MAX_TIME` is `INT_MAX`. -/
def isTimeout (value : Int) : Option Str :=
  if value < 1 ∨ value > 2147483647 then some ERR_CONF_TIMEOUT else none

def isCommandmaxclients (value : Int) : Option Str :=
  if value < 1 ∨ value > 65535 then some ERR_CONF_COMMANDMAXCLIENTS else none

/-- One of the words, whatever the case. -/
def isOneOf (words : List String) (err str : Str) : Option Str :=
  if words.any fun w => caseEq str (bytes w) then none else some err

def isErroraction (str : Str) : Option Str :=
  isOneOf ["accept", "reject", "tempfail"] ERR_CONF_ERRORACTION str

def isSavepolicy (str : Str) : Option Str :=
  isOneOf ["both", "onlyfrom", "onlyto", "none"] ERR_CONF_SAVEPOLICY str

/-- `strcmp`, unlike its siblings. -/
def isLdapscope (str : Str) : Option Str :=
  if str ≠ bytes "onelevel" ∧ str ≠ bytes "subtree" then some ERR_CONF_LDAPSCAPE else none

def isNotNull (str : Str) : Option Str := if str = [] then some ERR_CONF_NULL else none

/-- `facilitynames` of `syslog.h`. -/
def facilitynames : List (Str × Nat) :=
  [(bytes "auth", 32), (bytes "authpriv", 80), (bytes "cron", 72), (bytes "daemon", 24),
    (bytes "ftp", 88), (bytes "kern", 0), (bytes "lpr", 48), (bytes "mail", 16),
    (bytes "mark", 192), (bytes "news", 56), (bytes "security", 32), (bytes "syslog", 40),
    (bytes "user", 8), (bytes "uucp", 64), (bytes "local0", 128), (bytes "local1", 136),
    (bytes "local2", 144), (bytes "local3", 152), (bytes "local4", 160), (bytes "local5", 168),
    (bytes "local6", 176), (bytes "local7", 184)]

def syslogFacility (str : Str) : Option Nat :=
  (facilitynames.find? fun f => caseEq str f.1).map Prod.snd

def isSyslogFacility (str : Str) : Option Str :=
  if caseEq str (bytes "stderr") then none
  else if caseEq str (bytes "none") then none
  else if syslogFacility str = none then some ERR_CONF_SYSLOGFACILITY
  else none

def MAX_CONFIG_LINE : Nat := 1024

/-- `ERR_CONF_FILEDIR`. -/
def errConfFiledir (str err : Str) : Str := str ++ bytes ": " ++ err

def isWritableDirectory (env : ConfEnv) (str : Str) : Option Str :=
  match env.stat str with
  | .error err => some (errConfFiledir str err)
  | .ok false => some (errConfFiledir str env.enotdir)
  | .ok true =>
    match env.accessW str with
    | .error err => some (errConfFiledir str err)
    | .ok () => none

/-- The text of the error, with its NUL, stays inside of `errbuf`, which `sprintf` fills without a
bound. -/
def isWritableDirectoryFits (env : ConfEnv) (str : Str) : Bool :=
  (isWritableDirectory env str).all fun err => err.length < MAX_CONFIG_LINE

/-- The command is what stands before the first space. -/
def isExecutableFile (env : ConfEnv) (str : Str) : Option Str :=
  let cmd := before str (ch ' ')
  match env.stat cmd with
  | .error _ => some ERR_FILE_EXIST
  | .ok _ => if env.accessX cmd then none else some ERR_FILE_EXECUTE_PERMITION

def isExecutableFileSize (env : ConfEnv) (str : Str) : Option Str :=
  if str.length > 1024 then some (bytes "File path is too long.") else isExecutableFile env str

def isUsablePassword (password : Str) : Option Str :=
  if isNotNull password ≠ none then some ERR_PASSWORD_NULL
  else if password.all (· ∈ CHAR_PASSWORD) then none
  else some ERR_INVALID_PASSWORD

/-! ## Entries -/

/-- `cf_check` of a number. -/
inductive IntCheck
  | isPort
  | isTimeout
  | isCommandmaxclients
  | isBoolean
  deriving DecidableEq, Repr

def IntCheck.run : IntCheck → Int → Option Str
  | .isPort => Messasy.isPort
  | .isTimeout => Messasy.isTimeout
  | .isCommandmaxclients => Messasy.isCommandmaxclients
  | .isBoolean => Messasy.isBoolean

/-- `cf_check` of a string. -/
inductive StrCheck
  | isIpaddr
  | isSyslogFacility
  | isErroraction
  | isSavepolicy
  | isNotNull
  | isLdapscope
  | isWritableDirectory
  | isMailfolder
  | isDotdelimiter
  | isSlashdelimiter
  | isExecutableFile
  | isUsablePassword
  | isExecutableFileSize
  deriving DecidableEq, Repr

def StrCheck.run (env : ConfEnv) : StrCheck → Str → Option Str
  | .isIpaddr => Messasy.isIpaddr env
  | .isSyslogFacility => Messasy.isSyslogFacility
  | .isErroraction => Messasy.isErroraction
  | .isSavepolicy => Messasy.isSavepolicy
  | .isNotNull => Messasy.isNotNull
  | .isLdapscope => Messasy.isLdapscope
  | .isWritableDirectory => Messasy.isWritableDirectory env
  | .isMailfolder => Messasy.isMailfolder
  | .isDotdelimiter => Messasy.isDotdelimiter
  | .isSlashdelimiter => Messasy.isSlashdelimiter
  | .isExecutableFile => Messasy.isExecutableFile env
  | .isUsablePassword => Messasy.isUsablePassword
  | .isExecutableFileSize => Messasy.isExecutableFileSize env

/-- The check writes inside of its arrays. `is_writable_directory` is the only one that has one. -/
def StrCheck.fits (env : ConfEnv) : StrCheck → Str → Bool
  | .isWritableDirectory => isWritableDirectoryFits env
  | _ => fun _ => true

/-- `cf_type` with the `cf_check` that fits it. -/
inductive CfType
  | integer (cfCheck : Option IntCheck)
  | intPlus (cfCheck : Option IntCheck)
  | string (cfCheck : Option StrCheck)
  deriving DecidableEq, Repr

def INT : CType := ⟨4, 4⟩

def POINTER : CType := ⟨8, 8⟩

/-- The type of the values of an entry. -/
def CfType.ctype : CfType → CType
  | .integer _ => INT
  | .intPlus _ => INT
  | .string _ => POINTER

/-- `struct cfentry`. -/
structure Cfentry where
  cfName : Str
  cfType : CfType
  cfDefault : Option Str
  cfDataoffset : Nat
  deriving DecidableEq

/-- `sizeof(struct cfentry)`: the name, the type, the default, the offset and the check. -/
def sizeofCfentry : Nat := structSize id [POINTER, INT, POINTER, INT, POINTER]

/-- Where an entry stores. -/
def Cfentry.extent (e : Cfentry) : Extent := ⟨e.cfDataoffset, e.cfType.ctype.size⟩

/-- An entry as its table declares it, with the member it stores into. -/
structure EntryDecl (F : Type) where
  cfName : Str
  cfType : CfType
  cfDefault : Option Str
  member : F
  deriving DecidableEq

/-- The initialiser with `MESSASY_OFFSET`. -/
def EntryDecl.cfentry {F : Type} [DecidableEq F] (ctype : F → CType) (members : List F)
    (d : EntryDecl F) : Cfentry :=
  ⟨d.cfName, d.cfType, d.cfDefault, (memberExtent ctype members d.member).start⟩

/-! ## `struct config` and `cfe` -/

inductive ConfigMember
  | cfRefCountLock
  | cfRefCount
  | cfReloaded
  | cfListenip
  | cfListenport
  | cfTimeout
  | cfSyslogfacility
  | cfErroraction
  | cfCommandport
  | cfAdminpassword
  | cfCommandmaxclients
  | cfCommandtimeout
  | cfSavepolicy
  | cfMydomain
  | cfSavemailaddress
  | cfSaveignoreheader
  | cfDefaultdomain
  | cfLdapcheck
  | cfLdapserver
  | cfLdapport
  | cfLdapbinddn
  | cfLdapbindpassword
  | cfLdapbasedn
  | cfLdapmailfilter
  | cfLdapscope
  | cfLdaptimeout
  | cfErroractionConv
  | cfSavepolicyConv
  | cfLdapscopeConv
  | cfSaveignoreheaderRegex
  | cfMydomainList
  | cfSavemailaddressList
  | cfExecHeader
  | cfExecBody
  | cfExecEom
  | cfExecEoh
  | cfExecAbort
  | cfExtraconfig
  | cfMsyhostname
  deriving DecidableEq, Repr

namespace ConfigMember

/-- `struct config`, in its order. -/
def all : List ConfigMember :=
  [cfRefCountLock, cfRefCount, cfReloaded, cfListenip, cfListenport, cfTimeout, cfSyslogfacility,
    cfErroraction, cfCommandport, cfAdminpassword, cfCommandmaxclients, cfCommandtimeout,
    cfSavepolicy, cfMydomain, cfSavemailaddress, cfSaveignoreheader, cfDefaultdomain, cfLdapcheck,
    cfLdapserver, cfLdapport, cfLdapbinddn, cfLdapbindpassword, cfLdapbasedn, cfLdapmailfilter,
    cfLdapscope, cfLdaptimeout, cfErroractionConv, cfSavepolicyConv, cfLdapscopeConv,
    cfSaveignoreheaderRegex, cfMydomainList, cfSavemailaddressList, cfExecHeader, cfExecBody,
    cfExecEom, cfExecEoh, cfExecAbort, cfExtraconfig, cfMsyhostname]

def ctype : ConfigMember → CType
  | cfRefCountLock => ⟨40, 8⟩
  | cfRefCount | cfReloaded | cfListenport | cfTimeout | cfCommandport | cfCommandmaxclients
  | cfCommandtimeout | cfLdapcheck | cfLdapport | cfLdaptimeout | cfErroractionConv
  | cfSavepolicyConv | cfLdapscopeConv => INT
  | _ => POINTER

theorem mem_all : ∀ f, f ∈ all := by
  intro f
  cases f <;> decide

def extent (f : ConfigMember) : Extent := memberExtent ctype all f

end ConfigMember

def sizeofConfig : Nat := structSize ConfigMember.ctype ConfigMember.all

/-- The table `cfe`. -/
def cfe : List (EntryDecl ConfigMember) :=
  [⟨bytes "ListenIP", .string (some .isIpaddr), some (bytes "127.0.0.1"), .cfListenip⟩,
    ⟨bytes "ListenPort", .intPlus (some .isPort), some (bytes "20026"), .cfListenport⟩,
    ⟨bytes "TimeOut", .intPlus (some .isTimeout), some (bytes "10"), .cfTimeout⟩,
    ⟨bytes "SyslogFacility", .string (some .isSyslogFacility), some (bytes "local1"),
      .cfSyslogfacility⟩,
    ⟨bytes "ErrorAction", .string (some .isErroraction), some (bytes "tempfail"),
      .cfErroraction⟩,
    ⟨bytes "CommandPort", .intPlus (some .isPort), some (bytes "17777"), .cfCommandport⟩,
    ⟨bytes "AdminPassword", .string none, none, .cfAdminpassword⟩,
    ⟨bytes "CommandMaxClients", .intPlus (some .isCommandmaxclients), some (bytes "16"),
      .cfCommandmaxclients⟩,
    ⟨bytes "CommandTimeOut", .intPlus (some .isTimeout), some (bytes "300"), .cfCommandtimeout⟩,
    ⟨bytes "SavePolicy", .string (some .isSavepolicy), some (bytes "both"), .cfSavepolicy⟩,
    ⟨bytes "MyDomain", .string none, none, .cfMydomain⟩,
    ⟨bytes "SaveMailAddress", .string none, none, .cfSavemailaddress⟩,
    ⟨bytes "SaveIgnoreHeader", .string none, some [], .cfSaveignoreheader⟩,
    ⟨bytes "DefaultDomain", .string (some .isNotNull), some (bytes "localhost.localdomain"),
      .cfDefaultdomain⟩,
    ⟨bytes "LdapCheck", .integer (some .isBoolean), some (bytes "0"), .cfLdapcheck⟩,
    ⟨bytes "LdapServer", .string (some .isIpaddr), some (bytes "127.0.0.1"), .cfLdapserver⟩,
    ⟨bytes "LdapPort", .intPlus (some .isPort), some (bytes "389"), .cfLdapport⟩,
    ⟨bytes "LdapBindDn", .string none, some [], .cfLdapbinddn⟩,
    ⟨bytes "LdapBindPassword", .string none, some [], .cfLdapbindpassword⟩,
    ⟨bytes "LdapBaseDn", .string none, some [], .cfLdapbasedn⟩,
    ⟨bytes "LdapMailFilter", .string none, some (bytes "(mail=%M)"), .cfLdapmailfilter⟩,
    ⟨bytes "LdapScope", .string (some .isLdapscope), some (bytes "subtree"), .cfLdapscope⟩,
    ⟨bytes "LdapTimeout", .intPlus (some .isTimeout), some (bytes "5"), .cfLdaptimeout⟩]

/-! ## The modules' structs and tables -/

/-- The libraries that can be loaded. -/
inductive Lm
  | maildrop
  | gzip
  | enczip
  | lda
  deriving DecidableEq, Repr

/-- The members of the modules' structs; each module has its own prefix to the name
(`cf_gzipmaildir`). -/
inductive LmMember
  | command
  | password
  | maildir
  | mailfolder
  | dotdelimiter
  | slashdelimiter
  deriving DecidableEq, Repr

namespace Lm

/-- `MYMODULE`. -/
def mymodule : Lm → Str
  | maildrop => bytes "maildrop"
  | gzip => bytes "gzip"
  | enczip => bytes "enczip"
  | lda => bytes "lda"

/-- `struct maildrop_config` and its siblings. -/
def members : Lm → List LmMember
  | maildrop => [.maildir, .mailfolder, .dotdelimiter, .slashdelimiter]
  | gzip => [.command, .maildir, .mailfolder, .dotdelimiter, .slashdelimiter]
  | enczip => [.command, .password, .maildir, .mailfolder, .dotdelimiter, .slashdelimiter]
  | lda => [.command]

def memberCtype (_ : LmMember) : CType := POINTER

def sizeofConfig (m : Lm) : Nat := structSize memberCtype m.members

/-- The entries for the archive folders, which three of the modules have. -/
def folderCfe (maildir mailfolder dotdelimiter slashdelimiter : String) :
    List (EntryDecl LmMember) :=
  [⟨bytes maildir, .string (some .isWritableDirectory), none, .maildir⟩,
    ⟨bytes mailfolder, .string (some .isMailfolder), none, .mailfolder⟩,
    ⟨bytes dotdelimiter, .string (some .isDotdelimiter), some (bytes ","), .dotdelimiter⟩,
    ⟨bytes slashdelimiter, .string (some .isSlashdelimiter), some (bytes "_"), .slashdelimiter⟩]

/-- `maildrop_cfe` and its siblings. -/
def cfe : Lm → List (EntryDecl LmMember)
  | maildrop => folderCfe "MailDir" "MailFolder" "DotDelimiter" "SlashDelimiter"
  | gzip =>
    ⟨bytes "GzipCommand", .string (some .isExecutableFile), some (bytes "/usr/bin/gzip"),
      .command⟩ ::
    folderCfe "GzipMailDir" "GzipMailFolder" "GzipDotDelimiter" "GzipSlashDelimiter"
  | enczip =>
    ⟨bytes "EncZipCommand", .string (some .isExecutableFile), some (bytes "/usr/bin/zip"),
      .command⟩ ::
    ⟨bytes "EncZipPassword", .string (some .isUsablePassword), none, .password⟩ ::
    folderCfe "EncZipMailDir" "EncZipMailFolder" "EncZipDotDelimiter" "EncZipSlashDelimiter"
  | lda => [⟨bytes "LDACommand", .string (some .isExecutableFileSize), none, .command⟩]

def extent (m : Lm) (f : LmMember) : Extent := memberExtent memberCtype m.members f

end Lm

/-! ## The tables fit the structs -/

theorem ctype_align_pos : ∀ f, 0 < (ConfigMember.ctype f).align := by
  intro f
  cases f <;> decide

theorem Lm.memberCtype_align_pos : ∀ f, 0 < (memberCtype f).align := fun _ => by
  show 0 < POINTER.align
  decide

theorem cfe_width : ∀ d ∈ cfe, d.cfType.ctype = d.member.ctype := by decide +kernel

theorem Lm.cfe_width : ∀ m : Lm, ∀ d ∈ m.cfe, d.cfType.ctype = memberCtype d.member := by
  intro m
  cases m <;> decide +kernel

theorem Lm.cfe_members : ∀ m : Lm, m.cfe.map (·.member) = m.members := by
  intro m
  cases m <;> rfl

theorem cfe_members : (cfe.map (·.member)).Nodup := by decide +kernel

theorem Lm.mymodule_injective {m m' : Lm} (h : m.mymodule = m'.mymodule) : m = m' := by
  revert h
  cases m <;> cases m' <;> decide

end Messasy
