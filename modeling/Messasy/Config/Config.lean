import Messasy.Utils.Strlist

/-!
# The loaded configuration (`msy_config.h`)

The fields of `struct config` that the milter side reads, after `conv_config`. The hook lists and
the reference counter are kept apart: `Messasy.Milter.Session` pairs the settings with the loaded
modules' hooks, `Messasy.Config.Lifetime` counts references.
-/

namespace Messasy

open Lib

/-- `cf_erroraction_conv`: what `conv_erroraction` can store. -/
inductive ErrorAction
  | accept
  | reject
  | tempfail
  deriving DecidableEq, Repr

/-- `cf_savepolicy_conv`: what `conv_savepolicy` can store. -/
inductive SavePolicy
  | none
  | onlyfrom
  | onlyto
  | both
  deriving DecidableEq, Repr

/-- The numbers behind the policies (`NONE`, `ONLYFROM`, `ONLYTO`, `BOTH`). -/
def SavePolicy.conv : SavePolicy → Nat
  | .none => 0
  | .onlyfrom => 1
  | .onlyto => 2
  | .both => 3

def FROM : Nat := 1

def TO : Nat := 2

/-- The settings the four folder-making options of a module share. -/
structure FolderConfig where
  cfMaildir : Str
  cfMailfolder : Str
  cfDotdelimiter : Str
  cfSlashdelimiter : Str
  deriving DecidableEq

/-- What `excf_config` points to, by module. -/
inductive ModuleConfig
  | maildrop (folder : FolderConfig)
  | gzip (cfGzipcommand : Str) (folder : FolderConfig)
  | enczip (cfEnczipcommand cfEnczippassword : Str) (folder : FolderConfig)
  | lda (cfLdacommand : Str)
  deriving DecidableEq

structure ExtraConfig where
  excfModulename : Str
  excfConfig : ModuleConfig
  deriving DecidableEq

/-- `struct config`. A pointer field that a loaded configuration may leave NULL is an `Option`;
`cf_saveignoreheader_regex` is the test that `regexec` makes with the compiled pattern. -/
structure Settings where
  cfErroractionConv : ErrorAction
  cfSavepolicyConv : SavePolicy
  cfMydomain : Str
  cfSavemailaddress : Str
  cfSaveignoreheaderRegex : Option (Str → Bool)
  cfDefaultdomain : Str
  cfLdapcheck : Nat
  cfLdapmailfilter : Option Str
  cfMsyhostname : Str
  cfExtraconfig : List ExtraConfig

/-- `cf_mydomain_list`, as `conv_config` builds it. -/
def Settings.cfMydomainList (cfg : Settings) : List Str := splitComma cfg.cfMydomain

/-- `cf_savemailaddress_list`, as `conv_config` builds it. -/
def Settings.cfSavemailaddressList (cfg : Settings) : List Str :=
  splitComma cfg.cfSavemailaddress

/-- The configuration of `example/messasy.conf`, without a module. -/
def exampleConfig : Settings where
  cfErroractionConv := .accept
  cfSavepolicyConv := .both
  cfMydomain := bytes "example.com"
  cfSavemailaddress := bytes "@example.com"
  cfSaveignoreheaderRegex := none
  cfDefaultdomain := bytes "example.com"
  cfLdapcheck := 0
  cfLdapmailfilter := some (bytes "(mail=%M)")
  cfMsyhostname := bytes "mail"
  cfExtraconfig := []

/-- The maildrop settings of `example/messasy.conf`. -/
def exampleFolder : FolderConfig where
  cfMaildir := bytes "/var/lib/messasy/maildrop/Maildir"
  cfMailfolder := bytes ".%y.%m.%d"
  cfDotdelimiter := bytes ","
  cfSlashdelimiter := bytes "_"

end Messasy
