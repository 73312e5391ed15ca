import Messasy.Module.Hooks

/-!
# The maildrop module

The spooled text itself is linked into the archive folders.
-/

namespace Messasy

open Lib

/-- `maildrop_open`. -/
def maildropOpen (env : Env) (config : ModuleConfig) (view : View) (os : Os) :
    Option (Option Md × Os) :=
  match config with
  | .maildrop folder => folderOpen folder env view os
  | _ => none

/-- `maildrop_close`. -/
def maildropClose (env : Env) (config : Settings) (md : Md) (os : Os) : Option (Rc × Md × Os) :=
  let (md, os) := closeTempfile env md os
  match env.stat os.clock md.mdTempfilepath with
  | .found _ stIno =>
    storeFile env md (some md.tempfile) (saveFilename md stIno config.cfMsyhostname []) os.tick
  | _ => some (.error, md, os.tick)

def maildrop : Module := ⟨bytes "maildrop", maildropOpen, maildropClose⟩

/-- `maildrop_exec_header`. -/
def maildropExecHeader (headerf : Str) (headerv : Option Str) : Hook :=
  maildrop.execHeader headerf headerv

/-- `maildrop_exec_body`. -/
def maildropExecBody (bodyp : Str) : Hook := maildrop.execBody bodyp

/-- `maildrop_exec_eom`. -/
def maildropExecEom : Hook := maildrop.execEom

/-- `maildrop_exec_abort`. -/
def maildropExecAbort : Hook := maildrop.execAbort

end Messasy
