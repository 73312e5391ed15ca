import Messasy.Module.Hooks

/-!
# The gzip and enczip modules

The spooled text is handed to an external command, and the file that the command leaves is linked
into the archive folders.
-/

namespace Messasy

open Lib

def GZIP_SUFFIX : Str := bytes ".gz"

def ENCZIP_SUFFIX : Str := bytes ".zip"

def ENCZIP_FIXOPTION : Str := bytes "-qjmP"

/-- The words of `cmd_strrep`. -/
def cmdStrrep (str : Str) (sep : Byte) : List Str := str.splitOn sep

/-- The end of `gzip_close` and `enczip_close`, from `waitpid` to the check that the command has
left its file: its inode number. -/
def awaitCommand (env : Env) (md : Md) (tempstr : Str) (os : Os) : Option Nat × Os :=
  match env.waitpid os.clock with
  | .exited 0 =>
    let os := os.tick
    match env.stat os.clock tempstr with
    | .found _ stIno => (some stIno, os.tick)
    | _ =>
      let os := os.tick
      match env.stat os.clock md.mdTempfilepath with
      | .found _ _ => (none, os.tick.log (.unlink md.mdTempfilepath))
      | _ => (none, os.tick)
  | _ => (none, os.tick.log (.unlink md.mdTempfilepath))

/-! ## gzip -/

/-- `gzip_open`. -/
def gzipOpen (env : Env) (config : ModuleConfig) (view : View) (os : Os) :
    Option (Option Md × Os) :=
  match config with
  | .gzip _ folder => folderOpen folder env view os
  | _ => none

/-- `gzip_close`. -/
def gzipClose (env : Env) (config : Settings) (md : Md) (os : Os) : Option (Rc × Md × Os) :=
  let (md, os) := closeTempfile env md os
  match findConfig (bytes "gzip") config.cfExtraconfig with
  | none => some (.error, md, os)
  | some (.gzip cfGzipcommand _) =>
    match env.stat os.clock md.mdTempfilepath with
    | .found _ _ =>
      let os := os.tick
      if env.fork os.clock then
        let argv := cmdStrrep cfGzipcommand (ch ' ') ++ [md.mdTempfilepath]
        let tempstr := md.mdTempfilepath ++ GZIP_SUFFIX
        match awaitCommand env md tempstr (os.log (.execv argv none)) with
        | (none, os) => some (.error, md, os)
        | (some stIno, os) =>
          let md := { md with mdTempfilepath := tempstr }
          storeFile env md none (saveFilename md stIno config.cfMsyhostname GZIP_SUFFIX) os
      else some (.error, md, os.tick)
    | _ => some (.error, md, os.tick)
  | some _ => none

def gzip : Module := ⟨bytes "gzip", gzipOpen, gzipClose⟩

/-- `gzip_exec_header`. -/
def gzipExecHeader (headerf : Str) (headerv : Option Str) : Hook := gzip.execHeader headerf headerv

/-- `gzip_exec_body`. -/
def gzipExecBody (bodyp : Str) : Hook := gzip.execBody bodyp

/-- `gzip_exec_eom`. -/
def gzipExecEom : Hook := gzip.execEom

/-- `gzip_exec_abort`. -/
def gzipExecAbort : Hook := gzip.execAbort

/-! ## enczip -/

/-- `enczip_open`. -/
def enczipOpen (env : Env) (config : ModuleConfig) (view : View) (os : Os) :
    Option (Option Md × Os) :=
  match config with
  | .enczip _ _ folder => folderOpen folder env view os
  | _ => none

/-- `enczip_close`. Unlike its siblings it unlinks the temporary file when it does not exist or
when the folders cannot be made. -/
def enczipClose (env : Env) (cfg : Settings) (md : Md) (os : Os) : Option (Rc × Md × Os) :=
  let (md, os) := closeTempfile env md os
  match findConfig (bytes "enczip") cfg.cfExtraconfig with
  | none => some (.error, md, os)
  | some (.enczip cfEnczipcommand cfEnczippassword _) =>
    match env.stat os.clock md.mdTempfilepath with
    | .found _ _ =>
      let os := os.tick
      let tempstr := md.mdTempfilepath ++ ENCZIP_SUFFIX
      if env.fork os.clock then
        let argv := cmdStrrep cfEnczipcommand (ch ' ') ++ [tempstr, md.mdTempfilepath]
        let zipopt := ENCZIP_FIXOPTION ++ bytes " " ++ cfEnczippassword
        match awaitCommand env md tempstr (os.log (.execv argv (some zipopt))) with
        | (none, os) => some (.error, md, os)
        | (some stIno, os) =>
          let md := { md with mdTempfilepath := tempstr }
          match storeFile env md none (saveFilename md stIno cfg.cfMsyhostname ENCZIP_SUFFIX) os with
          | some (.success, md, os) => some (.success, md, os)
          | some (rc, md, os) => some (rc, md, os.log (.unlink md.mdTempfilepath))
          | none => none
      else some (.error, md, os.tick)
    | _ => some (.error, md, os.tick.log (.unlink md.mdTempfilepath))
  | some _ => none

def enczip : Module := ⟨bytes "enczip", enczipOpen, enczipClose⟩

/-- `enczip_exec_header`. -/
def enczipExecHeader (headerf : Str) (headerv : Option Str) : Hook :=
  enczip.execHeader headerf headerv

/-- `enczip_exec_body`. -/
def enczipExecBody (bodyp : Str) : Hook := enczip.execBody bodyp

/-- `enczip_exec_eom`. -/
def enczipExecEom : Hook := enczip.execEom

/-- `enczip_exec_abort`. -/
def enczipExecAbort : Hook := enczip.execAbort

end Messasy
