import Messasy.Lib.Printf
import Messasy.Module.Hooks

/-!
# The lda module

The spooled text is piped to a command of the shell, once for each address. The command is made in
two steps: `ldaTemplate` turns the first `%m` of `LDACommand` into `%s` and drops the others, and
`sprintf` then puts the address there. Both write into arrays of 1024 bytes.
-/

namespace Messasy

open Lib

/-- `sizeof(command)` and `sizeof(exec_command)`. -/
def COMMAND_SIZE : Nat := 1024

def MAX_COMMAND_LENGTH : Nat := 1280

def TMP_DIR : Str := bytes "/tmp"

def RETRY_LIMIT : Nat := 3

/-- The retries of `lda_open`. -/
def mkstempRetry (env : Env) (md : Md) : Nat → Os → Option Md × Os
  | 0, os => (none, os)
  | k + 1, os =>
    match mkstemp env md (TMP_DIR ++ bytes "/") os with
    | (some md, os) => (some md, os)
    | (none, os) => mkstempRetry env md k os

/-- `lda_open`. -/
def ldaOpen (env : Env) (config : ModuleConfig) (view : View) (os : Os) :
    Option (Option Md × Os) :=
  match config with
  | .lda _ => (mdStructInit none view).map fun md => mkstempRetry env md RETRY_LIMIT os
  | _ => none

/-- The rewriting loop of `lda_close` and its `m_found`. The array ends before the bound that the
loop tests, so the bound is never what stops it. -/
def ldaTemplate : Str → Bool → Str × Bool
  | [], mFound => ([], mFound)
  | [c], mFound => ([c], mFound)
  | c :: d :: origCmd, mFound =>
    if c = ch '%' ∧ d = ch 'm' then
      if mFound then ldaTemplate origCmd mFound
      else
        let (writer, mFound) := ldaTemplate origCmd true
        (ch '%' :: ch 's' :: writer, mFound)
    else
      let (writer, mFound) := ldaTemplate (d :: origCmd) mFound
      (c :: writer, mFound)

/-- A text that fits an array with its NUL. -/
def fits (size : Nat) (text : Str) : Option Str := if text.length < size then some text else none

/-- The text that `lda_close` hands to the shell for one address. A template that is too long for
the test on `MAX_COMMAND_LENGTH` is tested again and again. -/
def ldaCommand (cfLdacommand address : Str) : Option Str :=
  let (command, mFound) := ldaTemplate cfLdacommand false
  match fits COMMAND_SIZE command with
  | none => none
  | some command =>
    if mFound then
      if MAX_COMMAND_LENGTH - 1 < command.length + 256 then none
      else (sprintf command address).bind (fits COMMAND_SIZE)
    else some command

/-- The delivery loop of `lda_close`. While no pipe can be made it stays at the same address. -/
def deliverLoop (env : Env) (cfLdacommand : Str) (md : Md) : List Str → Os → Option (Rc × Os)
  | [], os => some (.success, os)
  | address :: currentAddr, os =>
    match ldaCommand cfLdacommand address, env.pipe2 os.clock with
    | some execCommand, some failures =>
      let os := (os.repeated (.pipe2 false) failures).log (.pipe2 true)
      if env.fork os.clock then
        let os := os.log (.sh execCommand md.tempfile)
        deliverLoop env cfLdacommand md currentAddr os.tick
      else some (.error, os.tick)
    | _, _ => none

/-- `lda_close`. -/
def ldaClose (env : Env) (config : Settings) (md : Md) (os : Os) : Option (Rc × Md × Os) :=
  let (md, os) := closeTempfile env md os
  match findConfig (bytes "lda") config.cfExtraconfig with
  | none => some (.error, md, os)
  | some (.lda cfLdacommand) =>
    if env.fopen os.clock then
      match deliverLoop env cfLdacommand md md.mdSaveaddr os.tick with
      | none => none
      | some (.success, os) => some (.success, md, os.log (.unlink md.mdTempfilepath))
      | some (rc, os) => some (rc, md, os)
    else some (.error, md, os.tick)
  | some _ => none

def lda : Module := ⟨bytes "lda", ldaOpen, ldaClose⟩

/-- `lda_exec_header`. -/
def ldaExecHeader (headerf : Str) (headerv : Option Str) : Hook := lda.execHeader headerf headerv

/-- `lda_exec_body`. -/
def ldaExecBody (bodyp : Str) : Hook := lda.execBody bodyp

/-- `lda_exec_eom`. -/
def ldaExecEom : Hook := lda.execEom

/-- `lda_exec_abort`. -/
def ldaExecAbort : Hook := lda.execAbort

end Messasy
