import Messasy.Module.Entries
import Messasy.Module.Folder

/-!
# The hooks of a module

`maildrop`, `gzip`, `enczip` and `lda` have the same four hooks, written out once for each module;
they differ in the name of the entry, in `*_open` and in `*_close`. Here the hooks are written once
over a `Module` that supplies these.
-/

namespace Messasy

open Lib

/-- What a hook reads of the session besides its private list. A list is `none` when the session's
pointer does not lead to one. -/
structure View where
  config : Settings
  mlfiRecvtime : Nat
  mlfiEnvfrom : Option Str
  mlfiRcptto : Option (List Str)
  mlfiAddrmatched : Option (List Str)

/-- What a hook changes. -/
structure HookSt where
  mlfiExtrapriv : List Extrapriv
  os : Os

/-- A hook returns an `int`; it does not return (`none`) where the source's behaviour is undefined
or a loop does not end. -/
abbrev Hook := Env → View → HookSt → Option (Int × HookSt)

/-- A call of one of the four hooks. -/
inductive HookCall
  | header (headerf : Str) (headerv : Option Str)
  | body (bodyp : Str)
  | eom
  | abort
  deriving DecidableEq

/-- What tells the modules apart. `open_` has the record when the temporary file was made. -/
structure Module where
  mymodule : Str
  open_ : Env → ModuleConfig → View → Os → Option (Option Md × Os)
  close : Env → Settings → Md → Os → Option (Rc × Md × Os)

/-- The search for a module's settings. -/
def findConfig (mymodule : Str) (cfExtraconfig : List ExtraConfig) : Option ModuleConfig :=
  (cfExtraconfig.find? fun p => p.excfModulename = mymodule).map (·.excfConfig)

/-- `md_struct_init`. -/
def mdStructInit (folder : Option FolderConfig) (view : View) : Option Md :=
  match view.mlfiRcptto.bind mdList2str, view.mlfiAddrmatched with
  | some headerTo, some saveaddr => some
    { mdRecvtime := view.mlfiRecvtime
      mdMaildir := (folder.map (·.cfMaildir)).getD []
      mdMailfolder := (folder.map (·.cfMailfolder)).getD []
      mdDotdelimiter := ((folder.map (·.cfDotdelimiter)).getD []).headD 0
      mdSlashdelimiter := ((folder.map (·.cfSlashdelimiter)).getD []).headD 0
      mdTempfilepath := []
      mdTempfileFd := 0
      mdWritingHeader := false
      mdWritingBody := false
      mdCr := false
      mdHeaderFrom := view.mlfiEnvfrom.getD []
      mdHeaderTo := headerTo
      mdSaveaddr := saveaddr
      tempfile := [] }
  | _, _ => none

/-- `mkstemp` on `stem` and six characters that the call chooses. -/
def mkstemp (env : Env) (md : Md) (stem : Str) (os : Os) : Option Md × Os :=
  let (fd, chosen) := env.mkstemp os.clock
  if fd < 0 then (none, os.tick)
  else
    (some { md with mdTempfilepath := stem ++ chosen, mdTempfileFd := fd },
      os.log (.mkstemp (stem ++ chosen) fd))

/-- `maildrop_open`, `gzip_open`, `enczip_open`: the directories of `MailDir`, then the temporary
file in it. -/
def folderOpen (folder : FolderConfig) (env : Env) (view : View) (os : Os) :
    Option (Option Md × Os) :=
  match mdStructInit (some folder) view with
  | none => none
  | some md =>
    let os := mdMakemaildir env folder.cfMaildir os
    let stem := folder.cfMaildir ++ bytes "/tmp/" ++ padded md.mdRecvtime ++ bytes "." ++
      view.config.cfMsyhostname ++ bytes "."
    some (mkstemp env md stem os)

/-- A record as the folder modules' `*_open` sets it. -/
structure Md.OpenedBy (folder : FolderConfig) (view : View) (md : Md) : Prop where
  recvtime : md.mdRecvtime = view.mlfiRecvtime
  maildir : md.mdMaildir = folder.cfMaildir
  mailfolder : md.mdMailfolder = folder.cfMailfolder
  dotdelimiter : md.mdDotdelimiter = folder.cfDotdelimiter.headD 0
  slashdelimiter : md.mdSlashdelimiter = folder.cfSlashdelimiter.headD 0
  tempfilepath : ∃ rest, md.mdTempfilepath = folder.cfMaildir ++ bytes "/tmp/" ++ rest
  headerFrom : md.mdHeaderFrom = view.mlfiEnvfrom.getD []
  headerTo : view.mlfiRcptto.bind mdList2str = some md.mdHeaderTo
  saveaddr : view.mlfiAddrmatched = some md.mdSaveaddr
  progress : md.spooled [] [] = md

/-- What `folderOpen` comes to: it depends on the descriptor that `mkstemp` returns. -/
theorem folderOpen_cases {folder : FolderConfig} {env : Env} {view : View} {os os' : Os}
    {x : Option Md} (h : folderOpen folder env view os = some (x, os')) :
    ∃ i, (x = none ∧ (env.mkstemp i).1 < 0) ∨
      ∃ md : Md, x = some md ∧ md.OpenedBy folder view ∧ md.mdTempfileFd = (env.mkstemp i).1 := by
  unfold folderOpen mdStructInit at h
  cases hl : view.mlfiRcptto.bind mdList2str with
  | none => simp [hl] at h
  | some headerTo =>
    cases ha : view.mlfiAddrmatched with
    | none => simp [hl, ha] at h
    | some saveaddr =>
      refine ⟨(mdMakemaildir env folder.cfMaildir os).clock, ?_⟩
      simp only [hl, ha, mkstemp, Option.some.injEq] at h
      split at h
      · rename_i hneg
        cases h
        exact .inl ⟨rfl, hneg⟩
      · cases h
        refine .inr ⟨_, rfl, ?_, rfl⟩
        exact ⟨rfl, rfl, rfl, rfl, rfl, ⟨_, by simp only [List.append_assoc]; rfl⟩, rfl, hl, ha, rfl⟩

/-- With a recipient and a save list, and a descriptor from `mkstemp`, there is a record. -/
theorem folderOpen_some {folder : FolderConfig} {env : Env} {view : View} {rcpts saveaddr : List Str}
    (hto : view.mlfiRcptto = some rcpts) (hne : rcpts ≠ [])
    (ha : view.mlfiAddrmatched = some saveaddr) (hfd : ∀ i, 0 ≤ (env.mkstemp i).1) (os : Os) :
    ∃ md os', folderOpen folder env view os = some (some md, os') ∧ md.OpenedBy folder view := by
  obtain ⟨headerTo, hl⟩ : ∃ headerTo, view.mlfiRcptto.bind mdList2str = some headerTo := by
    rw [hto]
    exact mdList2str_some hne
  have hsome : ∃ x os', folderOpen folder env view os = some (x, os') := by
    unfold folderOpen mdStructInit
    rw [hl, ha]
    exact ⟨_, _, rfl⟩
  obtain ⟨x, os', h⟩ := hsome
  obtain ⟨i, ⟨-, hneg⟩ | ⟨md, rfl, ho, -⟩⟩ := folderOpen_cases h
  · have := hfd i
    omega
  · exact ⟨md, os', h, ho⟩

/-- The start of `*_exec_header` and `*_exec_body`: the module's record, made with the entry and
the private block when this is the first call of the message. When the file cannot be opened, the
block is freed and the entry keeps pointing to it. -/
def Module.record (m : Module) (env : Env) (view : View) (st : HookSt) :
    Option (Option Md × HookSt) :=
  let expv := getPriv m.mymodule st.mlfiExtrapriv
  match findPriv m.mymodule expv with
  | some .null =>
    match findConfig m.mymodule view.config.cfExtraconfig with
    | none => none
    | some config =>
      match m.open_ env config view st.os with
      | none => none
      | some (none, os) => some (none, ⟨setPriv m.mymodule .freed expv, os⟩)
      | some (some md, os) => some (some md, ⟨setPriv m.mymodule (.block md) expv, os⟩)
  | some (.block md) => some (some md, ⟨expv, st.os⟩)
  | _ => none

/-- The rest of the two hooks: a writer works on the record. -/
def Module.writing (m : Module) (write : Md → Os → Rc × Md × Os) (env : Env) (view : View)
    (st : HookSt) : Option (Int × HookSt) :=
  match m.record env view st with
  | none => none
  | some (none, st) => some (-1, st)
  | some (some md, st) =>
    let (rc, md, os) := write md st.os
    some (if rc = .success then 0 else -1, ⟨setPriv m.mymodule (.block md) st.mlfiExtrapriv, os⟩)

/-- `*_exec_header`. -/
def Module.execHeader (m : Module) (headerf : Str) (headerv : Option Str) : Hook := fun env =>
  m.writing (fun md os => writeHeader env md headerf headerv os) env

/-- `*_exec_body`. -/
def Module.execBody (m : Module) (bodyp : Str) : Hook := fun env =>
  m.writing (fun md os => writeBody env md bodyp os) env

/-- `*_exec_eom`. -/
def Module.execEom (m : Module) : Hook := fun env view st =>
  match findPriv m.mymodule st.mlfiExtrapriv with
  | none => some (0, st)
  | some (.block md) =>
    match m.close env view.config md st.os with
    | none => none
    | some (.success, _, os) => some (0, ⟨removePriv m.mymodule st.mlfiExtrapriv, os⟩)
    | some (_, md, os) => some (-1, ⟨setPriv m.mymodule (.block md) st.mlfiExtrapriv, os⟩)
  | some _ => none

/-- `*_exec_abort`. -/
def Module.execAbort (m : Module) : Hook := fun _ _ st =>
  match findPriv m.mymodule st.mlfiExtrapriv with
  | none => some (0, st)
  | some (.block md) => some (0, ⟨removePriv m.mymodule st.mlfiExtrapriv, abortTempfile md st.os⟩)
  | some _ => none

/-- The hook for a call. -/
def Module.call (m : Module) : HookCall → Hook
  | .header f v => m.execHeader f v
  | .body b => m.execBody b
  | .eom => m.execEom
  | .abort => m.execAbort

end Messasy
