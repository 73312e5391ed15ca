import Messasy.Mail.Addrpart
import Messasy.Module.Hooks

/-!
# The callbacks (`messasy.c`)

The milter side of one connection. Each callback is a function of the system's answers and of the
`World`; it has no result where the source's behaviour is undefined: it reads a NULL record, a
hook does not return, or a list is broken. A callback that gives up calls `mlfi_abort` and then
returns, so it is written up to its `Ending`.
-/

namespace Messasy

open Lib

/-- What a callback tells the MTA. -/
inductive Sfsistat
  | continue_
  | accept
  | reject
  | tempfail
  deriving DecidableEq, Repr

def ErrorAction.sfsistat : ErrorAction → Sfsistat
  | .accept => .accept
  | .reject => .reject
  | .tempfail => .tempfail

theorem ErrorAction.sfsistat_ne (a : ErrorAction) : a.sfsistat ≠ .continue_ := by
  cases a <;> decide

/-- `struct config` with the hooks of the loaded modules. -/
structure Config extends Settings where
  cfExecHeader : List (Str → Option Str → Hook)
  cfExecBody : List (Str → Hook)
  cfExecEom : List Hook
  cfExecAbort : List Hook

/-- The loop of the `msy_exec_*` functions: up to the first hook that does not return 0. -/
def msyExec : List Hook → Hook
  | [], _, _, st => some (0, st)
  | func :: p, env, view, st =>
    match func env view st with
    | none => none
    | some (0, st) => msyExec p env view st
    | some (r, st) => some (r, st)

/-- `msy_exec_header`. -/
def msyExecHeader (cfg : Config) (headerf : Str) (headerv : Option Str) : Hook :=
  msyExec (cfg.cfExecHeader.map fun func => func headerf headerv)

/-- `msy_exec_body`. -/
def msyExecBody (cfg : Config) (bodyp : Str) : Hook :=
  msyExec (cfg.cfExecBody.map fun func => func bodyp)

/-- `msy_exec_eom`. -/
def msyExecEom (cfg : Config) : Hook := msyExec cfg.cfExecEom

/-- `msy_exec_abort`. -/
def msyExecAbort (cfg : Config) : Hook := msyExec cfg.cfExecAbort

/-- `struct mlfiPriv`. -/
structure MlfiPriv where
  config : Config
  mlfiRecvtime : Nat
  mlfiEnvfrom : Option Str
  mlfiRcpttoH : Option Nat
  mlfiRcpttoT : Option Nat
  mlfiAddrmatchedH : Option Nat
  mlfiAddrmatchedT : Option Nat
  mlfiExtrapriv : List Extrapriv
  headerExistence : Bool

/-- What the hooks see of the session. -/
def MlfiPriv.view (priv : MlfiPriv) (heap : StrHeap) : View where
  config := priv.config.toSettings
  mlfiRecvtime := priv.mlfiRecvtime
  mlfiEnvfrom := priv.mlfiEnvfrom
  mlfiRcptto := contents heap.next heap priv.mlfiRcpttoH
  mlfiAddrmatched := contents heap.next heap priv.mlfiAddrmatchedH

/-- The connection's calls of `config_retrieve` and `config_release`. -/
inductive ConfigCall
  | retrieve
  | release
  deriving DecidableEq

/-- One connection: the heap of list nodes, the pointer kept by `smfi_setpriv`, the calls on the
configuration, and the system. -/
structure World where
  heap : StrHeap
  priv : Option MlfiPriv
  calls : List ConfigCall
  os : Os

/-- Before `mlfi_connect`. -/
def World.start : World := ⟨.empty, none, [], .start⟩

/-- Run a hook on the session. -/
def World.exec (w : World) (priv : MlfiPriv) (hook : Hook) (env : Env) : Option (Int × World) :=
  (hook env (priv.view w.heap) ⟨priv.mlfiExtrapriv, w.os⟩).map fun (r, st) =>
    (r, { w with priv := some { priv with mlfiExtrapriv := st.mlfiExtrapriv }, os := st.os })

/-! ## The three clean-ups -/

/-- `eom_cleanup`. -/
def eomCleanup (w : World) : Option (Sfsistat × World) :=
  match w.priv with
  | none => some (.continue_, w)
  | some priv =>
    match freeStrlist w.heap priv.mlfiRcpttoH with
    | none => none
    | some heap =>
      (freeStrlist heap priv.mlfiAddrmatchedH).map fun heap =>
        (.continue_, { w with
          heap
          priv := some { priv with
            mlfiEnvfrom := none
            mlfiRcpttoH := none
            mlfiAddrmatchedH := none
            headerExistence := false } })

/-- `mlfi_cleanup`. -/
def mlfiCleanup (w : World) : Option (Sfsistat × World) :=
  match w.priv with
  | none => some (.continue_, w)
  | some priv =>
    match freeStrlist w.heap priv.mlfiRcpttoH with
    | none => none
    | some heap =>
      (freeStrlist heap priv.mlfiAddrmatchedH).map fun heap =>
        (.continue_, { w with heap, priv := none, calls := w.calls ++ [.release] })

/-- `mlfi_freepriv`. -/
def mlfiFreepriv (w : World) : Sfsistat × World :=
  match w.priv with
  | none => (.accept, w)
  | some _ => (.accept, { w with priv := none, calls := w.calls ++ [.release] })

/-! ## The callbacks -/

/-- `mlfi_connect`; `config` is what `config_retrieve` returns. -/
def mlfiConnect (config : Config) (env : Env) (w : World) : Sfsistat × World :=
  let w : World := { w with calls := w.calls ++ [.retrieve] }
  match env.time with
  | none => (config.cfErroractionConv.sfsistat, { w with calls := w.calls ++ [.release] })
  | some mlfiRecvtime =>
    (.continue_, { w with
      priv := some
        { config
          mlfiRecvtime
          mlfiEnvfrom := none
          mlfiRcpttoH := none
          mlfiRcpttoT := none
          mlfiAddrmatchedH := none
          mlfiAddrmatchedT := none
          mlfiExtrapriv := []
          headerExistence := false } })

/-- `mlfi_envfrom`. -/
def mlfiEnvfrom (envfrom : Str) (w : World) : Option (Sfsistat × World) :=
  w.priv.map fun priv =>
    (.continue_, { w with priv := some { priv with mlfiEnvfrom := some (getAddrpart envfrom) } })

/-- `mlfi_envrcpt`. -/
def mlfiEnvrcpt (rcptto : Str) (w : World) : Option (Sfsistat × World) :=
  match w.priv with
  | none => none
  | some priv =>
    (pushStrlist w.heap priv.mlfiRcpttoH priv.mlfiRcpttoT (getAddrpart rcptto)).map
      fun (heap, hd, tl) =>
        (.continue_,
          { w with heap, priv := some { priv with mlfiRcpttoH := hd, mlfiRcpttoT := tl } })

/-- `mlfi_abort`. -/
def mlfiAbort (env : Env) (w : World) : Option (Sfsistat × World) :=
  match w.priv with
  | none => mlfiCleanup w
  | some priv =>
    match w.exec priv (msyExecAbort priv.config) env with
    | none => none
    | some (0, w) => eomCleanup w
    | some (_, w) =>
      (mlfiCleanup w).map fun (_, w) =>
        (priv.config.cfErroractionConv.sfsistat, (mlfiFreepriv w).2)

theorem mlfiAbort_eq {env : Env} {w : World} {priv : MlfiPriv} (hw : w.priv = some priv) :
    mlfiAbort env w = (w.exec priv (msyExecAbort priv.config) env).bind fun (n, w) =>
      if n = 0 then eomCleanup w
      else (mlfiCleanup w).map fun (_, w) =>
        (priv.config.cfErroractionConv.sfsistat, (mlfiFreepriv w).2) := by
  simp only [mlfiAbort, hw]
  rcases w.exec priv (msyExecAbort priv.config) env with _ | ⟨n, w1⟩
  · rfl
  · by_cases hn : n = 0
    · subst hn
      rfl
    · simp only [Option.bind_some, if_neg hn]

/-- How a callback ends: it returns `r`, or it calls `mlfi_abort` first; without an `r` it returns
what `mlfi_abort` does. -/
inductive Ending
  | return_ (r : Sfsistat) (w : World)
  | abort (r : Option Sfsistat) (w : World)

/-- Run a hook list; when a hook fails, the message is aborted with the error action. -/
def execOrAbort (env : Env) (priv : MlfiPriv) (hook : Hook) (next : World → Option Ending)
    (w : World) : Option Ending :=
  match w.exec priv hook env with
  | none => none
  | some (0, w) => next w
  | some (_, w) => some (.abort (some priv.config.cfErroractionConv.sfsistat) w)

theorem execOrAbort_eq (env : Env) (priv : MlfiPriv) (hook : Hook) (next : World → Option Ending)
    (w : World) : execOrAbort env priv hook next w = (w.exec priv hook env).bind fun (n, w) =>
      if n = 0 then next w else some (.abort (some priv.config.cfErroractionConv.sfsistat) w) := by
  unfold execOrAbort
  rcases w.exec priv hook env with _ | ⟨n, w1⟩
  · rfl
  · by_cases hn : n = 0
    · subst hn
      rfl
    · simp only [Option.bind_some, if_neg hn]

/-- The header check of `mlfi_header`. -/
def ignoreHeader (cfg : Settings) (headerf : Str) (headerv : Option Str) : Option Rc :=
  match cfg.cfSaveignoreheaderRegex with
  | none => some .success
  | some preg => checkHeaderRegex headerf headerv preg

/-- `mlfi_header` on the first header: the save list. The source's test of `header_existence` right
behind it cannot succeed and is left out. -/
def firstHeader (env : Env) (priv : MlfiPriv) (next : MlfiPriv → World → Option Ending)
    (w : World) : Option Ending :=
  match makeSavelist priv.mlfiEnvfrom priv.mlfiRcpttoH w.heap priv.mlfiAddrmatchedH
    priv.mlfiAddrmatchedT priv.config.toSettings env.ldap with
  | none => none
  | some (rc, st) =>
    let priv := { priv with
      headerExistence := true
      mlfiAddrmatchedH := st.savelistH
      mlfiAddrmatchedT := st.savelistT }
    let w := { w with heap := st.heap, priv := some priv }
    if rc ≠ .success then some (.abort (some priv.config.cfErroractionConv.sfsistat) w)
    else if priv.mlfiAddrmatchedH = none then some (.abort (some .accept) w)
    else next priv w

/-- `mlfi_header`: the header check, on the first header the save list, then the hooks. -/
def mlfiHeader (env : Env) (headerf : Str) (headerv : Option Str) (w : World) : Option Ending :=
  match w.priv with
  | none => none
  | some priv =>
    let hooks := fun priv => execOrAbort env priv (msyExecHeader priv.config headerf headerv)
      fun w => some (.return_ .continue_ w)
    match ignoreHeader priv.config.toSettings headerf headerv with
    | none => none
    | some .positive => some (.abort (some .accept) w)
    | some _ => if priv.headerExistence then hooks priv w else firstHeader env priv hooks w

/-- `mlfi_body`. -/
def mlfiBody (env : Env) (bodyp : Str) (w : World) : Option Ending :=
  match w.priv with
  | none => none
  | some priv =>
    execOrAbort env priv (msyExecBody priv.config bodyp) (fun w => some (.return_ .continue_ w)) w

/-- `mlfi_eom`. -/
def mlfiEom (env : Env) (w : World) : Option Ending :=
  match w.priv with
  | none => none
  | some priv =>
    execOrAbort env priv (msyExecEom priv.config)
      (fun w => (eomCleanup w).map fun (r, w) => .return_ r w) w

/-- `mlfi_close`. -/
def mlfiClose (w : World) : Sfsistat × World := mlfiFreepriv w

/-! ## Messages -/

/-- The callbacks of a message. -/
inductive Callback
  | envfrom (envfrom : Str)
  | envrcpt (rcptto : Str)
  | header (headerf : Str) (headerv : Option Str)
  | body (bodyp : Str)
  | eom
  | abort

/-- A callback up to its end. -/
def World.main (w : World) (env : Env) : Callback → Option Ending
  | .envfrom a => (mlfiEnvfrom a w).map fun (r, w) => .return_ r w
  | .envrcpt a => (mlfiEnvrcpt a w).map fun (r, w) => .return_ r w
  | .header f v => mlfiHeader env f v w
  | .body b => mlfiBody env b w
  | .eom => mlfiEom env w
  | .abort => some (.abort none w)

/-- The end of a callback. -/
def Ending.finish (env : Env) : Ending → Option (Sfsistat × World)
  | .return_ r w => some (r, w)
  | .abort r w => (mlfiAbort env w).map fun (r', w) => (r.getD r', w)

/-- One callback, with the system's counter and trace started anew. -/
def World.step (w : World) (env : Env) (cb : Callback) : Option (Sfsistat × World) :=
  ({ w with os := .start }.main env cb).bind (Ending.finish env)

/-- What is seen of a callback: its result and what it did. -/
structure Reply where
  stat : Sfsistat
  out : List Event
  deriving DecidableEq

/-- Deliver callbacks until one of them does not answer `SMFIS_CONTINUE`. -/
def deliver : List (Env × Callback) → World → Option (List Reply × World)
  | [], w => some ([], w)
  | (env, cb) :: cbs, w =>
    match w.step env cb with
    | none => none
    | some (r, w) =>
      if r = .continue_ then (deliver cbs w).map fun (rs, w') => (⟨r, w.os.out⟩ :: rs, w')
      else some ([⟨r, w.os.out⟩], w)

/-- A message as the MTA passes it on. -/
structure Mail where
  envfrom : Str
  rcptto : List Str
  headers : List (Str × Option Str)
  chunks : List Str

/-- The callbacks of a whole message up to its end. -/
def Mail.callbacks (m : Mail) : List Callback :=
  .envfrom m.envfrom :: m.rcptto.map .envrcpt ++ m.headers.map (fun h => .header h.1 h.2) ++
    m.chunks.map .body

end Messasy
