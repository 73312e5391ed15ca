import Messasy.Client.Login
import Messasy.Config.Lifetime
import Messasy.Milter.Validity

/-!
# The server

All parties of the process behind the first load: the milter connections with their callbacks, the
accept loop of `manager_main`, the `request_handler`s, and the configurations they retrieve,
release and reload. An event of a party is one step; the calls on the configurations that it makes
are the complete ones of `Config.Lifetime`, each taken as a whole, so nothing is said here about
runs in which the actions of two such calls interleave (`Sys` has these). A run starts when `main`
has released the configuration from which it set the socket and the timeout.
-/

namespace Messasy

open Lib

/-- What `set_config` has read. -/
structure Loaded where
  config : Config
  cfAdminpassword : Str

/-! ## One connection -/

/-- A milter connection: the address of its configuration, where it stands (`none` behind
`mlfi_close`), its session, and what it has answered. -/
structure Conn where
  addr : Nat
  phase : Option Phase
  world : World
  replies : List Reply

inductive ConnEvent
  | callback (env : Env) (cb : Callback)
  | close

instance Phase.decidableAllows (ph : Phase) (cb : Callback) : Decidable (ph.Allows cb) := by
  cases ph <;> cases cb <;> unfold Phase.Allows <;> infer_instance

namespace Conn

/-- `mlfi_connect` has retrieved the configuration `cfg` at `addr`. -/
def start (addr : Nat) (cfg : Config) (env : Env) : Conn :=
  ⟨addr, some .idle, (mlfiConnect cfg env .start).2, []⟩

def step (c : Conn) : ConnEvent → Option Conn
  | .callback env cb => c.phase.bind fun ph =>
    if ph.Allows cb then
      (c.world.step env cb).map fun (r, w) =>
        { c with phase := some (.behind cb r), world := w, replies := c.replies ++ [⟨r, w.os.out⟩] }
    else none
  | .close => c.phase.map fun _ => { c with phase := none, world := (mlfiClose c.world).2 }

/-- The connection on its own. -/
def run : List ConnEvent → Conn → Option Conn
  | [], c => some c
  | e :: es, c => (c.step e).bind (run es)

/-- The configuration that the connection has retrieved and not released. -/
def cfg (c : Conn) : Option Nat := c.world.priv.map fun _ => c.addr

end Conn

/-- Carry out the calls on the configuration at `addr`. -/
def perform (addr : Nat) : List ConfigCall → Store Unit → Option (Store Unit)
  | [], s => some s
  | .retrieve :: calls, s => (configRetrieve s).bind fun (_, s) => perform addr calls s
  | .release :: calls, s => (configRelease s addr).bind (perform addr calls)

/-! ## All parties -/

/-- A `request_handler`, with the configuration it has retrieved inside `manager_login`. -/
structure Handler where
  request : Request
  cfg : Option Nat

/-- The configurations with their contents by address, the milter connections, the handlers, and
the configuration that `manager_main` has retrieved for a client. -/
structure Server where
  store : Store Unit
  loaded : Nat → Loaded
  conns : List Conn
  handlers : List Handler
  manager : Option Nat

inductive ServerEvent
  | connect (env : Env)
  | conn (i : Nat) (e : ConnEvent)
  /-- `manager_main` retrieves the configuration for a new client. -/
  | accept
  /-- It releases the configuration, and the client gets a handler or is refused. -/
  | accepted (ok : Bool)
  /-- A handler reads a line. -/
  | line (t : Nat) (r : ReadLine)
  /-- A handler goes on inside a command. -/
  | go (t : Nat)
  /-- A handler's call of `reload_config`; `set_config` reads `cfg` or fails. -/
  | reload (t : Nat) (cfg : Option Loaded)

/-- The handler an event belongs to. -/
def ServerEvent.handler : ServerEvent → Option Nat
  | .line t _ | .go t | .reload t _ => some t
  | _ => none

namespace Server

/-- Behind the first load and `main`'s own `config_retrieve` and `config_release`. -/
def start (first : Loaded) : Server :=
  ⟨⟨Arena.empty.alloc (.init Unit), some 0, none, false, []⟩, fun _ => first, [], [], none⟩

/-- A new milter connection; it is closed at once when `mlfi_connect` fails. -/
def connect (s : Server) (env : Env) : Option Server := do
  let (p, store) ← configRetrieve s.store
  let c := Conn.start p (s.loaded p).config env
  let store ← perform p (c.world.calls.drop 1) store
  if c.cfg.isSome then return { s with store, conns := s.conns ++ [c] }
  else return { s with store }

/-- An event of the connection `i`, with the calls that it makes. -/
def stepConn (s : Server) (i : Nat) (e : ConnEvent) : Option Server := do
  let c ← s.conns[i]?
  let c' ← c.step e
  let store ← perform c.addr (c'.world.calls.drop c.world.calls.length) s.store
  return { s with store, conns := s.conns.set i c' }

def setRequest (s : Server) (t : Nat) (q : Request) (cfg : Option Nat) : Server :=
  { s with handlers := s.handlers.set t ⟨q, cfg⟩ }

/-- A handler goes on: `config_retrieve` and `config_release` in `manager_login`, and the way to
the call of `reload_config`. -/
def go (s : Server) (t : Nat) : Option Server := do
  let h ← s.handlers[t]?
  match h.cfg with
  | none =>
    match h.request.pc with
    | .retrieve _ =>
      let (p, store) ← configRetrieve s.store
      let q ← h.request.go (s.loaded p).cfAdminpassword
      return { s with store }.setRequest t q (some p)
    | _ =>
      let q ← h.request.go []
      return s.setRequest t q none
  | some p =>
    let q ← h.request.go (s.loaded p).cfAdminpassword
    let store ← configRelease s.store p
    return { s with store }.setRequest t q none

/-- `reload_config`, called by a handler. -/
def reload (s : Server) (t : Nat) (cfg : Option Loaded) : Option Server := do
  let h ← s.handlers[t]?
  if h.request.pc = .reloading then
    let (rc, store) ← reloadConfig s.store cfg.isSome
    let q ← h.request.returned (rc == .success)
    let loaded := match rc, cfg with
      | .success, some cfg => Function.update s.loaded s.store.setConfig.1 cfg
      | _, _ => s.loaded
    return { s with store, loaded }.setRequest t q h.cfg
  else none

def step (s : Server) : ServerEvent → Option Server
  | .connect env => s.connect env
  | .conn i e => s.stepConn i e
  | .accept =>
    if s.manager.isSome then none
    else (configRetrieve s.store).map fun (p, store) => { s with store, manager := some p }
  | .accepted ok => s.manager.bind fun p =>
    (configRelease s.store p).map fun store =>
      { s with
        store
        manager := none
        handlers := if ok then s.handlers ++ [⟨.start, none⟩] else s.handlers }
  | .line t r => s.handlers[t]?.bind fun h =>
    (h.request.line r).map fun q => s.setRequest t q h.cfg
  | .go t => s.go t
  | .reload t cfg => s.reload t cfg

def run : List ServerEvent → Server → Option Server
  | [], s => some s
  | e :: events, s => (s.step e).bind (run events)

/-- The configurations that are held, each as often as it was retrieved and not released. -/
def held (s : Server) : List Nat :=
  s.conns.filterMap Conn.cfg ++ (s.handlers.filterMap Handler.cfg ++ s.manager.toList)

theorem run_append (l₁ l₂ : List ServerEvent) (s : Server) :
    run (l₁ ++ l₂) s = (run l₁ s).bind (run l₂) := by
  induction l₁ generalizing s with
  | nil => rfl
  | cons e l₁ ih =>
    simp only [List.cons_append, run, Option.bind_assoc]
    exact congrArg _ (funext ih)

/-- **Run.** What holds behind the first load and is kept by every event holds in every run. -/
theorem run_induction {first : Loaded} {P : List ServerEvent → Server → Prop}
    (h0 : P [] (start first))
    (hstep : ∀ events s e s', run events (start first) = some s → P events s →
      s.step e = some s' → P (events ++ [e]) s') :
    ∀ {events : List ServerEvent} {s : Server}, run events (start first) = some s →
      P events s := by
  intro events
  induction events using List.reverseRecOn with
  | nil =>
    intro s h
    cases h
    exact h0
  | append_singleton events e ih =>
    intro s h
    rw [run_append] at h
    obtain ⟨s1, hrun, hlast⟩ := Option.bind_eq_some_iff.1 h
    obtain ⟨s2, hs, hlast⟩ := Option.bind_eq_some_iff.1 hlast
    cases hlast
    exact hstep _ _ _ _ hrun (ih hrun) hs

end Server

end Messasy
