import Messasy.Filter.Filter

/-!
# System calls

The system as one callback sees it. `Env` holds the answers: `Os.clock` counts the calls made
during the callback, and an answer may depend on it. `Os.out` lists the calls that change
something outside the process, in order. Log output is left out.
-/

namespace Messasy

open Lib

/-- The fields of `struct tm` that the modules format, as `strftime` prints them. -/
structure Tm where
  year : Str
  month : Str
  day : Str
  deriving DecidableEq

/-- What `stat` answers. -/
inductive Stat
  | found (isDir : Bool) (stIno : Nat)
  | noent
  | failed
  deriving DecidableEq

/-- What `waitpid` answers. -/
inductive Wait
  | failed
  | signaled
  | exited (status : Nat)
  deriving DecidableEq

inductive Event
  | mkstemp (path : Str) (fd : Int)
  | write (fd : Int) (text : Str)
  | close (fd : Int)
  | mkdir (path : Str)
  /-- `content` is known when the linked file is the one the module has written. -/
  | link (oldpath newpath : Str) (content : Option Str) (ok : Bool)
  | unlink (path : Str)
  | execv (argv : List Str) (zipopt : Option Str)
  | pipe2 (ok : Bool)
  | sh (command input : Str)
  deriving DecidableEq

/-- The answers of the system during one callback, by the number of calls made so far. `write` is
asked for a number of bytes; `none` is a failure. `pipe2` is only called in a loop that repeats the
call until it succeeds: the answer is the number of failures before that, if it ever does. -/
structure Env where
  time : Option Nat
  ldap : Ldap
  localtime : Nat → Option Tm
  mkstemp : Nat → Int × Str
  write : Nat → Nat → Option Nat
  stat : Nat → Str → Stat
  mkdir : Nat → Bool
  link : Nat → Bool
  fork : Nat → Bool
  waitpid : Nat → Wait
  fopen : Nat → Bool
  pipe2 : Nat → Option Nat

/-- A system in which every call succeeds. -/
def Env.fine : Env where
  time := some 0
  ldap := ⟨true, true, true, fun _ _ => some 1⟩
  localtime := fun _ => some ⟨bytes "2024", bytes "01", bytes "02"⟩
  mkstemp := fun _ => (3, bytes "abcdef")
  write := fun _ n => some n
  stat := fun _ _ => .found true 7
  mkdir := fun _ => true
  link := fun _ => true
  fork := fun _ => true
  waitpid := fun _ => .exited 0
  fopen := fun _ => true
  pipe2 := fun _ => some 0

structure Os where
  clock : Nat
  out : List Event

/-- At the start of a callback. -/
def Os.start : Os := ⟨0, []⟩

/-- A call that changes nothing. -/
def Os.tick (os : Os) : Os := { os with clock := os.clock + 1 }

def Os.log (os : Os) (e : Event) : Os := ⟨os.clock + 1, os.out ++ [e]⟩

/-- The same call again and again. -/
def Os.repeated (os : Os) (e : Event) : Nat → Os
  | 0 => os
  | n + 1 => (os.log e).repeated e n

/-- The archive files made so far: where, and the text in them. -/
def archived : List Event → List (Str × Str)
  | [] => []
  | .link _ newpath (some content) true :: out => (newpath, content) :: archived out
  | _ :: out => archived out

theorem archived_append : ∀ a b : List Event, archived (a ++ b) = archived a ++ archived b
  | [], _ => rfl
  | e :: a, b => by
    have ih := archived_append a b
    cases e with
    | link o n c ok => cases c <;> cases ok <;> simp [archived, ih]
    | _ => simpa [archived] using ih

/-- The archive files of a whole callback so far. -/
def Os.archived (os : Os) : List (Str × Str) := Messasy.archived os.out

/-- The names linked so far, whatever the file behind them holds. -/
def linked : List Event → List Str
  | [] => []
  | .link _ newpath _ true :: out => newpath :: linked out
  | _ :: out => linked out

theorem linked_append : ∀ a b : List Event, linked (a ++ b) = linked a ++ linked b
  | [], _ => rfl
  | e :: a, b => by
    have ih := linked_append a b
    cases e with
    | link o n c ok => cases ok <;> simp [linked, ih]
    | _ => simpa [linked] using ih

def Os.linked (os : Os) : List Str := Messasy.linked os.out

theorem Os.linked_log (os : Os) (e : Event) :
    (os.log e).linked = os.linked ++ Messasy.linked [e] := linked_append os.out [e]

@[simp] theorem Os.archived_tick (os : Os) : os.tick.archived = os.archived := rfl

theorem Os.archived_log (os : Os) (e : Event) :
    (os.log e).archived = os.archived ++ Messasy.archived [e] := archived_append os.out [e]

/-! ## The links -/

def Event.isLink : Event → Bool
  | .link _ _ _ _ => true
  | _ => false

/-- The links tried so far: all that `archived` and `linked` read. -/
def Os.links (os : Os) : List Event := os.out.filter Event.isLink

theorem Os.archived_eq (os : Os) : os.archived = Messasy.archived os.links := by
  unfold Os.archived Os.links
  induction os.out with
  | nil => rfl
  | cons e out ih =>
    cases e with
    | link o n c ok =>
      rw [List.filter_cons_of_pos rfl]
      cases c <;> cases ok <;> simp [Messasy.archived, ih]
    | _ => exact ih

theorem Os.linked_eq (os : Os) : os.linked = Messasy.linked os.links := by
  unfold Os.linked Os.links
  induction os.out with
  | nil => rfl
  | cons e out ih =>
    cases e with
    | link o n c ok =>
      rw [List.filter_cons_of_pos rfl]
      cases ok <;> simp [Messasy.linked, ih]
    | _ => exact ih

section
variable {os os' : Os}

theorem Os.archived_congr (h : os'.links = os.links) : os'.archived = os.archived := by
  rw [os'.archived_eq, os.archived_eq, h]

theorem Os.linked_congr (h : os'.links = os.links) : os'.linked = os.linked := by
  rw [os'.linked_eq, os.linked_eq, h]

@[simp] theorem Os.links_tick (os : Os) : os.tick.links = os.links := rfl

theorem Os.links_log (os : Os) {e : Event} (he : e.isLink = false) :
    (os.log e).links = os.links := by
  simp [Os.links, Os.log, he]

theorem Os.links_repeated {e : Event} (he : e.isLink = false) (n : Nat) :
    ∀ os : Os, (os.repeated e n).links = os.links := by
  induction n with
  | zero => intro os; rfl
  | succ n ih =>
    intro os
    rw [Os.repeated, ih, Os.links_log os he]

end

end Messasy
