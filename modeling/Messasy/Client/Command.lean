import Messasy.Lib.Bytes
import Messasy.Lib.Words

/-!
# The commands of the administration port (`client_side.c`)

`request_handler` on one line, with `parse_arg`, `manager_login`, `manager_quit` and
`manager_reload`. What another thread can come between is a step of its own: the retrieval of the
configuration and the comparison with its password in `manager_login`, the call of `reload_config`
and its return in `manager_reload`.
-/

namespace Messasy

open Lib

def LOGIN_STATE_NONE : Nat := 0

def LOGIN_STATE_AUTH : Nat := 1

def TOO_LONG_STRING : Str := bytes "-NG command too long\r\n"

def SYNTAX_ERR_STRING : Str := bytes "-NG command syntax error\r\n"

def AUTH_ERR_STRING : Str := bytes "-NG authentication error\r\n"

def UNKNOWN_STRING : Str := bytes "-NG unknown command\r\n"

def NG_STRING : Str := bytes "-NG\r\n"

def GOODBY_STRING : Str := bytes "+OK good-bye\r\n"

def OK_RELOAD_STRING : Str := bytes "+OK reloaded successfully\r\n"

def OK_LOGIN_STRING : Str := bytes "+OK logged in successfully\r\n"

def OK_ALREADY_LOGIN_STRING : Str := bytes "+OK already logged in\r\n"

/-- `struct manager_control`, with what is written to its socket. -/
structure ManagerControl where
  mcState : Nat
  written : List Str
  deriving DecidableEq

/-- `write(mc->mc_so, ...)`. -/
def ManagerControl.reply (mc : ManagerControl) (s : Str) : ManagerControl :=
  { mc with written := mc.written ++ [s] }

/-- `IS_AUTH`. -/
def ManagerControl.isAuth (mc : ManagerControl) : Bool := mc.mcState &&& LOGIN_STATE_AUTH != 0

/-- What `read_line` returns. -/
inductive ReadLine
  | line (readbuf : Str)
  | timeout
  | error
  | eof
  | toolong
  deriving DecidableEq

/-- Where a `request_handler` stands. -/
inductive RequestPc
  | readLine
  /-- `manager_login`: `config_retrieve`. -/
  | retrieve (param0 : Str)
  | compare (param0 cfAdminpassword : Str)
  /-- `manager_reload`: the call of `reload_config`. -/
  | reload
  | reloading
  | quit
  deriving DecidableEq

/-- The count that is returned, and the arguments. -/
def parseArg (string : Str) : Nat → Nat × List Str
  | 0 => (1, [])
  | num + 1 =>
    match firstWord isblank string with
    | none => (0, [])
    | some (w, none) => (1, [w])
    | some (w, some rest) => ((parseArg rest num).1 + 1, w :: (parseArg rest num).2)

/-- The `switch` of `manager_quit` and `manager_reload`: no argument. -/
def noArg (arg : Str) : Bool :=
  match parseArg arg 1 with
  | (0, _) => true
  | (1, param) => param.head? == some []
  | _ => false

/-- The `switch` of `manager_login`: the only argument. -/
def loginArg (arg : Str) : Option Str :=
  match parseArg arg 2 with
  | (1, param) => param.head?
  | (2, param) => if param[1]? = some [] then param.head? else none
  | _ => none

def managerLogin (mc : ManagerControl) (arg : Str) : ManagerControl × RequestPc :=
  match loginArg arg with
  | none => (mc.reply SYNTAX_ERR_STRING, .readLine)
  | some param0 =>
    let mc := { mc with mcState := mc.mcState &&& LOGIN_STATE_AUTH }
    if mc.mcState ≠ 0 then (mc.reply OK_ALREADY_LOGIN_STRING, .readLine)
    else (mc, .retrieve param0)

def managerQuit (mc : ManagerControl) (arg : Str) : ManagerControl × RequestPc :=
  if noArg arg then (mc.reply GOODBY_STRING, .quit) else (mc.reply SYNTAX_ERR_STRING, .readLine)

def managerReload (mc : ManagerControl) (arg : Str) : ManagerControl × RequestPc :=
  if noArg arg then
    if mc.isAuth then (mc, .reload) else (mc.reply AUTH_ERR_STRING, .quit)
  else (mc.reply SYNTAX_ERR_STRING, .readLine)

/-- `manager_command`. -/
def managerCommand : List (Str × (ManagerControl → Str → ManagerControl × RequestPc)) :=
  [(bytes "LOGIN", managerLogin), (bytes "RELOAD", managerReload), (bytes "QUIT", managerQuit)]

/-- The argument part of a line that starts with the command `name`. -/
def commandArg (name bufp : Str) : Option Str :=
  if ncaseEq name bufp && (bufp.drop name.length).head?.all isblank then
    some (bufp.drop name.length)
  else none

/-- The search for the command and its call. -/
def callCommand (mc : ManagerControl) (bufp : Str) :
    List (Str × (ManagerControl → Str → ManagerControl × RequestPc)) → ManagerControl × RequestPc
  | [] => (mc.reply UNKNOWN_STRING, .readLine)
  | (name, dcFunc) :: table =>
    match commandArg name bufp with
    | some arg => dcFunc mc arg
    | none => callCommand mc bufp table

/-- The body of the loop of `request_handler`, up to the first step of the command. -/
def requestLine (mc : ManagerControl) : ReadLine → ManagerControl × RequestPc
  | .line readbuf => callCommand mc ((cstr readbuf).dropWhile isblank) managerCommand
  | .toolong => (mc.reply TOO_LONG_STRING, .readLine)
  | .timeout | .error | .eof => (mc, .quit)

/-! ## The lines of the protocol -/

/-- A `LOGIN` line whose only argument is `arg`. -/
def LoginLine (line arg : Str) : Prop :=
  ∃ b name b1 b2, line = b ++ (name ++ (b1 ++ (arg ++ b2))) ∧ Blank isblank b ∧
    lower name = lower (bytes "LOGIN") ∧ b1 ≠ [] ∧ Blank isblank b1 ∧ Word isblank arg ∧
    Blank isblank b2

/-- A `RELOAD` line. -/
def ReloadLine (line : Str) : Prop :=
  ∃ b name b1, line = b ++ (name ++ b1) ∧ Blank isblank b ∧
    lower name = lower (bytes "RELOAD") ∧ Blank isblank b1

section
variable {mc : ManagerControl} {arg bufp name line : Str}

theorem firstWord_ne_nil {r : Option Str} {w : Str} (h : firstWord isblank arg = some (w, r)) :
    w ≠ [] := by
  cases r with
  | none =>
    obtain ⟨b, -, -, hw⟩ := firstWord_last.1 h
    exact hw.ne_nil
  | some r =>
    obtain ⟨b, c, -, -, hw, -⟩ := firstWord_some.1 h
    exact hw.ne_nil

/-- The one argument of `manager_login` may stand between blanks. -/
theorem loginArg_eq_some {a : Str} : loginArg arg = some a ↔
    ∃ b b2, arg = b ++ (a ++ b2) ∧ Blank isblank b ∧ Word isblank a ∧ Blank isblank b2 := by
  constructor
  · intro h
    unfold loginArg at h
    simp only [parseArg] at h
    cases hf : firstWord isblank arg with
    | none => simp [hf] at h
    | some x =>
      obtain ⟨w, r⟩ := x
      cases r with
      | none =>
        obtain rfl : w = a := by simpa [hf] using h
        obtain ⟨b, rfl, hb, hw⟩ := firstWord_last.1 hf
        exact ⟨b, [], by rw [List.append_nil], hb, hw, .nil⟩
      | some r =>
        simp only [hf] at h
        cases hr : firstWord isblank r with
        | none =>
          obtain rfl : w = a := by simpa [hr] using h
          obtain ⟨b, c, rfl, hb, hw, hc⟩ := firstWord_some.1 hf
          refine ⟨b, c :: r, rfl, hb, hw, ?_⟩
          intro d hd
          rcases List.mem_cons.1 hd with rfl | hd
          · exact hc
          · exact firstWord_none.1 hr d hd
        | some y =>
          obtain ⟨w', r'⟩ := y
          have hne := firstWord_ne_nil hr
          cases r' <;> simp [hr, hne] at h
  · rintro ⟨b, b2, rfl, hb, ha, hb2⟩
    unfold loginArg
    simp only [parseArg]
    cases b2 with
    | nil =>
      have hf : firstWord isblank (b ++ (a ++ [])) = some (a, none) :=
        firstWord_last.2 ⟨b, by rw [List.append_nil], hb, ha⟩
      simp only [hf, List.head?_cons]
    | cons c t =>
      have hf := ha.firstWord hb (c :: t) fun d u h => by cases h; exact hb2 c List.mem_cons_self
      have ht : firstWord isblank t = none :=
        firstWord_none.2 fun d hd => hb2 d (List.mem_cons_of_mem _ hd)
      simp [hf, ht]

theorem noArg_iff : noArg arg = true ↔ Blank isblank arg := by
  rw [← firstWord_none]
  unfold noArg
  simp only [parseArg]
  cases hf : firstWord isblank arg with
  | none => simp
  | some x =>
    obtain ⟨w, r⟩ := x
    have hne := firstWord_ne_nil hf
    cases r <;> simp [hne]

theorem commandArg_eq_some : commandArg name bufp = some arg ↔
    ∃ w, bufp = w ++ arg ∧ lower w = lower name ∧ ∀ c t, arg = c :: t → isblank c = true := by
  have hend : ∀ s : Str, s.head?.all isblank = true ↔ ∀ c t, s = c :: t → isblank c = true := by
    intro s
    cases s <;> simp
  unfold commandArg
  constructor
  · intro h
    split at h
    · rename_i hc
      rw [Bool.and_eq_true, ncaseEq, caseEq_iff, hend] at hc
      cases h
      exact ⟨_, (List.take_append_drop _ _).symm, hc.1.symm, hc.2⟩
    · cases h
  · rintro ⟨w, rfl, hw, ha⟩
    have hlen : w.length = name.length := by rw [← length_lower w, hw, length_lower]
    have hdrop : (w ++ arg).drop name.length = arg := List.drop_left' hlen
    rw [hdrop, if_pos]
    rw [Bool.and_eq_true, hend]
    exact ⟨ncaseEq_iff.2 ⟨w, arg, rfl, hw⟩, ha⟩

/-- A line that starts with `c` holds no command that starts with another letter. -/
theorem commandArg_eq_none {c : Byte} {d : Byte} {n : Str} (hn : name = d :: n)
    (h : tolower c ≠ tolower d) (t : Str) : commandArg name (c :: t) = none := by
  cases hc : commandArg name (c :: t) with
  | none => rfl
  | some rest =>
    obtain ⟨w, he, hw, -⟩ := commandArg_eq_some.1 hc
    rw [hn] at hw
    cases w with
    | nil => cases hw
    | cons c' t' =>
      obtain ⟨rfl, -⟩ := List.cons.inj he
      exact absurd (List.cons.inj hw).1 h

/-- The search finds a command that stands behind blanks. -/
theorem command_found {b w rest : Str} {d : Byte} {n : Str} (hb : Blank isblank b)
    (hw : lower w = lower (d :: n)) (hd : isblank (tolower d) = false)
    (hr : ∀ c t, rest = c :: t → isblank c = true) :
    ∃ c t, (b ++ (w ++ rest)).dropWhile isblank = c :: t ∧ tolower c = tolower d ∧
      commandArg (d :: n) (c :: t) = some rest := by
  cases w with
  | nil => cases hw
  | cons c u =>
    have hc : tolower c = tolower d := (List.cons.inj hw).1
    refine ⟨c, u ++ rest, ?_, hc, commandArg_eq_some.2 ⟨c :: u, rfl, hw, hr⟩⟩
    rw [List.dropWhile_append_of_pos hb, List.cons_append]
    apply List.dropWhile_cons_of_neg
    rw [← isblank_tolower, hc, hd]
    exact Bool.false_ne_true

/-- A `LOGIN` line calls `manager_login` with its argument. -/
theorem requestLine_login (mc : ManagerControl) (h : LoginLine (cstr line) arg) :
    ∃ rest, requestLine mc (.line line) = managerLogin mc rest ∧ loginArg rest = some arg := by
  obtain ⟨b, w, b1, b2, hline, hb, hw, hne, hb1, ha, hb2⟩ := h
  have hr : ∀ c t, b1 ++ (arg ++ b2) = c :: t → isblank c = true := by
    intro c t he
    obtain ⟨d, u, rfl⟩ := List.exists_cons_of_ne_nil hne
    obtain ⟨rfl, -⟩ := List.cons.inj he
    exact hb1 d List.mem_cons_self
  obtain ⟨c, t, hdrop, -, hc⟩ := command_found hb hw (by decide) hr
  refine ⟨_, ?_, loginArg_eq_some.2 ⟨b1, b2, rfl, hb1, ha, hb2⟩⟩
  simp only [requestLine, hline, hdrop, managerCommand, callCommand]
  rw [show commandArg (bytes "LOGIN") (c :: t) = some (b1 ++ (arg ++ b2)) from hc]

theorem requestLine_reload (mc : ManagerControl) (h : ReloadLine (cstr line)) :
    ∃ rest, requestLine mc (.line line) = managerReload mc rest ∧ noArg rest = true := by
  obtain ⟨b, w, b1, hline, hb, hw, hb1⟩ := h
  have hr : ∀ c t, b1 = c :: t → isblank c = true := fun c t he =>
    hb1 c (he ▸ List.mem_cons_self)
  obtain ⟨c, t, hdrop, hl, hc⟩ := command_found hb hw (by decide) hr
  have hlogin : commandArg (bytes "LOGIN") (c :: t) = none :=
    commandArg_eq_none rfl (by rw [hl]; decide) t
  refine ⟨b1, ?_, noArg_iff.2 hb1⟩
  simp only [requestLine, hline, hdrop, managerCommand, callCommand, hlogin]
  rw [show commandArg (bytes "RELOAD") (c :: t) = some b1 from hc]

/-- What a line calls: `manager_login` with what stands in the line, `manager_reload`, or nothing
that changes the state. -/
theorem requestLine_cases (mc : ManagerControl) (r : ReadLine) :
    (∃ line rest, r = .line line ∧ requestLine mc r = managerLogin mc rest ∧
      ∀ arg, loginArg rest = some arg → LoginLine (cstr line) arg) ∨
    (∃ rest, requestLine mc r = managerReload mc rest) ∨
    (requestLine mc r).1.mcState = mc.mcState ∧
      ((requestLine mc r).2 = .readLine ∨ (requestLine mc r).2 = .quit) := by
  cases r with
  | line line =>
    have hline := List.takeWhile_append_dropWhile (p := isblank) (l := cstr line)
    simp only [requestLine, managerCommand, callCommand]
    cases hl : commandArg (bytes "LOGIN") ((cstr line).dropWhile isblank) with
    | some rest =>
      refine .inl ⟨line, rest, rfl, rfl, fun arg h => ?_⟩
      obtain ⟨w, hd, hw, hr⟩ := commandArg_eq_some.1 hl
      obtain ⟨b1, b2, rfl, hb1, ha, hb2⟩ := loginArg_eq_some.1 h
      have hne : b1 ≠ [] := by
        rintro rfl
        obtain ⟨c, t, rfl⟩ := List.exists_cons_of_ne_nil ha.ne_nil
        have hc := ha.plain c List.mem_cons_self
        rw [hr c (t ++ b2) rfl] at hc
        cases hc
      rw [hd] at hline
      exact ⟨_, w, b1, b2, hline.symm, fun c hc => List.mem_takeWhile_imp hc, hw, hne, hb1, ha,
        hb2⟩
    | none =>
      cases hr : commandArg (bytes "RELOAD") ((cstr line).dropWhile isblank) with
      | some rest => exact .inr (.inl ⟨rest, rfl⟩)
      | none =>
        refine .inr (.inr ?_)
        cases hq : commandArg (bytes "QUIT") ((cstr line).dropWhile isblank) with
        | some rest =>
          simp only [managerQuit]
          split
          · exact ⟨rfl, .inr rfl⟩
          · exact ⟨rfl, .inl rfl⟩
        | none => exact ⟨rfl, .inl rfl⟩
  | toolong => exact .inr (.inr ⟨rfl, .inl rfl⟩)
  | timeout => exact .inr (.inr ⟨rfl, .inr rfl⟩)
  | error => exact .inr (.inr ⟨rfl, .inr rfl⟩)
  | eof => exact .inr (.inr ⟨rfl, .inr rfl⟩)

end

end Messasy
