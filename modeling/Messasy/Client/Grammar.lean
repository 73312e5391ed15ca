import Messasy.Client.Command
import Messasy.Lib.CString

/-!
# The words of a command

`request_handler` on a line in memory: `parse_arg` puts NULs into the line and the handlers get
pointers into it. The block ends with the line's NUL, so that any access behind it is `none`. The
functions do what their counterparts on strings do (`parseArgBuf_eq`, `dcFuncBuf_eq`,
`callCommandBuf_eq`), and that is what the words of the line say (`command_grammar`).
-/

namespace Messasy

open Lib

/-- `parse_arg` with room for `num` further arguments: the count, the pointers that are stored in
`array`, and the line. -/
def parseArgBuf : Nat → Mem → Nat → Option (Nat × List Nat × Mem)
  | 0, m, _ => some (1, [], m)
  | num + 1, m, i =>
    (m.find (!isblank ·) i).bind fun i =>
    (m.load i).bind fun c =>
    if c = 0 then some (0, [], m)
    else
      (m.find (fun d => isblank d || d == 0) i).bind fun j =>
      (m.load j).bind fun d =>
      if d = 0 then some (1, [i], m)
      else
        (m.store j 0).bind fun m =>
        (parseArgBuf num m (j + 1)).map fun (count, array, m) => (count + 1, i :: array, m)

/-- The `switch` of `manager_quit` and `manager_reload`. -/
def noArgBuf (m : Mem) (arg : Nat) : Option (Bool × Mem) :=
  (parseArgBuf 1 m arg).bind fun (ret, param, m) =>
  match ret with
  | 0 => some (true, m)
  | 1 => (param[0]?.bind m.load).map fun c => (c == 0, m)
  | _ => some (false, m)

/-- The `switch` of `manager_login`, and `param[0]`. -/
def loginArgBuf (m : Mem) (arg : Nat) : Option (Option Nat × Mem) :=
  (parseArgBuf 2 m arg).bind fun (ret, param, m) =>
  match ret with
  | 1 => param[0]?.map fun p => (some p, m)
  | 2 => (param[1]?.bind m.load).bind fun c =>
    if c = 0 then param[0]?.map fun p => (some p, m) else some (none, m)
  | _ => some (none, m)

/-- `manager_login`; `strcmp` reads `param[0]`. -/
def managerLoginBuf (mc : ManagerControl) (m : Mem) (arg : Nat) :
    Option ((ManagerControl × RequestPc) × Mem) :=
  (loginArgBuf m arg).bind fun (param0, m) =>
  match param0 with
  | none => some ((mc.reply SYNTAX_ERR_STRING, .readLine), m)
  | some param0 =>
    let mc := { mc with mcState := mc.mcState &&& LOGIN_STATE_AUTH }
    if mc.mcState ≠ 0 then some ((mc.reply OK_ALREADY_LOGIN_STRING, .readLine), m)
    else (m.str param0).map fun param0 => ((mc, .retrieve param0), m)

def managerQuitBuf (mc : ManagerControl) (m : Mem) (arg : Nat) :
    Option ((ManagerControl × RequestPc) × Mem) :=
  (noArgBuf m arg).map fun (ok, m) =>
  if ok then ((mc.reply GOODBY_STRING, .quit), m)
  else ((mc.reply SYNTAX_ERR_STRING, .readLine), m)

def managerReloadBuf (mc : ManagerControl) (m : Mem) (arg : Nat) :
    Option ((ManagerControl × RequestPc) × Mem) :=
  (noArgBuf m arg).map fun (ok, m) =>
  if ok then if mc.isAuth then ((mc, .reload), m) else ((mc.reply AUTH_ERR_STRING, .quit), m)
  else ((mc.reply SYNTAX_ERR_STRING, .readLine), m)

/-- The entries of `manager_command`. -/
inductive Command
  | login
  | reload
  | quit
  deriving DecidableEq

def Command.dcCommand : Command → Str
  | .login => bytes "LOGIN"
  | .reload => bytes "RELOAD"
  | .quit => bytes "QUIT"

def Command.dcFuncBuf (mc : ManagerControl) (m : Mem) (arg : Nat) :
    Command → Option ((ManagerControl × RequestPc) × Mem)
  | .login => managerLoginBuf mc m arg
  | .reload => managerReloadBuf mc m arg
  | .quit => managerQuitBuf mc m arg

/-- The search for the command, from an entry on; the first part is the entry whose function is
called. -/
def callCommandBuf (mc : ManagerControl) (m : Mem) (bufp : Nat) :
    List Command → Option (Option Command × (ManagerControl × RequestPc) × Mem)
  | [] => some (none, (mc.reply UNKNOWN_STRING, .readLine), m)
  | c :: table =>
    (m.ncaseEq c.dcCommand bufp).bind fun eq =>
    (if eq then (m.load (bufp + c.dcCommand.length)).map fun d => isblank d || d == 0
      else some false).bind fun found =>
    if found then (c.dcFuncBuf mc m (bufp + c.dcCommand.length)).map fun (r, m) => (some c, r, m)
    else callCommandBuf mc m bufp table

/-- The body of the loop of `request_handler`, for a line in `readbuf`. -/
def requestLineBuf (mc : ManagerControl) (readbuf : Mem) :
    Option (Option Command × (ManagerControl × RequestPc) × Mem) :=
  (readbuf.find (fun c => !(isblank c && c != 0)) 0).bind fun bufp =>
  callCommandBuf mc readbuf bufp [.login, .reload, .quit]

example : (requestLineBuf ⟨0, []⟩ (bytes " login  a " ++ [0])).map (·.2.1) =
    some (⟨0, []⟩, .retrieve (bytes "a")) := by decide +kernel

/-! ## The arguments -/

section
variable {m : Mem} {pre b w s r : Str}

/-- The step over the blanks in front of a word. -/
theorem find_word (hb : Blank isblank b) (hw : Word isblank w) (pre r : Str) :
    Mem.find (pre ++ (b ++ (w ++ r))) (!isblank ·) pre.length = some (pre ++ b).length := by
  obtain ⟨d, u, rfl⟩ := List.exists_cons_of_ne_nil hw.ne_nil
  have hd := hw.plain d List.mem_cons_self
  rw [List.length_append]
  exact Mem.find_append (fun x hx => by rw [hb x hx]; rfl) (by rw [hd]; rfl) pre (u ++ r)

/-- The step to the end of a word. -/
theorem find_wordEnd (hw : Word isblank w) (h0 : 0 ∉ w) {d : Byte}
    (hd : (isblank d || d == 0) = true) (pre r : Str) :
    Mem.find (pre ++ (w ++ d :: r)) (fun d => isblank d || d == 0) pre.length =
      some (pre ++ w).length := by
  rw [List.length_append]
  refine Mem.find_append (fun x hx => ?_) hd pre r
  rw [hw.plain x hx, Bool.false_or, beq_eq_false_iff_ne]
  rintro rfl
  exact h0 hx

/-- Behind the last argument there are blanks only. -/
theorem parseArgBuf_blank (hs : Blank isblank s) (num : Nat) (pre : Str) :
    parseArgBuf (num + 1) (pre ++ (s ++ [0])) pre.length = some (0, [], pre ++ (s ++ [0])) := by
  have hfind : Mem.find (pre ++ (s ++ [0])) (!isblank ·) pre.length = some (pre ++ s).length := by
    rw [List.length_append]
    exact Mem.find_append (fun x hx => by rw [hs x hx]; rfl) rfl pre []
  have hload : Mem.load (pre ++ (s ++ [0])) (pre ++ s).length = some 0 := by
    rw [← List.append_assoc]
    exact Mem.load_append _ _ _
  rw [parseArgBuf, hfind, Option.bind_some, hload, Option.bind_some, if_pos rfl]

/-- An argument that a NUL ends, in the line or behind it. -/
theorem parseArgBuf_word (hb : Blank isblank b) (hw : Word isblank w) (h0 : 0 ∉ w) {d : Byte}
    (hd : (isblank d || d == 0) = true) (num : Nat) (pre r : Str) :
    parseArgBuf (num + 1) (pre ++ (b ++ (w ++ d :: r))) pre.length =
      if d = 0 then some (1, [(pre ++ b).length], pre ++ (b ++ (w ++ d :: r)))
      else (parseArgBuf num (pre ++ b ++ w ++ [0] ++ r) (pre ++ b ++ w ++ [0]).length).map
        fun (count, array, m) => (count + 1, (pre ++ b).length :: array, m) := by
  have hassoc : pre ++ (b ++ (w ++ d :: r)) = pre ++ b ++ (w ++ d :: r) :=
    (List.append_assoc _ _ _).symm
  have hassoc' : pre ++ (b ++ (w ++ d :: r)) = pre ++ b ++ w ++ d :: r := by
    rw [hassoc, ← List.append_assoc]
  obtain ⟨c, u, hcu⟩ := List.exists_cons_of_ne_nil hw.ne_nil
  have hc : c ≠ 0 := fun e => h0 (by rw [hcu, e]; exact List.mem_cons_self)
  have hfirst : Mem.load (pre ++ (b ++ (w ++ d :: r))) (pre ++ b).length = some c := by
    rw [hassoc, hcu]
    exact Mem.load_append _ _ _
  have hend : Mem.find (pre ++ (b ++ (w ++ d :: r))) (fun d => isblank d || d == 0)
      (pre ++ b).length = some (pre ++ b ++ w).length := by
    rw [hassoc]
    exact find_wordEnd hw h0 hd _ _
  have hlast : Mem.load (pre ++ (b ++ (w ++ d :: r))) (pre ++ b ++ w).length = some d := by
    rw [hassoc']
    exact Mem.load_append _ _ _
  have hstore : Mem.store (pre ++ (b ++ (w ++ d :: r))) (pre ++ b ++ w).length 0 =
      some (pre ++ b ++ w ++ [0] ++ r) := by
    rw [hassoc', Mem.store_append, List.append_assoc _ [0]]
    rfl
  have hnext : (pre ++ b ++ w).length + 1 = (pre ++ b ++ w ++ [0]).length := by
    simp [Nat.add_assoc]
  rw [parseArgBuf, find_word hb hw, Option.bind_some, hfirst, Option.bind_some, if_neg hc, hend,
    Option.bind_some, hlast, Option.bind_some, hstore, Option.bind_some, hnext]

/-- **`parse_arg` in memory** gives the count and the arguments of `parse_arg` on strings; what
stands before the argument part and the NUL behind it stay. -/
theorem parseArgBuf_eq : ∀ (num : Nat) (pre s : Str), 0 ∉ s → ∃ (array : List Nat) (s' : Str),
    parseArgBuf num (pre ++ (s ++ [0])) pre.length =
      some ((parseArg s num).1, array, pre ++ (s' ++ [0])) ∧ s'.length = s.length ∧
    array.map (Mem.str (pre ++ (s' ++ [0]))) = (parseArg s num).2.map some
  | 0, pre, s, _ => ⟨[], s, rfl, rfl, rfl⟩
  | num + 1, pre, s, h0 => by
    rw [parseArg]
    cases hf : firstWord isblank s with
    | none =>
      exact ⟨[], s, parseArgBuf_blank (firstWord_none.1 hf) num pre, rfl, rfl⟩
    | some x =>
      obtain ⟨w, _ | r⟩ := x
      · obtain ⟨b, rfl, hb, hw⟩ := firstWord_last.1 hf
        have hw0 : 0 ∉ w := fun h => h0 (List.mem_append_right b h)
        have hstep := parseArgBuf_word hb hw hw0 (d := 0) rfl num pre []
        rw [if_pos rfl] at hstep
        refine ⟨[(pre ++ b).length], b ++ w, ?_, rfl, ?_⟩
        · rw [List.append_assoc b w]
          exact hstep
        · have hstr := Mem.str_append hw0 (pre ++ b) []
          rw [List.append_assoc b w, ← List.append_assoc pre b]
          simp only [List.map_cons, List.map_nil, hstr]
      · obtain ⟨b, c, rfl, hb, hw, hc⟩ := firstWord_some.1 hf
        simp only [List.mem_append, List.mem_cons, not_or] at h0
        obtain ⟨-, hw0, hc0, hr0⟩ := h0
        obtain ⟨array, r', hrest, hlen, hstr⟩ := parseArgBuf_eq num (pre ++ b ++ w ++ [0]) r hr0
        have hstep := parseArgBuf_word hb hw hw0 (d := c) (by rw [hc]; rfl) num pre (r ++ [0])
        rw [if_neg (Ne.symm hc0), hrest] at hstep
        have hmem : pre ++ (b ++ (w ++ 0 :: r') ++ [0]) =
            pre ++ b ++ w ++ [0] ++ (r' ++ [0]) := by simp
        refine ⟨(pre ++ b).length :: array, b ++ (w ++ 0 :: r'), ?_, ?_, ?_⟩
        · rw [hmem]
          simpa using hstep
        · simp [hlen]
        · have hword : Mem.str (pre ++ b ++ w ++ [0] ++ (r' ++ [0])) (pre ++ b).length = some w := by
            have hstr := Mem.str_append hw0 (pre ++ b) (r' ++ [0])
            simpa using hstr
          rw [hmem, List.map_cons, hword, hstr, List.map_cons]

/-! ## The handlers -/

/-- The pointer that `array` holds for an argument. -/
theorem param_str {array : List Nat} {params : List Str}
    (h : array.map m.str = params.map some) (k : Nat) :
    (array[k]?).map m.str = (params[k]?).map some := by
  rw [← List.getElem?_map, h, List.getElem?_map]

theorem param_load {array : List Nat} {params : List Str} {k : Nat}
    (h : array.map m.str = params.map some) (hk : params[k]? = some w) (hw : w ≠ []) :
    ∃ p c, array[k]? = some p ∧ m.str p = some w ∧ m.load p = some c ∧ c ≠ 0 := by
  have hp := param_str h k
  rw [hk] at hp
  obtain ⟨p, harray, hstr⟩ := Option.map_eq_some_iff.1 hp
  obtain ⟨-, -, h0⟩ := Mem.str_eq_some hstr
  have hload := Mem.load_of_str hstr
  obtain ⟨c, u, rfl⟩ := List.exists_cons_of_ne_nil hw
  exact ⟨p, c, harray, hstr, hload, fun e => h0 (e ▸ List.mem_cons_self)⟩

theorem parseArg_blank (h : firstWord isblank s = none) (num : Nat) :
    parseArg s (num + 1) = (0, []) := by
  rw [parseArg, h]

theorem parseArg_last (h : firstWord isblank s = some (w, none)) (num : Nat) :
    parseArg s (num + 1) = (1, [w]) := by
  rw [parseArg, h]

theorem parseArg_more (h : firstWord isblank s = some (w, some r)) (num : Nat) :
    parseArg s (num + 1) = ((parseArg r num).1 + 1, w :: (parseArg r num).2) := by
  rw [parseArg, h]

theorem noArgBuf_eq (pre : Str) (h0 : 0 ∉ s) : ∃ s', s'.length = s.length ∧
    noArgBuf (pre ++ (s ++ [0])) pre.length = some (noArg s, pre ++ (s' ++ [0])) := by
  obtain ⟨array, s', hparse, hlen, hstr⟩ := parseArgBuf_eq 1 pre s h0
  refine ⟨s', hlen, ?_⟩
  unfold noArgBuf noArg
  rw [hparse, Option.bind_some]
  cases hf : firstWord isblank s with
  | none =>
    rw [parseArg_blank hf]
    rfl
  | some x =>
    obtain ⟨w, _ | r⟩ := x
    · rw [parseArg_last hf] at hstr ⊢
      have hne := firstWord_ne_nil hf
      obtain ⟨p, c, hp, -, hload, hc⟩ := param_load (k := 0) hstr rfl hne
      have hzero : (c == 0) = false := beq_eq_false_iff_ne.2 hc
      have hempty : (some w == some []) = false := by
        rw [beq_eq_false_iff_ne]
        exact fun e => hne (Option.some.inj e)
      simp only [hp, Option.bind_some, hload, Option.map_some, hzero, List.head?_cons, hempty]
    · rw [parseArg_more hf]
      rfl

theorem loginArgBuf_eq (pre : Str) (h0 : 0 ∉ s) : ∃ param0 s', s'.length = s.length ∧
    loginArgBuf (pre ++ (s ++ [0])) pre.length = some (param0, pre ++ (s' ++ [0])) ∧
    param0.map (Mem.str (pre ++ (s' ++ [0]))) = (loginArg s).map some := by
  obtain ⟨array, s', hparse, hlen, hstr⟩ := parseArgBuf_eq 2 pre s h0
  -- the argument when the count is 1
  have hone : ∀ w, w ≠ [] → parseArg s 2 = (1, [w]) → ∃ param0 s', s'.length = s.length ∧
      loginArgBuf (pre ++ (s ++ [0])) pre.length = some (param0, pre ++ (s' ++ [0])) ∧
      param0.map (Mem.str (pre ++ (s' ++ [0]))) = (loginArg s).map some := by
    intro w hne hs
    rw [hs] at hstr
    obtain ⟨p, c, hp, hw, -, -⟩ := param_load (k := 0) hstr rfl hne
    refine ⟨some p, s', hlen, ?_, ?_⟩
    · simp [loginArgBuf, hparse, hs, hp]
    · simp [loginArg, hs, hw]
  cases hf : firstWord isblank s with
  | none =>
    have hs := parseArg_blank hf 1
    exact ⟨none, s', hlen, by simp [loginArgBuf, hparse, hs], by simp [loginArg, hs]⟩
  | some x =>
    obtain ⟨w, _ | r⟩ := x
    · exact hone w (firstWord_ne_nil hf) (parseArg_last hf 1)
    · have hs := parseArg_more hf 1
      cases hr : firstWord isblank r with
      | none =>
        rw [parseArg_blank hr] at hs
        exact hone w (firstWord_ne_nil hf) hs
      | some y =>
        obtain ⟨w2, _ | r2⟩ := y
        · rw [parseArg_last hr] at hs
          rw [hs] at hstr
          have hne := firstWord_ne_nil hr
          obtain ⟨p, c, hp, -, hload, hc⟩ := param_load (k := 1) hstr rfl hne
          refine ⟨none, s', hlen, ?_, ?_⟩
          · simp [loginArgBuf, hparse, hs, hp, hload, hc]
          · simp [loginArg, hs, hne]
        · rw [parseArg_more hr] at hs
          refine ⟨none, s', hlen, ?_, ?_⟩
          · rw [loginArgBuf, hparse, Option.bind_some, hs]
            rfl
          · rw [loginArg, hs]
            rfl

def Command.dcFunc : Command → ManagerControl → Str → ManagerControl × RequestPc
  | .login => managerLogin
  | .reload => managerReload
  | .quit => managerQuit

/-- A handler in memory does what it does on strings. -/
theorem dcFuncBuf_eq (mc : ManagerControl) (c : Command) (pre : Str) (h0 : 0 ∉ s) :
    ∃ s', s'.length = s.length ∧ c.dcFuncBuf mc (pre ++ (s ++ [0])) pre.length =
      some (c.dcFunc mc s, pre ++ (s' ++ [0])) := by
  cases c with
  | login =>
    obtain ⟨param0, s', hlen, hlogin, hstr⟩ := loginArgBuf_eq pre h0
    refine ⟨s', hlen, ?_⟩
    simp only [Command.dcFuncBuf, Command.dcFunc, managerLoginBuf, managerLogin, hlogin,
      Option.bind_some]
    cases hl : loginArg s with
    | none =>
      rw [hl] at hstr
      obtain rfl : param0 = none := Option.map_eq_none_iff.1 hstr
      rfl
    | some a =>
      rw [hl] at hstr
      obtain ⟨p, rfl, hp⟩ := Option.map_eq_some_iff.1 hstr
      simp only [hp, Option.map_some]
      split <;> rfl
  | reload =>
    obtain ⟨s', hlen, hno⟩ := noArgBuf_eq pre h0
    refine ⟨s', hlen, ?_⟩
    simp only [Command.dcFuncBuf, Command.dcFunc, managerReloadBuf, managerReload, hno,
      Option.map_some]
    split
    · split <;> rfl
    · rfl
  | quit =>
    obtain ⟨s', hlen, hno⟩ := noArgBuf_eq pre h0
    refine ⟨s', hlen, ?_⟩
    simp only [Command.dcFuncBuf, Command.dcFunc, managerQuitBuf, managerQuit, hno,
      Option.map_some]
    split <;> rfl

/-! ## The search -/

theorem Command.word (c : Command) : Word isblank c.dcCommand ∧ 0 ∉ c.dcCommand := by
  cases c <;> exact ⟨⟨by decide, by decide +kernel⟩, by decide⟩

theorem Command.lower_injective {c d : Command} (h : lower c.dcCommand = lower d.dcCommand) :
    c = d := by
  cases c <;> cases d <;> first | rfl | exact absurd h (by decide)

/-- One round of the search finds what `commandArg` says. -/
theorem callCommandBuf_cons (mc : ManagerControl) (c : Command) (table : List Command) (pre : Str)
    (h0 : 0 ∉ s) : callCommandBuf mc (pre ++ (s ++ [0])) pre.length (c :: table) =
      if (commandArg c.dcCommand s).isSome then
        (c.dcFuncBuf mc (pre ++ (s ++ [0])) (pre.length + c.dcCommand.length)).map
          fun (r, m) => (some c, r, m)
      else callCommandBuf mc (pre ++ (s ++ [0])) pre.length table := by
  obtain ⟨-, hn0⟩ := c.word
  rw [callCommandBuf, Mem.ncaseEq_append _ _ _ _ hn0 h0, Option.bind_some, commandArg]
  by_cases hc : Lib.ncaseEq c.dcCommand s = true
  · obtain ⟨w, t, rfl, hw⟩ := ncaseEq_iff.1 hc
    have hlen : w.length = c.dcCommand.length := by rw [← length_lower w, hw, length_lower]
    have hdrop : (w ++ t).drop c.dcCommand.length = t := List.drop_left' hlen
    have hload : Mem.load (pre ++ (w ++ t ++ [0])) (pre.length + c.dcCommand.length) =
        some ((t ++ [0]).headD 0) := by
      have hsplit : pre ++ (w ++ t ++ [0]) = pre ++ w ++ (t ++ [0]) := by simp
      rw [← hlen, ← List.length_append, hsplit]
      cases t with
      | nil => exact Mem.load_append _ _ _
      | cons d u => exact Mem.load_append _ _ _
    rw [hload, hdrop]
    simp only [hc, if_true, Option.map_some, Option.bind_some, Bool.true_and]
    cases t with
    | nil => simp
    | cons d u =>
      have hd : (d == 0) = false := by
        rw [beq_eq_false_iff_ne]
        rintro rfl
        exact h0 (by simp)
      cases hb : isblank d <;> simp [hb, hd]
  · simp [hc]

/-- The search calls the handler of the first entry that the line starts with, with the text
behind it. -/
theorem callCommandBuf_eq (mc : ManagerControl) (pre : Str) (h0 : 0 ∉ s) :
    ∀ table : List Command, ∃ invoked r s',
      callCommandBuf mc (pre ++ (s ++ [0])) pre.length table =
        some (invoked, r, pre ++ (s' ++ [0])) ∧ s'.length = s.length ∧
      callCommand mc s (table.map fun c => (c.dcCommand, c.dcFunc)) = r ∧
      match invoked with
      | none => r = (mc.reply UNKNOWN_STRING, .readLine) ∧
        ∀ c ∈ table, commandArg c.dcCommand s = none
      | some c => c ∈ table ∧ ∃ arg, commandArg c.dcCommand s = some arg ∧ r = c.dcFunc mc arg
  | [] => ⟨none, _, s, rfl, rfl, rfl, rfl, fun c hc => by cases hc⟩
  | c :: table => by
    rw [callCommandBuf_cons mc c table pre h0]
    cases hc : commandArg c.dcCommand s with
    | none =>
      obtain ⟨invoked, r, s', hcall, hlen, hr, hspec⟩ := callCommandBuf_eq mc pre h0 table
      refine ⟨invoked, r, s', hcall, hlen, by simp only [List.map_cons, callCommand, hc, hr], ?_⟩
      cases invoked with
      | none =>
        refine ⟨hspec.1, fun d hd => ?_⟩
        rcases List.mem_cons.1 hd with rfl | hd
        · exact hc
        · exact hspec.2 d hd
      | some d => exact ⟨List.mem_cons_of_mem c hspec.1, hspec.2⟩
    | some arg =>
      obtain ⟨w, rfl, hw, -⟩ := commandArg_eq_some.1 hc
      have harg0 : 0 ∉ arg := fun h => h0 (List.mem_append_right w h)
      have hlen : w.length = c.dcCommand.length := by rw [← length_lower w, hw, length_lower]
      obtain ⟨s', hs', hfunc⟩ := dcFuncBuf_eq mc c (pre ++ w) harg0
      have hmem : pre ++ (w ++ arg ++ [0]) = pre ++ w ++ (arg ++ [0]) := by simp
      refine ⟨some c, c.dcFunc mc arg, w ++ s', ?_, by simp [hs'],
        by simp only [List.map_cons, callCommand, hc], List.mem_cons_self, arg, hc, rfl⟩
      rw [← hlen, ← List.length_append, hmem, hfunc]
      simp

/-! ## The words of a line -/

/-- A line that starts with a command has it as its first word. -/
theorem words_of_commandArg {c : Command} {arg : Str} (h : commandArg c.dcCommand s = some arg) :
    ∃ w, words isblank s = w :: words isblank arg ∧ lower w = lower c.dcCommand := by
  obtain ⟨w, rfl, hw, harg⟩ := commandArg_eq_some.1 h
  have hword : Word isblank w := by
    refine ⟨fun e => c.word.1.ne_nil ?_, fun d hd => ?_⟩
    · rw [e] at hw
      exact List.map_eq_nil_iff.1 hw.symm
    · have hlow : tolower d ∈ lower c.dcCommand := hw ▸ List.mem_map_of_mem (f := tolower) hd
      obtain ⟨e, he, heq⟩ := List.mem_map.1 hlow
      rw [← isblank_tolower, ← heq, isblank_tolower]
      exact c.word.1.plain e he
  refine ⟨w, ?_, hw⟩
  cases arg with
  | nil => rw [List.append_nil, hword.words_eq]; rfl
  | cons d r => rw [hword.words_append (harg d r rfl), words_cons_of_pos (harg d r rfl)]

/-- A command that is the first word of a line is found behind the blanks. -/
theorem commandArg_of_words {c : Command} {w : Str} {args : List Str}
    (h : words isblank s = w :: args) (hw : lower w = lower c.dcCommand) :
    ∃ arg, commandArg c.dcCommand (s.dropWhile isblank) = some arg := by
  rcases words_cases isblank s with hb | ⟨b, w', r, rfl, hb, hw', hr⟩
  · rw [words_eq_nil.2 hb] at h
    cases h
  · have hdrop : (b ++ (w' ++ r)).dropWhile isblank = w' ++ r := by
      rw [List.dropWhile_append_of_pos hb]
      obtain ⟨d, u, rfl⟩ := List.exists_cons_of_ne_nil hw'.ne_nil
      exact List.dropWhile_cons_of_neg (by simp [hw'.plain d List.mem_cons_self])
    have hfirst : w' = w := by
      rw [hb.words_append] at h
      cases r with
      | nil =>
        rw [List.append_nil, hw'.words_eq] at h
        exact (List.cons.inj h).1
      | cons d t =>
        rw [hw'.words_append (hr d t rfl)] at h
        exact (List.cons.inj h).1
    exact ⟨r, commandArg_eq_some.2 ⟨w', hdrop, by rw [hfirst, hw], hr⟩⟩

theorem loginArg_iff {a : Str} : loginArg s = some a ↔ words isblank s = [a] := by
  rw [loginArg_eq_some]
  constructor
  · rintro ⟨b, b2, rfl, hb, ha, hb2⟩
    rw [hb.words_append]
    cases b2 with
    | nil => rw [List.append_nil, ha.words_eq]
    | cons c r =>
      have hr : words isblank r = [] :=
        words_eq_nil.2 fun d hd => hb2 d (List.mem_cons_of_mem c hd)
      rw [ha.words_append (hb2 c List.mem_cons_self), hr]
  · intro h
    rcases words_cases isblank s with hb | ⟨b, w, r, rfl, hb, hw, hr⟩
    · rw [words_eq_nil.2 hb] at h
      cases h
    · rw [hb.words_append] at h
      cases r with
      | nil =>
        rw [List.append_nil, hw.words_eq] at h
        obtain rfl : w = a := (List.cons.inj h).1
        exact ⟨b, [], rfl, hb, hw, .nil⟩
      | cons c t =>
        rw [hw.words_append (hr c t rfl)] at h
        obtain ⟨rfl, ht⟩ := List.cons.inj h
        refine ⟨b, c :: t, rfl, hb, hw, fun d hd => ?_⟩
        rcases List.mem_cons.1 hd with rfl | hd
        · exact hr _ t rfl
        · exact words_eq_nil.1 ht d hd

theorem noArg_words : noArg s = true ↔ words isblank s = [] := noArg_iff.trans words_eq_nil.symm

end

/-- A command with its arguments. -/
def Command.WellFormed (args : List Str) : Command → Prop
  | .login => ∃ a, args = [a]
  | .reload | .quit => args = []

/-- What `request_handler` makes of a line with these words. -/
structure Obeys (mc : ManagerControl) (line : List Str) (invoked : Option Command)
    (r : ManagerControl × RequestPc) : Prop where
  invoked_iff : ∀ c, invoked = some c ↔ ∃ w args, line = w :: args ∧ lower w = lower c.dcCommand
  unknown : invoked = none → r = (mc.reply UNKNOWN_STRING, .readLine)
  refused_iff : ∀ c w args, invoked = some c → line = w :: args →
    (r = (mc.reply SYNTAX_ERR_STRING, .readLine) ↔ ¬ c.WellFormed args)
  compared : ∀ w a, invoked = some .login → line = [w, a] → mc.isAuth = false → r.2 = .retrieve a

section
variable {mc : ManagerControl} {arg : Str}

/-- A handler refuses its arguments exactly when they are not as they should be. -/
theorem dcFunc_refuses (mc : ManagerControl) (c : Command) (arg : Str) :
    c.dcFunc mc arg = (mc.reply SYNTAX_ERR_STRING, .readLine) ↔
      ¬ c.WellFormed (words isblank arg) := by
  have hreply : ∀ (t : Str) (mc' : ManagerControl), t ≠ SYNTAX_ERR_STRING →
      mc'.written = mc.written → mc'.reply t ≠ mc.reply SYNTAX_ERR_STRING := by
    intro t mc' ht hw he
    have hwritten := congrArg ManagerControl.written he
    simp only [ManagerControl.reply, hw, List.append_cancel_left_eq, List.cons.injEq,
      and_true] at hwritten
    exact ht hwritten
  cases c with
  | login =>
    simp only [Command.dcFunc, managerLogin, Command.WellFormed]
    cases hl : loginArg arg with
    | none =>
      refine iff_of_true rfl ?_
      rintro ⟨a, ha⟩
      rw [loginArg_iff.2 ha] at hl
      cases hl
    | some a =>
      refine iff_of_false (fun h => ?_) (not_not.2 ⟨a, loginArg_iff.1 hl⟩)
      dsimp only at h
      split at h
      · exact hreply OK_ALREADY_LOGIN_STRING ⟨mc.mcState &&& LOGIN_STATE_AUTH, mc.written⟩
          (by decide) rfl (congrArg Prod.fst h)
      · cases congrArg Prod.snd h
  | reload =>
    simp only [Command.dcFunc, managerReload, Command.WellFormed, ← noArg_words]
    cases noArg arg with
    | true =>
      refine iff_of_false (fun h => ?_) (by simp)
      simp only [if_true] at h
      split at h <;> cases congrArg Prod.snd h
    | false => simp
  | quit =>
    simp only [Command.dcFunc, managerQuit, Command.WellFormed, ← noArg_words]
    cases noArg arg with
    | true =>
      refine iff_of_false (fun h => ?_) (by simp)
      simp only [if_true] at h
      cases congrArg Prod.snd h
    | false => simp

theorem managerLogin_retrieves {a : Str} (h : words isblank arg = [a]) (hmc : mc.isAuth = false) :
    (managerLogin mc arg).2 = .retrieve a := by
  have hstate : mc.mcState &&& LOGIN_STATE_AUTH = 0 := by
    simpa [ManagerControl.isAuth] using hmc
  simp [managerLogin, loginArg_iff.2 h, hstate]

/-- A line that no command matches. -/
theorem obeys_unknown {line : Str}
    (hnone : ∀ c : Command, commandArg c.dcCommand (line.dropWhile isblank) = none)
    (mc : ManagerControl) :
    Obeys mc (words isblank line) none (mc.reply UNKNOWN_STRING, .readLine) := by
  refine ⟨fun c => iff_of_false (by simp) ?_, fun _ => rfl, by simp, by simp⟩
  rintro ⟨w, args, hw, hc⟩
  obtain ⟨arg, harg⟩ := commandArg_of_words hw hc
  rw [hnone c] at harg
  cases harg

/-- A line that a command matches. -/
theorem obeys_called {line arg : Str} {c : Command}
    (harg : commandArg c.dcCommand (line.dropWhile isblank) = some arg) (mc : ManagerControl) :
    Obeys mc (words isblank line) (some c) (c.dcFunc mc arg) := by
  obtain ⟨w, hw, hc⟩ := words_of_commandArg harg
  rw [words_dropWhile] at hw
  refine ⟨fun d => ⟨fun hd => ?_, ?_⟩, by simp, fun d w' args hd hline => ?_,
    fun w' a hd hline hmc => ?_⟩
  · obtain rfl := Option.some.inj hd
    exact ⟨w, _, hw, hc⟩
  · rintro ⟨w', args, hline, hd⟩
    obtain ⟨rfl, -⟩ := List.cons.inj (hw.symm.trans hline)
    rw [Command.lower_injective (hc.symm.trans hd)]
  · obtain rfl := Option.some.inj hd
    obtain ⟨-, rfl⟩ := List.cons.inj (hw.symm.trans hline)
    exact dcFunc_refuses mc c arg
  · obtain rfl := Option.some.inj hd
    obtain ⟨-, hargs⟩ := List.cons.inj (hw.symm.trans hline)
    exact managerLogin_retrieves hargs hmc

/-- The scan over the blanks in front of a line ends at its first word, or at its NUL. -/
theorem find_leading {line : Str} (h0 : 0 ∉ line) :
    Mem.find (line ++ [0]) (fun c => !(isblank c && c != 0)) 0 =
      some (line.takeWhile isblank).length := by
  have hskip : ∀ x ∈ line.takeWhile isblank, (!(isblank x && x != 0)) = false := by
    intro x hx
    have hx0 : x ≠ 0 := fun e => h0 (e ▸ (List.takeWhile_prefix _).mem hx)
    simp [List.mem_takeWhile_imp hx, hx0]
  obtain ⟨d, t, hd, hstop⟩ : ∃ d t, line.dropWhile isblank ++ [0] = d :: t ∧
      (!(isblank d && d != 0)) = true := by
    cases hdrop : line.dropWhile isblank with
    | nil => exact ⟨0, [], rfl, rfl⟩
    | cons d t =>
      have hhead := List.head_dropWhile_not isblank (l := line) (by rw [hdrop]; simp)
      have hd : isblank d = false := by simpa [hdrop] using hhead
      exact ⟨d, t ++ [0], rfl, by simp [hd]⟩
  have hmem : line ++ [0] = line.takeWhile isblank ++ d :: t := by
    rw [← hd, ← List.append_assoc, List.takeWhile_append_dropWhile]
  have hfind := Mem.find_append hskip hstop [] t
  rwa [List.nil_append, List.length_nil, Nat.zero_add, ← hmem] at hfind

end

/-- **The grammar of the commands.** `request_handler` on a line in memory reads and writes nothing
behind the line's NUL, and its words say which handler is called, whether the handler takes its
arguments, and which argument of `LOGIN` is compared with the password. -/
theorem command_grammar (mc : ManagerControl) (readbuf : Str) :
    ∃ (invoked : Option Command) (r : ManagerControl × RequestPc) (line' : Str),
      requestLineBuf mc (cstr readbuf ++ [0]) = some (invoked, r, line' ++ [0]) ∧
      line'.length = (cstr readbuf).length ∧ requestLine mc (.line readbuf) = r ∧
      Obeys mc (words isblank (cstr readbuf)) invoked r := by
  have hline0 : 0 ∉ cstr readbuf := notMem_before readbuf 0
  rw [show requestLine mc (.line readbuf) =
    callCommand mc ((cstr readbuf).dropWhile isblank) managerCommand from rfl]
  generalize cstr readbuf = line at hline0
  have hsplit := List.takeWhile_append_dropWhile (p := isblank) (l := line)
  have hs0 : 0 ∉ line.dropWhile isblank := fun h => hline0 ((List.dropWhile_suffix _).mem h)
  have hmem : line ++ [0] = line.takeWhile isblank ++ (line.dropWhile isblank ++ [0]) := by
    rw [← List.append_assoc, hsplit]
  obtain ⟨invoked, r, s', hcall, hlen, hr, hspec⟩ :=
    callCommandBuf_eq mc (line.takeWhile isblank) hs0 [.login, .reload, .quit]
  refine ⟨invoked, r, line.takeWhile isblank ++ s', ?_, ?_, hr, ?_⟩
  · rw [requestLineBuf, find_leading hline0, Option.bind_some, hmem, hcall, List.append_assoc]
  · rw [List.length_append, hlen, ← List.length_append, hsplit]
  cases invoked with
  | none =>
    obtain ⟨rfl, hnone⟩ := hspec
    exact obeys_unknown (fun c => hnone c (by cases c <;> simp)) mc
  | some c =>
    obtain ⟨-, arg, harg, rfl⟩ := hspec
    exact obeys_called harg mc

end Messasy
