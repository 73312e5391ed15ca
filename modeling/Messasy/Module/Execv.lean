import Messasy.Lib.CString
import Messasy.Module.Zip

/-!
# The arguments of an external command (`msy_config.c`)

`cmd_strrep` in memory: one loop counts the separators, a second one puts a NUL in place of each and
stores the pointer behind it. `gzip_close` and `enczip_close` look for the first `NULL` of the array
and put their paths there. What `execv` reads is the model's argument vector
(`cmdStrrepBuf_pieces`).
-/

namespace Messasy

open Lib

/-- An entry of `cmd_list`: not yet stored, `NULL`, a pointer into `cmd`, or one to another string. -/
inductive Arg
  | undef
  | null
  | cmd (i : Nat)
  | path (s : Str)
  deriving DecidableEq

/-- A store into the array. -/
def putArg (list : List Arg) (i : Nat) (a : Arg) : Option (List Arg) :=
  if i < list.length then some (list.set i a) else none

/-- The loop that counts the separators, for at most `k` rounds. -/
def countSep (cmd : Mem) (sep : Byte) : Nat → Nat → Nat → Option Nat
  | 0, _, _ => none
  | k + 1, p, len => (cmd.load p).bind fun c =>
    if c = 0 then some len
    else countSep cmd sep k (p + 1) (if c = sep then len + 1 else len)

/-- The loop that splits the string, for at most `k` rounds. -/
def splitSep (sep : Byte) : Nat → Mem → Nat → List Arg → Nat → Option (List Arg × Mem)
  | 0, _, _, _, _ => none
  | k + 1, cmd, p, list, i => (cmd.load p).bind fun c =>
    if c = 0 then some (list, cmd)
    else if c = sep then
      (cmd.store p 0).bind fun cmd =>
      (putArg list i (.cmd (p + 1))).bind fun list =>
      splitSep sep k cmd (p + 1) list (i + 1)
    else splitSep sep k cmd (p + 1) list i

/-- The loop that ends the array: `n` entries from `i` on. -/
def putNulls : Nat → List Arg → Nat → Option (List Arg)
  | 0, list, _ => some list
  | n + 1, list, i => (putArg list i .null).bind fun list => putNulls n list (i + 1)

/-- `cmd_strrep`: the array and the string that its pointers point into, or `NULL` for an `epoo`
that is not positive. `malloc` succeeds. -/
def cmdStrrepBuf (str : Str) (sep : Byte) (epoo : Int) : Option (Option (List Arg × Mem)) :=
  if epoo < 1 then some none
  else
    let cmd : Mem := str ++ [0]
    (countSep cmd sep cmd.length 0 1).bind fun len =>
    (putArg (.replicate (len + epoo.toNat) .undef) 0 (.cmd 0)).bind fun list =>
    (splitSep sep cmd.length cmd 0 list 1).bind fun (list, cmd) =>
    (putNulls epoo.toNat list len).map fun list => some (list, cmd)

/-- The index of the first `NULL`; an entry that is not stored is not read. -/
def firstNull : List Arg → Option Nat
  | [] => none
  | .null :: _ => some 0
  | .undef :: _ => none
  | _ :: list => (firstNull list).map (· + 1)

def EXTEND_PART_OPTION_NUM_GZIP : Int := 2

def EXTEND_PART_OPTION_NUM_ENCZIP : Int := 3

/-- `command_args` in `gzip_close`. -/
def gzipArgs (cfGzipcommand tempfilepath : Str) : Option (Option (List Arg × Mem)) :=
  (cmdStrrepBuf cfGzipcommand (ch ' ') EXTEND_PART_OPTION_NUM_GZIP).bind fun
  | none => some none
  | some (commandArgs, cmd) =>
    (firstNull commandArgs).bind fun len =>
    (putArg commandArgs len (.path tempfilepath)).map fun commandArgs => some (commandArgs, cmd)

/-- `command_args` in `enczip_close`. -/
def enczipArgs (cfEnczipcommand tempstr tempfilepath : Str) : Option (Option (List Arg × Mem)) :=
  (cmdStrrepBuf cfEnczipcommand (ch ' ') EXTEND_PART_OPTION_NUM_ENCZIP).bind fun
  | none => some none
  | some (commandArgs, cmd) =>
    (firstNull commandArgs).bind fun len =>
    (putArg commandArgs len (.path tempstr)).bind fun commandArgs =>
    (putArg commandArgs (len + 1) (.path tempfilepath)).map fun commandArgs =>
    some (commandArgs, cmd)

/-- What `execv` reads of an array: the strings in front of the first `NULL`. -/
def execvArgs (cmd : Mem) : List Arg → Option (List Str)
  | [] => none
  | .undef :: _ => none
  | .null :: _ => some []
  | .cmd i :: list => (cmd.str i).bind fun s => (execvArgs cmd list).map (s :: ·)
  | .path s :: list => (execvArgs cmd list).map (s :: ·)

example : (gzipArgs (bytes "/bin/gzip  -9") (bytes "/t")).map
    (Option.map fun (list, cmd) => execvArgs cmd list) =
    some (some (some [bytes "/bin/gzip", [], bytes "-9", bytes "/t"])) := by decide +kernel

/-! ## The two loops -/

section
variable {cmd : Mem} {str : Str}

theorem putArg_append (filled list : List Arg) (a b : Arg) :
    putArg (filled ++ b :: list) filled.length a = some (filled ++ [a] ++ list) := by
  simp [putArg]

theorem countSep_eq (sep : Byte) : ∀ (k : Nat) (pre s : Str) (len : Nat), s.length < k → 0 ∉ s →
    countSep (pre ++ (s ++ [0])) sep k pre.length len = some (len + s.count sep)
  | 0, _, _, _, hk, _ => absurd hk (Nat.not_lt_zero _)
  | k + 1, pre, [], len, _, _ => by
    rw [countSep, List.nil_append, Mem.load_append, Option.bind_some, if_pos rfl]
    rfl
  | k + 1, pre, c :: s, len, hk, hs => by
    simp only [List.mem_cons, not_or] at hs
    have hnext : pre.length + 1 = (pre ++ [c]).length := by simp
    have hmem : pre ++ (c :: s ++ [0]) = pre ++ [c] ++ (s ++ [0]) := by simp
    have ih := countSep_eq sep k (pre ++ [c]) s (if c = sep then len + 1 else len)
      (by simpa using hk) hs.2
    rw [countSep, List.cons_append, Mem.load_append, Option.bind_some, if_neg (Ne.symm hs.1), hnext,
      ← List.cons_append, hmem, ih]
    by_cases hc : c = sep
    · rw [if_pos hc, hc, List.count_cons_self, Nat.add_assoc, Nat.add_comm 1]
    · rw [if_neg hc, List.count_cons_of_ne hc]

/-- A character in front of a string. -/
theorem str_cons {c : Byte} (hc : c ≠ 0) {pre r s : Str}
    (h : Mem.str (pre ++ [c] ++ r) (pre ++ [c]).length = some s) :
    Mem.str (pre ++ [c] ++ r) pre.length = some (c :: s) := by
  obtain ⟨t, ht, hs⟩ := Mem.str_eq_some h
  rw [List.drop_left] at ht
  have hstr := Mem.str_append (s := c :: s) (by simp [Ne.symm hc, hs]) pre t
  rw [ht]
  simpa using hstr

/-- A round at a separator: its place gets a NUL, and the pointer behind it is stored. -/
theorem splitSep_sep {sep : Byte} (hsep : sep ≠ 0) (k : Nat) (pre r : Str) (filled list : List Arg)
    (a : Arg) :
    splitSep sep (k + 1) (pre ++ sep :: r) pre.length (filled ++ a :: list) filled.length =
      splitSep sep k (pre ++ [0] ++ r) (pre ++ [0]).length
        (filled ++ [.cmd (pre ++ [0]).length] ++ list)
        (filled ++ [Arg.cmd (pre ++ [0]).length]).length := by
  have hmem : pre ++ 0 :: r = pre ++ [0] ++ r := by simp
  have hnext : pre.length + 1 = (pre ++ [0]).length := by simp
  have hi : filled.length + 1 = (filled ++ [Arg.cmd (pre ++ [0]).length]).length := by simp
  rw [splitSep, Mem.load_append, Option.bind_some, if_neg hsep, if_pos rfl, Mem.store_append,
    Option.bind_some, putArg_append, Option.bind_some, hmem, hnext, hi]

/-- A round at another character. -/
theorem splitSep_other {sep c : Byte} (hc0 : c ≠ 0) (hc : c ≠ sep) (k : Nat) (pre r : Str)
    (list : List Arg) (i : Nat) :
    splitSep sep (k + 1) (pre ++ c :: r) pre.length list i =
      splitSep sep k (pre ++ [c] ++ r) (pre ++ [c]).length list i := by
  have hmem : pre ++ c :: r = pre ++ [c] ++ r := by simp
  have hnext : pre.length + 1 = (pre ++ [c]).length := by simp
  rw [splitSep, Mem.load_append, Option.bind_some, if_neg hc0, if_neg hc, hmem, hnext]

/-- The loop stores a pointer to each further piece; the piece it starts in is the first. -/
theorem splitSep_eq (sep : Byte) : ∀ (k : Nat) (pre s : Str) (filled : List Arg) (n : Nat), s.length < k →
    0 ∉ s → ∃ (ptrs : List Nat) (s' : Str),
      splitSep sep k (pre ++ (s ++ [0])) pre.length
          (filled ++ .replicate (s.count sep + n) .undef) filled.length =
        some (filled ++ ptrs.map .cmd ++ .replicate n .undef, pre ++ (s' ++ [0])) ∧
      (pre.length :: ptrs).map (Mem.str (pre ++ (s' ++ [0]))) = (s.splitOn sep).map some
  | 0, _, _, _, _, hk, _ => absurd hk (Nat.not_lt_zero _)
  | k + 1, pre, [], filled, n, _, _ => by
    refine ⟨[], [], ?_, ?_⟩
    · rw [splitSep, List.nil_append, Mem.load_append, Option.bind_some, if_pos rfl]
      simp
    · have hstr := Mem.str_append (s := []) List.not_mem_nil pre []
      rw [List.map_cons, List.map_nil, hstr]
      rfl
  | k + 1, pre, c :: s, filled, n, hk, hs => by
    simp only [List.mem_cons, not_or] at hs
    have hc0 : c ≠ 0 := Ne.symm hs.1
    have hk' : s.length < k := by simpa using hk
    have hmem : ∀ (d : Byte) (s : Str), pre ++ (d :: s ++ [0]) = pre ++ [d] ++ (s ++ [0]) := by simp
    by_cases hc : c = sep
    · subst hc
      obtain ⟨ptrs, s', hloop, hstr⟩ := splitSep_eq c k (pre ++ [0]) s
        (filled ++ [.cmd (pre ++ [0]).length]) n hk' hs.2
      have hlist : List.replicate (List.count c (c :: s) + n) Arg.undef =
          .undef :: .replicate (List.count c s + n) .undef := by
        rw [List.count_cons_self, Nat.add_right_comm]
        rfl
      refine ⟨(pre ++ [0]).length :: ptrs, 0 :: s', ?_, ?_⟩
      · rw [hlist, List.cons_append, splitSep_sep hc0, hloop, hmem]
        simp
      · have hempty := Mem.str_append (s := []) List.not_mem_nil pre (s' ++ [0])
        rw [List.nil_append] at hempty
        rw [List.splitOn_cons_eq_if_modifyHead, if_pos (beq_self_eq_true c), List.map_cons, hmem,
          hstr, ← hmem]
        exact congrArg (· :: _) hempty
    · obtain ⟨ptrs, s', hloop, hstr⟩ := splitSep_eq sep k (pre ++ [c]) s filled n hk' hs.2
      refine ⟨ptrs, c :: s', ?_, ?_⟩
      · rw [List.count_cons_of_ne hc, List.cons_append, splitSep_other hc0 hc, hloop, hmem]
      · have hne : (c == sep) = false := beq_eq_false_iff_ne.2 hc
        obtain ⟨x, xs, hx⟩ := List.exists_cons_of_ne_nil (List.splitOn_ne_nil sep s)
        rw [hx, List.map_cons, List.map_cons] at hstr
        obtain ⟨hfirst, hrest⟩ := List.cons.inj hstr
        rw [List.splitOn_cons_eq_if_modifyHead, hne, hx, hmem, List.map_cons, hrest,
          str_cons hc0 hfirst]
        rfl

theorem putNulls_eq : ∀ (n : Nat) (filled : List Arg),
    putNulls n (filled ++ .replicate n .undef) filled.length = some (filled ++ .replicate n .null)
  | 0, _ => rfl
  | n + 1, filled => by
    have hnext : filled.length + 1 = (filled ++ [Arg.null]).length := by simp
    rw [putNulls, List.replicate_succ, putArg_append, Option.bind_some, hnext, putNulls_eq n,
      List.append_assoc, List.singleton_append, ← List.replicate_succ]

theorem length_splitOn (sep : Byte) (s : Str) : (s.splitOn sep).length = s.count sep + 1 := by
  induction s with
  | nil => rfl
  | cons c s ih =>
    rw [List.splitOn_cons_eq_if_modifyHead]
    by_cases hc : c = sep
    · rw [if_pos (beq_iff_eq.2 hc), List.length_cons, ih, hc, List.count_cons_self]
    · rw [if_neg (by simpa using hc), List.length_modifyHead, ih, List.count_cons_of_ne hc]

/-! ## The array -/

/-- `cmd_strrep` stores the pieces and then `NULL`s, and no entry behind them. -/
theorem cmdStrrepBuf_eq (h0 : 0 ∉ str) (sep : Byte) {epoo : Int} (hepoo : 1 ≤ epoo) :
    ∃ (ptrs : List Nat) (cmd : Mem),
      cmdStrrepBuf str sep epoo =
        some (some (ptrs.map .cmd ++ .replicate epoo.toNat .null, cmd)) ∧
      ptrs.map cmd.str = (str.splitOn sep).map some := by
  have hlen : str.length < (str ++ [0]).length := by simp
  have hcount := countSep_eq sep _ [] str 1 hlen h0
  obtain ⟨ptrs, s', hsplit, hstr⟩ := splitSep_eq sep _ [] str [.cmd 0] epoo.toNat hlen h0
  have hptrs : ptrs.length = str.count sep := by
    have hlengths := congrArg List.length hstr
    rw [List.length_map, List.length_map, length_splitOn, List.length_cons] at hlengths
    omega
  have hfilled : 1 + str.count sep = ([Arg.cmd 0] ++ ptrs.map Arg.cmd).length := by
    rw [List.length_append, List.length_map, hptrs]
    rfl
  have hfirst : putArg (.replicate (1 + str.count sep + epoo.toNat) .undef) 0 (.cmd 0) =
      some ([.cmd 0] ++ .replicate (str.count sep + epoo.toNat) .undef) := by
    rw [Nat.add_assoc, Nat.add_comm 1]
    exact putArg_append [] _ _ _
  rw [List.nil_append, List.length_nil] at hcount
  rw [List.nil_append, List.length_nil, List.nil_append] at hsplit
  refine ⟨0 :: ptrs, s' ++ [0], ?_, hstr⟩
  unfold cmdStrrepBuf
  rw [if_neg (by omega)]
  simp only [hcount, Option.bind_some, hfirst]
  rw [List.length_singleton] at hsplit
  simp only [hsplit, Option.bind_some]
  rw [hfilled, putNulls_eq]
  rfl

theorem firstNull_append : ∀ (ptrs : List Nat) (list : List Arg),
    firstNull (ptrs.map .cmd ++ .null :: list) = some (ptrs.map Arg.cmd).length
  | [], _ => rfl
  | i :: ptrs, list => by
    show (firstNull (ptrs.map .cmd ++ .null :: list)).map (· + 1) = _
    rw [firstNull_append ptrs list]
    rfl

theorem execvArgs_append : ∀ {ptrs : List Nat} {ws : List Str}, ptrs.map cmd.str = ws.map some →
    ∀ list, execvArgs cmd (ptrs.map .cmd ++ list) = (execvArgs cmd list).map (ws ++ ·)
  | [], [], _, list => by
    cases hl : execvArgs cmd list <;> simp [hl]
  | [], w :: ws, h, _ => by cases h
  | i :: ptrs, [], h, _ => by cases h
  | i :: ptrs, w :: ws, h, list => by
    obtain ⟨hi, hptrs⟩ := List.cons.inj h
    show (cmd.str i).bind (fun s => (execvArgs cmd (ptrs.map .cmd ++ list)).map (s :: ·)) = _
    rw [hi, Option.bind_some, execvArgs_append hptrs list, Option.map_map]
    rfl

/-- The array of `gzip_close`: the path in the place of the first of two `NULL`s. -/
theorem gzipArgs_eq (h0 : 0 ∉ str) (tempfilepath : Str) :
    ∃ (ptrs : List Nat) (cmd : Mem),
      gzipArgs str tempfilepath =
        some (some (ptrs.map .cmd ++ [.path tempfilepath, .null], cmd)) ∧
      ptrs.map cmd.str = (cmdStrrep str (ch ' ')).map some ∧
      execvArgs cmd (ptrs.map .cmd ++ [.path tempfilepath, .null]) =
        some (cmdStrrep str (ch ' ') ++ [tempfilepath]) := by
  obtain ⟨ptrs, cmd, hlist, hstr⟩ := cmdStrrepBuf_eq h0 (ch ' ')
    (show 1 ≤ EXTEND_PART_OPTION_NUM_GZIP by decide)
  have hnulls : List.replicate EXTEND_PART_OPTION_NUM_GZIP.toNat Arg.null = [.null, .null] := rfl
  rw [hnulls] at hlist
  refine ⟨ptrs, cmd, ?_, hstr, ?_⟩
  · simp only [gzipArgs, hlist, Option.bind_some, firstNull_append, putArg_append,
      Option.map_some, List.append_assoc, List.singleton_append]
  · rw [execvArgs_append hstr]
    rfl

/-- The array of `enczip_close`: both paths in the place of the first two of three `NULL`s. -/
theorem enczipArgs_eq (h0 : 0 ∉ str) (tempstr tempfilepath : Str) :
    ∃ (ptrs : List Nat) (cmd : Mem),
      enczipArgs str tempstr tempfilepath =
        some (some (ptrs.map .cmd ++ [.path tempstr, .path tempfilepath, .null], cmd)) ∧
      ptrs.map cmd.str = (cmdStrrep str (ch ' ')).map some ∧
      execvArgs cmd (ptrs.map .cmd ++ [.path tempstr, .path tempfilepath, .null]) =
        some (cmdStrrep str (ch ' ') ++ [tempstr, tempfilepath]) := by
  obtain ⟨ptrs, cmd, hlist, hstr⟩ := cmdStrrepBuf_eq h0 (ch ' ')
    (show 1 ≤ EXTEND_PART_OPTION_NUM_ENCZIP by decide)
  have hnulls : List.replicate EXTEND_PART_OPTION_NUM_ENCZIP.toNat Arg.null =
      [.null, .null, .null] := rfl
  have hsecond : putArg (ptrs.map .cmd ++ [.path tempstr] ++ [.null, .null])
      ((ptrs.map Arg.cmd).length + 1) (.path tempfilepath) =
        some (ptrs.map .cmd ++ [.path tempstr] ++ [.path tempfilepath] ++ [.null]) := by
    have hlen : (ptrs.map Arg.cmd).length + 1 =
        (ptrs.map Arg.cmd ++ [Arg.path tempstr]).length := by simp
    rw [hlen]
    exact putArg_append _ _ _ _
  rw [hnulls] at hlist
  refine ⟨ptrs, cmd, ?_, hstr, ?_⟩
  · simp only [enczipArgs, hlist, Option.bind_some, firstNull_append, putArg_append, hsecond,
      Option.map_some]
    rw [List.append_assoc, List.append_assoc]
    rfl
  · rw [execvArgs_append hstr]
    rfl

end

/-- **The words of a command.** `cmd_strrep` stores pointers to the pieces of the string between its
separators, in order, and then exactly `epoo` `NULL`s, and the arrays that `gzip_close` and
`enczip_close` give to `execv` are the words of the command, the paths, and `NULL`. -/
theorem cmdStrrepBuf_pieces {str : Str} (h0 : 0 ∉ str) (sep : Byte) {epoo : Int} (hepoo : 1 ≤ epoo)
    (tempstr tempfilepath : Str) :
    (∃ (ptrs : List Nat) (cmd : Mem),
      cmdStrrepBuf str sep epoo =
        some (some (ptrs.map .cmd ++ .replicate epoo.toNat .null, cmd)) ∧
      ptrs.map cmd.str = (str.splitOn sep).map some) ∧
    (∃ (ptrs : List Nat) (cmd : Mem),
      gzipArgs str tempfilepath =
        some (some (ptrs.map .cmd ++ [.path tempfilepath, .null], cmd)) ∧
      ptrs.map cmd.str = (cmdStrrep str (ch ' ')).map some ∧
      execvArgs cmd (ptrs.map .cmd ++ [.path tempfilepath, .null]) =
        some (cmdStrrep str (ch ' ') ++ [tempfilepath])) ∧
    ∃ (ptrs : List Nat) (cmd : Mem),
      enczipArgs str tempstr tempfilepath =
        some (some (ptrs.map .cmd ++ [.path tempstr, .path tempfilepath, .null], cmd)) ∧
      ptrs.map cmd.str = (cmdStrrep str (ch ' ')).map some ∧
      execvArgs cmd (ptrs.map .cmd ++ [.path tempstr, .path tempfilepath, .null]) =
        some (cmdStrrep str (ch ' ') ++ [tempstr, tempfilepath]) :=
  ⟨cmdStrrepBuf_eq h0 sep hepoo, gzipArgs_eq h0 tempfilepath,
    enczipArgs_eq h0 tempstr tempfilepath⟩

/-- A command with a doubled and a trailing blank. -/
theorem cmdStrrepBuf_pieces_gzip :
    (∃ (ptrs : List Nat) (cmd : Mem),
      cmdStrrepBuf (bytes "/bin/gzip  -9 ") (ch ' ') 2 =
        some (some (ptrs.map .cmd ++ .replicate 2 .null, cmd)) ∧
      ptrs.map cmd.str = ((bytes "/bin/gzip  -9 ").splitOn (ch ' ')).map some) ∧
    (bytes "/bin/gzip  -9 ").splitOn (ch ' ') = [bytes "/bin/gzip", [], bytes "-9", []] :=
  ⟨(cmdStrrepBuf_pieces (by decide) (ch ' ') (show (1 : Int) ≤ 2 by decide) [] []).1, by decide⟩

end Messasy
