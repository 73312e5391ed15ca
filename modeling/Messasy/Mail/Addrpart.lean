import Messasy.Lib.Bytes

/-!
# The address in an envelope argument (`libdgmail.c`)

`get_addrpart` scans the argument once for `<`, `>`, `(` and `)` outside quoted text, and then
copies the address in angle brackets, the text before a comment, or the text as it is.
-/

namespace Messasy

open Lib

/-- The `MODE_*` constants of the scan: at the start, normal, after `\`, in a quoted text, after
`\` in a quoted text. -/
inductive Mode
  | zero
  | n
  | s
  | q
  | qs
  deriving DecidableEq, Repr

/-- The scan's variables; `none` is `-1`. -/
structure Scan where
  mode : Mode
  astart : Option Nat
  aend : Option Nat
  nstart : Option Nat
  nend : Option Nat
  bstart : Option Nat
  deriving DecidableEq, Repr

def Scan.init : Scan := ⟨.zero, none, none, none, none, none⟩

/-- A character outside quoted and escaped text. -/
def Scan.normalChar (sc : Scan) (i : Nat) (c : Byte) : Scan :=
  if c = ch '"' then { sc with mode := .q }
  else if c = ch '<' then if sc.astart ≠ none then sc else { sc with astart := some i }
  else if c = ch '>' then if sc.astart = none then sc else { sc with aend := some i }
  else if c = ch '(' then if sc.nstart ≠ none then sc else { sc with nstart := some i }
  else if c = ch ')' then if sc.nstart = none then sc else { sc with nend := some i }
  else sc

/-- The part of the loop body behind the leading blanks. -/
def Scan.textChar (sc : Scan) (i : Nat) (c : Byte) : Scan :=
  if c = ch '\\' then
    match sc.mode with
    | .q => { sc with mode := .qs }
    | .s => { sc with mode := .n }
    | .qs => { sc with mode := .s }
    | _ => { sc with mode := .s }
  else
    match sc.mode with
    | .s => { sc with mode := .n }
    | .qs => { sc with mode := .q }
    | .q => if c = ch '"' then { sc with mode := .n } else sc
    | _ => sc.normalChar i c

/-- One round of the scan loop. -/
def Scan.char (sc : Scan) (i : Nat) (c : Byte) : Scan :=
  if sc.mode = .zero then
    if isspace c then sc else { sc with mode := .n, bstart := some i }.textChar i c
  else sc.textChar i c

/-- The scan loop from position `i` on. -/
def scanLoop : Nat → Str → Scan → Scan
  | _, [], sc => sc
  | i, c :: str, sc => scanLoop (i + 1) str (sc.char i c)

/-- Step forward over blanks, at most `k` of them. -/
def skipBlanks (str : Str) : Nat → Nat → Nat
  | 0, i => i
  | k + 1, i => if isspace (str.getD i 0) then skipBlanks str k (i + 1) else i

/-- Step back over blanks, at most `k` of them. -/
def dropBlanks (str : Str) : Nat → Nat → Nat
  | 0, i => i
  | k + 1, i => if isspace (str.getD i 0) then dropBlanks str k (i - 1) else i

/-- The `ADD_*` constants. -/
inductive Amode
  | asis
  | bra
  | name
  deriving DecidableEq, Repr

/-- What to copy; `none` is an address in brackets that is empty. -/
def Scan.amode (sc : Scan) (str : Str) (bstart : Nat) : Option Amode :=
  if sc.mode ≠ .n then some .asis
  else
    match sc.astart, sc.aend, sc.nstart, sc.nend with
    | some _, _, some _, _ => some .asis
    | some astart, some aend, _, _ =>
      if skipBlanks str (str.length - (aend + 1)) (aend + 1) ≠ str.length then some .asis
      else if astart + 1 = aend then none
      else some .bra
    | _, _, some nstart, some nend =>
      if nstart = bstart then some .asis
      else if skipBlanks str (str.length - (nend + 1)) (nend + 1) ≠ str.length then some .asis
      else some .name
    | _, _, _, _ => some .asis

/-- The lower-cased text from position `first` to position `last`. -/
def copyLower (str : Str) (first last : Nat) : Str := lower ((str.drop first).take (last + 1 - first))

/-- `get_addrpart`. -/
def getAddrpart (str : Str) : Str :=
  let sc := scanLoop 0 str .init
  match sc.bstart with
  | none => []
  | some bstart =>
    match sc.amode str bstart with
    | none => []
    | some .asis =>
      copyLower str bstart (dropBlanks str (str.length - 1 - bstart) (str.length - 1))
    | some .bra =>
      let astart := sc.astart.getD 0
      let aend := sc.aend.getD 0
      let first := skipBlanks str (aend - (astart + 1)) (astart + 1)
      if first = aend then []
      else copyLower str first (dropBlanks str (aend - 1 - first) (aend - 1))
    | some .name =>
      let nstart := sc.nstart.getD 0
      copyLower str bstart (dropBlanks str (nstart - 1 - bstart) (nstart - 1))

/-- Whatever is copied is a lower-cased part of the argument. -/
theorem getAddrpart_infix (str : Str) : ∃ s, s <:+: str ∧ getAddrpart str = lower s := by
  have hcopy : ∀ first last, ∃ s, s <:+: str ∧ copyLower str first last = lower s :=
    fun first last => ⟨_, (List.take_prefix _ _).isInfix.trans (List.drop_suffix _ _).isInfix, rfl⟩
  have hnil : ∃ s, s <:+: str ∧ [] = lower s := ⟨[], List.nil_infix, rfl⟩
  unfold getAddrpart
  dsimp only
  split
  · exact hnil
  · split
    · exact hnil
    · exact hcopy _ _
    · split
      · exact hnil
      · exact hcopy _ _
    · exact hcopy _ _

example : getAddrpart (bytes " Taro <Taro@Example.com> ") = bytes "taro@example.com" := by
  decide +kernel

end Messasy
