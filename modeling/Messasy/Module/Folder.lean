import Messasy.Utils.Format
import Messasy.Module.Spool

/-!
# Archive folders

The functions from `md_makedirlist` to `md_makesavefile`, which `maildrop`, `gzip` and `enczip`
share. A folder is made with its parents and never counts as failed; only a `/` in the folder's
name does.
-/

namespace Messasy

open Lib

def MAX_ADDRESS_LEN : Nat := 256

def NAME_MAX : Nat := 255

def UNKNOWN : Str := bytes "UNKNOWN"

def DOT : Byte := ch '.'

def SLASH : Byte := ch '/'

/-- `check_7bit`: true when a byte has its eighth bit set. -/
def check7bit (str : Str) : Bool := str.any fun c => 128 ≤ c

/-- The array `mailaddr[MAX_ADDRESS_LEN + 1]` has the NUL of its copy, or a byte on which `check_7bit`
stops without it. -/
def FitsMailaddr (address : Str) : Prop :=
  address.length ≤ MAX_ADDRESS_LEN ∨ check7bit (address.take (MAX_ADDRESS_LEN + 1)) = true

instance (address : Str) : Decidable (FitsMailaddr address) :=
  inferInstanceAs (Decidable (_ ∨ _))

/-- `strncpy` into `mailaddr`; a longer address leaves the array without its NUL, and what reads the
array next may run out of it. -/
def copyMailaddr (address : Str) : Option Str :=
  if FitsMailaddr address then some (address.take (MAX_ADDRESS_LEN + 1)) else none

/-- The replacement table of `md_makedirlist` for one address. -/
def folderFormat (md : Md) (lt : Tm) (mailaddr : Str) : List Strformat :=
  let (addrP, domainP) :=
    if check7bit mailaddr then (UNKNOWN, UNKNOWN)
    else
      let mailaddr := replaceDelimiter mailaddr DOT md.mdDotdelimiter
      let mailaddr := replaceDelimiter mailaddr SLASH md.mdSlashdelimiter
      match strchr mailaddr (ch '@') with
      | none => (mailaddr, UNKNOWN)
      | some p => (mailaddr, p.tail)
  [⟨ch 'y', lt.year⟩, ⟨ch 'm', lt.month⟩, ⟨ch 'd', lt.day⟩, ⟨ch 'D', domainP⟩, ⟨ch 'M', addrP⟩,
    ⟨ch 'f', addrP⟩]

/-- The folder of one address. -/
def folderPath (md : Md) (lt : Tm) (mailaddr : Str) : Str :=
  md.mdMaildir ++ bytes "/" ++ strReplaceFormat md.mdMailfolder (folderFormat md lt mailaddr)

/-- The copy has the folder of the whole address. -/
theorem folderPath_take {address : Str} (h : FitsMailaddr address) (md : Md) (lt : Tm) :
    folderPath md lt (address.take (MAX_ADDRESS_LEN + 1)) = folderPath md lt address := by
  rcases h with hlen | hbit
  · rw [List.take_of_length_le (Nat.le_succ_of_le hlen)]
  · have hall : check7bit address = true := by
      obtain ⟨c, hc, h⟩ := List.any_eq_true.1 hbit
      exact List.any_eq_true.2 ⟨c, List.mem_of_mem_take hc, h⟩
    simp only [folderPath, folderFormat, hbit, hall, if_true]

/-- The loop of `md_makedirlist`. -/
def makedirlistLoop (md : Md) (lt : Tm) : List Str → List Str → Option (List Str)
  | [], list => some list
  | address :: p, list =>
    match copyMailaddr address with
    | none => none
    | some mailaddr => makedirlistLoop md lt p (uniqPush list (folderPath md lt mailaddr))

/-- `md_makedirlist`. -/
def mdMakedirlist (env : Env) (md : Md) : Option (Rc × List Str) :=
  match env.localtime md.mdRecvtime with
  | none => some (.error, [])
  | some lt => (makedirlistLoop md lt md.mdSaveaddr []).map (.success, ·)

/-- `md_mkdir`. -/
def mdMkdir (env : Env) (dirname : Str) (os : Os) : Rc × Os :=
  match env.stat os.clock dirname with
  | .failed => (.error, os.tick)
  | .noent =>
    let os := os.tick
    if env.mkdir os.clock then (.success, os.log (.mkdir dirname)) else (.error, os.tick)
  | .found true _ => (.success, os.tick)
  | .found false _ => (.error, os.tick)

/-- `md_makemaildir`: the directory with its `new`, `cur` and `tmp`. -/
def mdMakemaildir (env : Env) (dirname : Str) (os : Os) : Os :=
  [[], bytes "/new", bytes "/cur", bytes "/tmp"].foldl
    (fun os subdir => (mdMkdir env (dirname ++ subdir) os).2) os

/-- The loop of `md_makemaildir_tree`: `done` is the path before `subtop`. Every round passes a
dot, so the length of `subtop` bounds the rounds. -/
def makemaildirTreeLoop (env : Env) : Nat → Str → Str → Os → Os
  | 0, done, subtop, os => mdMakemaildir env (done ++ subtop) os
  | k + 1, done, subtop, os =>
    match strchr subtop DOT with
    | none => mdMakemaildir env (done ++ subtop) os
    | some dot =>
      let dir := done ++ before subtop DOT
      makemaildirTreeLoop env k (dir ++ [DOT]) dot.tail (mdMakemaildir env dir os)

/-- `md_makemaildir_tree`. -/
def mdMakemaildirTree (env : Env) (targetdir : Str) (basedirLen : Nat) (os : Os) : Rc × Os :=
  let subtop := targetdir.drop (basedirLen + 1)
  match strchr subtop SLASH with
  | some _ => (.error, os)
  | none =>
    (.success,
      makemaildirTreeLoop env subtop.length (targetdir.take (basedirLen + 1)) subtop os)

/-- `md_makedirbylist`. -/
def mdMakedirbylist (env : Env) (md : Md) : List Str → Os → Rc × Os
  | [], os => (.success, os)
  | p :: list, os =>
    match mdMakemaildirTree env p md.mdMaildir.length os with
    | (.success, os) => mdMakedirbylist env md list os
    | (_, os) => (.error, os)

/-- `%010ld`. -/
def padded (n : Nat) : Str :=
  let digits := bytes (toString n)
  List.replicate (10 - digits.length) (ch '0') ++ digits

/-- `md_makesavefilename` behind its `stat`: `suffix` is what the module appends to
`SAVEFILENAME`, and `snprintf` cuts at the size of the buffer. -/
def saveFilename (md : Md) (stIno : Nat) (msyHostname suffix : Str) : Str :=
  (bytes "/new/" ++ padded md.mdRecvtime ++ bytes "." ++ padded stIno ++ bytes "." ++
    msyHostname ++ suffix).take (NAME_MAX + 6 + suffix.length - 1)

/-- `md_makesavefile`: a link that fails is only logged. -/
def mdMakesavefile (env : Env) (md : Md) (content : Option Str) (filename : Str)
    (dirlist : List Str) (os : Os) : Os :=
  dirlist.foldl
    (fun os p =>
      os.log (.link md.mdTempfilepath (p ++ filename) content (env.link os.clock))) os

/-- The end of `*_close`, from the folder list on. -/
def storeFile (env : Env) (md : Md) (content : Option Str) (filename : Str) (os : Os) :
    Option (Rc × Md × Os) :=
  match mdMakedirlist env md with
  | none => none
  | some (.success, list) =>
    match mdMakedirbylist env md list os with
    | (.success, os) =>
      let os := mdMakesavefile env md content filename list os
      some (.success, md, os.log (.unlink md.mdTempfilepath))
    | (_, os) => some (.error, md, os)
  | some _ => some (.error, md, os)

/-! ## Making directories -/

/-- A relation between before and after that holds for each call that makes a directory or looks
for one. -/
structure Mkdirs (R : Os → Os → Prop) : Prop where
  refl : ∀ os, R os os
  trans : ∀ {os os' os''}, R os os' → R os' os'' → R os os''
  tick : ∀ os, R os os.tick
  mkdir : ∀ dirname os, R os (os.log (.mkdir dirname))

namespace Mkdirs

variable {R : Os → Os → Prop} (h : Mkdirs R) (env : Env)
include h

theorem mdMkdir (dirname : Str) (os : Os) : R os (mdMkdir env dirname os).2 := by
  unfold Messasy.mdMkdir
  split
  · exact h.tick os
  · dsimp only
    split
    · exact h.trans (h.tick os) (h.mkdir dirname os.tick)
    · exact h.trans (h.tick os) (h.tick os.tick)
  · exact h.tick os
  · exact h.tick os

theorem mdMakemaildir (dirname : Str) (os : Os) : R os (mdMakemaildir env dirname os) := by
  unfold Messasy.mdMakemaildir
  generalize [[], bytes "/new", bytes "/cur", bytes "/tmp"] = subdirs
  induction subdirs generalizing os with
  | nil => exact h.refl os
  | cons subdir subdirs ih => exact h.trans (h.mdMkdir env (dirname ++ subdir) os) (ih _)

theorem makemaildirTreeLoop : ∀ (k : Nat) (done subtop : Str) (os : Os),
    R os (makemaildirTreeLoop env k done subtop os)
  | 0, done, subtop, os => h.mdMakemaildir env _ os
  | k + 1, done, subtop, os => by
    unfold Messasy.makemaildirTreeLoop
    split
    · exact h.mdMakemaildir env _ os
    · exact h.trans (h.mdMakemaildir env _ os) (makemaildirTreeLoop k _ _ _)

theorem mdMakemaildirTree (targetdir : Str) (basedirLen : Nat) (os : Os) :
    R os (mdMakemaildirTree env targetdir basedirLen os).2 := by
  unfold Messasy.mdMakemaildirTree
  dsimp only
  split
  · exact h.refl os
  · exact h.makemaildirTreeLoop env _ _ _ os

/-- `md_makedirbylist`. -/
theorem mdMakedirbylist (md : Md) : ∀ (list : List Str) (os : Os),
    R os (mdMakedirbylist env md list os).2
  | [], os => h.refl os
  | p :: list, os => by
    have hp := h.mdMakemaildirTree env p md.mdMaildir.length os
    unfold Messasy.mdMakedirbylist
    rcases hr : Messasy.mdMakemaildirTree env p md.mdMaildir.length os with ⟨rc, os1⟩
    rw [hr] at hp
    cases rc with
    | success => exact h.trans hp (mdMakedirbylist md list os1)
    | _ => exact hp

end Mkdirs

end Messasy
