import Messasy.Lib.Newline
import Messasy.Module.Env

/-!
# The temporary file

`struct maildrop`, `struct gzip`, `struct enczip` and `struct lda` with the writers that the four
modules share: `*_write_header`, `*_write_body`, the flush in `*_close`, and `*_abort`. The file
behind the descriptor is part of the record (`tempfile`).
-/

namespace Messasy

open Lib

def CUSTOMHDR_FROM : Str := bytes "X-Messasy-From"

def CUSTOMHDR_TO : Str := bytes "X-Messasy-To"

/-- The record of a message being spooled; `lda` has no folder fields. `mdSaveaddr` are the
addresses of the list at `md_saveaddr_h`, which lives as long as the message. -/
structure Md where
  mdRecvtime : Nat
  mdMaildir : Str
  mdMailfolder : Str
  mdDotdelimiter : Byte
  mdSlashdelimiter : Byte
  mdTempfilepath : Str
  mdTempfileFd : Int
  mdWritingHeader : Bool
  mdWritingBody : Bool
  mdCr : Bool
  mdHeaderFrom : Str
  mdHeaderTo : Str
  mdSaveaddr : List Str
  tempfile : Str
  deriving DecidableEq

def Md.setWritingHeader (md : Md) : Md := { md with mdWritingHeader := true }

def Md.setWritingBody (md : Md) : Md := { md with mdWritingBody := true }

def Md.setCr (md : Md) (cr : Bool) : Md := { md with mdCr := cr }

/-- `write` on the temporary file: at least one byte of a text that is not empty, or a failure. -/
def Md.write (env : Env) (md : Md) (text : Str) (os : Os) : Option Nat × Md × Os :=
  match env.write os.clock text.length with
  | none => (none, md, os.tick)
  | some n =>
    let n := max 1 (min n text.length)
    (some n, { md with tempfile := md.tempfile ++ text.take n },
      os.log (.write md.mdTempfileFd (text.take n)))

/-- The write loop of `*_write_header`: `p` is the text left, `writtenLen` what the last call
wrote. A call stores a byte at least, so the length bounds the rounds. -/
def writeHeaderLoop (env : Env) : Nat → Str → Nat → Md → Os → Rc × Md × Os
  | 0, _, _, md, os => (.success, md, os)
  | k + 1, p, writtenLen, md, os =>
    if writtenLen < p.length then
      match md.write env p os with
      | (none, md, os) => (.error, md, os)
      | (some n, md, os) => writeHeaderLoop env k (p.drop n) n md os
    else (.success, md, os)

/-- Go on after `R_SUCCESS`; any other result is returned at once. -/
def onSuccess (r : Rc × Md × Os) (next : Md → Os → Rc × Md × Os) : Rc × Md × Os :=
  match r with
  | (.success, md, os) => next md os
  | r => r

/-- One line of the header. -/
def headerLine (headerf : Str) (headerv : Option Str) : Str :=
  headerf ++ bytes ": " ++ headerv.getD [] ++ [LF]

/-- `*_write_header` when `md_writing_header` is set. -/
def writeHeaderLine (env : Env) (md : Md) (headerf : Str) (headerv : Option Str) (os : Os) :
    Rc × Md × Os :=
  let header := headerLine headerf headerv
  writeHeaderLoop env header.length header 0 md os

/-- `*_write_header`: the first call writes the two custom headers before its own. -/
def writeHeader (env : Env) (md : Md) (headerf : Str) (headerv : Option Str) (os : Os) :
    Rc × Md × Os :=
  if md.mdWritingHeader then writeHeaderLine env md headerf headerv os
  else
    let md := md.setWritingHeader
    onSuccess (writeHeaderLine env md CUSTOMHDR_FROM (some md.mdHeaderFrom) os) fun md os =>
      onSuccess (writeHeaderLine env md CUSTOMHDR_TO (some md.mdHeaderTo) os) fun md os =>
        writeHeaderLine env md headerf headerv os

/-- One round of the loop of `*_write_body`: a CR held back, then the byte. -/
def writeBodyByte (env : Env) (md : Md) (c : Byte) (os : Os) : Rc × Md × Os :=
  let pending : Rc × Md × Os :=
    if md.mdCr then
      if c = LF then (.success, md.setCr false, os)
      else
        match md.write env [CR] os with
        | (none, md, os) => (.error, md, os)
        | (some _, md, os) => (.success, md.setCr false, os)
    else (.success, md, os)
  onSuccess pending fun md os =>
    if c = CR then (.success, md.setCr true, os)
    else
      match md.write env [c] os with
      | (none, md, os) => (.error, md, os)
      | (some _, md, os) => (.success, md, os)

/-- The loop of `*_write_body`. -/
def writeBodyLoop (env : Env) : Str → Md → Os → Rc × Md × Os
  | [], md, os => (.success, md, os)
  | c :: bodyp, md, os => onSuccess (writeBodyByte env md c os) (writeBodyLoop env bodyp)

/-- `*_write_body`: the first call writes the empty line before its own bytes. -/
def writeBody (env : Env) (md : Md) (bodyp : Str) (os : Os) : Rc × Md × Os :=
  if md.mdWritingBody then writeBodyLoop env bodyp md os
  else onSuccess (writeBodyLoop env [LF] md.setWritingBody os) (writeBodyLoop env bodyp)

/-- The start of `*_close`: a CR held back is written, whatever comes of it, and the file is
closed. -/
def closeTempfile (env : Env) (md : Md) (os : Os) : Md × Os :=
  if 0 < md.mdTempfileFd then
    let (md, os) :=
      if md.mdCr then
        let (_, md, os) := md.write env [CR] os
        (md.setCr false, os)
      else (md, os)
    ({ md with mdTempfileFd := 0 }, os.log (.close md.mdTempfileFd))
  else (md, os)

/-- `*_abort`; the record itself is not released. -/
def abortTempfile (md : Md) (os : Os) : Os :=
  let os := if 0 < md.mdTempfileFd then os.log (.close md.mdTempfileFd) else os
  os.log (.unlink md.mdTempfilepath)

/-- `md_list2str`; the empty list ends in `strset_set` with a NULL. -/
def mdList2str : List Str → Option Str
  | [] => none
  | [a] => some a
  | a :: list => (mdList2str list).map (a ++ bytes ", " ++ ·)

theorem mdList2str_some : ∀ {l : List Str}, l ≠ [] → ∃ s, mdList2str l = some s
  | [], h => absurd rfl h
  | [a], _ => ⟨a, rfl⟩
  | a :: b :: l, _ => by
    obtain ⟨s, hs⟩ := mdList2str_some (List.cons_ne_nil b l)
    exact ⟨a ++ bytes ", " ++ s, by rw [mdList2str, hs, Option.map_some]; simp⟩

/-! ## What the writers leave alone -/

/-- The record at a point of its progress. -/
def Md.stage (md : Md) (writingHeader writingBody cr : Bool) (tempfile : Str) : Md :=
  { md with mdWritingHeader := writingHeader, mdWritingBody := writingBody, mdCr := cr, tempfile }

/-- The record without its progress: the fields that `*_open` sets. -/
def Md.core (md : Md) : Md := md.stage false false false []

section
variable (md : Md) (wh wb cr wh' wb' cr' : Bool) (t t' : Str)

theorem Md.stage_self :
    md.stage md.mdWritingHeader md.mdWritingBody md.mdCr md.tempfile = md := rfl

@[simp] theorem Md.stage_stage :
    (md.stage wh wb cr t).stage wh' wb' cr' t' = md.stage wh' wb' cr' t' := rfl

@[simp] theorem Md.core_stage : (md.stage wh wb cr t).core = md.core := rfl

@[simp] theorem Md.stage_setWritingHeader :
    (md.stage wh wb cr t).setWritingHeader = md.stage true wb cr t := rfl

@[simp] theorem Md.stage_setWritingBody :
    (md.stage wh wb cr t).setWritingBody = md.stage wh true cr t := rfl

@[simp] theorem Md.stage_setCr : (md.stage wh wb cr t).setCr cr' = md.stage wh wb cr' t := rfl

@[simp] theorem Md.stage_writingHeader : (md.stage wh wb cr t).mdWritingHeader = wh := rfl

@[simp] theorem Md.stage_writingBody : (md.stage wh wb cr t).mdWritingBody = wb := rfl

@[simp] theorem Md.stage_cr : (md.stage wh wb cr t).mdCr = cr := rfl

@[simp] theorem Md.stage_tempfile : (md.stage wh wb cr t).tempfile = t := rfl

@[simp] theorem Md.stage_fd : (md.stage wh wb cr t).mdTempfileFd = md.mdTempfileFd := rfl

@[simp] theorem Md.stage_from : (md.stage wh wb cr t).mdHeaderFrom = md.mdHeaderFrom := rfl

@[simp] theorem Md.stage_to : (md.stage wh wb cr t).mdHeaderTo = md.mdHeaderTo := rfl

end

/-- A relation between before and after that holds for each step of the writers: a `write`, and a
change of the record's flags. -/
structure Writes (env : Env) (R : Md × Os → Md × Os → Prop) : Prop where
  refl : ∀ x, R x x
  trans : ∀ {x y z}, R x y → R y z → R x z
  write : ∀ md text os, R (md, os) (md.write env text os).2
  flags : ∀ md writingHeader writingBody cr os,
    R (md, os) (md.stage writingHeader writingBody cr md.tempfile, os)

namespace Writes

variable {env : Env} {R : Md × Os → Md × Os → Prop} (h : Writes env R)
include h

theorem onSuccess {x : Md × Os} {r : Rc × Md × Os} {next : Md → Os → Rc × Md × Os}
    (hr : R x r.2) (hnext : ∀ md os, R (md, os) (next md os).2) :
    R x (onSuccess r next).2 := by
  obtain ⟨rc, md, os⟩ := r
  cases rc with
  | success => exact h.trans hr (hnext md os)
  | _ => exact hr

theorem writeHeaderLoop : ∀ (k : Nat) (p : Str) (writtenLen : Nat) (md : Md) (os : Os),
    R (md, os) (writeHeaderLoop env k p writtenLen md os).2
  | 0, _, _, md, os => h.refl (md, os)
  | k + 1, p, writtenLen, md, os => by
    unfold Messasy.writeHeaderLoop
    split
    · have hw := h.write md p os
      rcases hr : md.write env p os with ⟨_ | n, md', os'⟩ <;> rw [hr] at hw
      · exact hw
      · exact h.trans hw (writeHeaderLoop k _ n md' os')
    · exact h.refl (md, os)

theorem writeHeaderLine (md : Md) (headerf : Str) (headerv : Option Str) (os : Os) :
    R (md, os) (writeHeaderLine env md headerf headerv os).2 :=
  h.writeHeaderLoop _ _ 0 md os

/-- `*_write_header`. -/
theorem writeHeader (md : Md) (headerf : Str) (headerv : Option Str) (os : Os) :
    R (md, os) (writeHeader env md headerf headerv os).2 := by
  unfold Messasy.writeHeader
  split
  · exact h.writeHeaderLine md headerf headerv os
  · refine h.trans (h.flags md true md.mdWritingBody md.mdCr os) ?_
    refine h.onSuccess (h.writeHeaderLine _ _ _ os) fun md1 os1 => ?_
    refine h.onSuccess (h.writeHeaderLine md1 _ _ os1) fun md2 os2 => ?_
    exact h.writeHeaderLine md2 headerf headerv os2

theorem writeBodyByte (md : Md) (c : Byte) (os : Os) :
    R (md, os) (writeBodyByte env md c os).2 := by
  have hcr : ∀ (md : Md) cr os, R (md, os) (md.setCr cr, os) := fun md cr os =>
    h.flags md md.mdWritingHeader md.mdWritingBody cr os
  unfold Messasy.writeBodyByte
  refine h.onSuccess ?_ fun md1 os1 => ?_
  · split
    · split
      · exact hcr md false os
      · have hw := h.write md [CR] os
        rcases hr : md.write env [CR] os with ⟨_ | n, md', os'⟩ <;> rw [hr] at hw
        · exact hw
        · exact h.trans hw (hcr md' false os')
    · exact h.refl (md, os)
  · split
    · exact hcr md1 true os1
    · have hw := h.write md1 [c] os1
      rcases hr : md1.write env [c] os1 with ⟨_ | n, md', os'⟩ <;> rw [hr] at hw <;> exact hw

theorem writeBodyLoop : ∀ (bodyp : Str) (md : Md) (os : Os),
    R (md, os) (writeBodyLoop env bodyp md os).2
  | [], md, os => h.refl (md, os)
  | c :: bodyp, md, os => h.onSuccess (h.writeBodyByte md c os) (writeBodyLoop bodyp)

/-- `*_write_body`. -/
theorem writeBody (md : Md) (bodyp : Str) (os : Os) :
    R (md, os) (writeBody env md bodyp os).2 := by
  unfold Messasy.writeBody
  split
  · exact h.writeBodyLoop bodyp md os
  · refine h.trans (h.flags md md.mdWritingHeader true md.mdCr os) ?_
    exact h.onSuccess (h.writeBodyLoop [LF] _ os) (h.writeBodyLoop bodyp)

end Writes

/-- A writer changes the record's progress only, and makes no archive file. -/
structure Kept (md md' : Md) (os os' : Os) : Prop where
  core : md'.core = md.core
  archived : os'.archived = os.archived

section
variable (env : Env)

theorem Md.write_kept (md : Md) (text : Str) (os : Os) :
    Kept md (md.write env text os).2.1 os (md.write env text os).2.2 := by
  unfold Md.write
  cases env.write os.clock text.length with
  | none => exact ⟨rfl, rfl⟩
  | some n => exact ⟨rfl, by simp [Os.archived_log, archived]⟩

theorem writes_kept : Writes env fun x y => Kept x.1 y.1 x.2 y.2 where
  refl _ := ⟨rfl, rfl⟩
  trans h h' := ⟨h'.core.trans h.core, h'.archived.trans h.archived⟩
  write md text os := md.write_kept env text os
  flags _ _ _ _ _ := ⟨rfl, rfl⟩

theorem writeHeader_kept (md : Md) (headerf : Str) (headerv : Option Str) (os : Os) :
    Kept md (writeHeader env md headerf headerv os).2.1 os
      (writeHeader env md headerf headerv os).2.2 :=
  (writes_kept env).writeHeader md headerf headerv os

theorem writeBody_kept (md : Md) (bodyp : Str) (os : Os) :
    Kept md (writeBody env md bodyp os).2.1 os (writeBody env md bodyp os).2.2 :=
  (writes_kept env).writeBody md bodyp os

end

/-! ## When no write fails -/

theorem onSuccess_success {r : Rc × Md × Os} {next : Md → Os → Rc × Md × Os}
    (h : r.1 = .success) (hnext : ∀ md os, (next md os).1 = .success) :
    (onSuccess r next).1 = .success := by
  obtain ⟨rc, md, os⟩ := r
  obtain rfl : rc = .success := h
  exact hnext md os

section
variable {env : Env} (hwrite : ∀ i n, env.write i n ≠ none)
include hwrite

theorem Md.write_some (md : Md) (text : Str) (os : Os) :
    ∃ n md' os', md.write env text os = (some n, md', os') := by
  obtain ⟨n, hn⟩ := Option.ne_none_iff_exists'.1 (hwrite os.clock text.length)
  simp only [Md.write, hn]
  exact ⟨_, _, _, rfl⟩

theorem writeHeaderLoop_success : ∀ (k : Nat) (p : Str) (writtenLen : Nat) (md : Md) (os : Os),
    (writeHeaderLoop env k p writtenLen md os).1 = .success
  | 0, _, _, _, _ => rfl
  | k + 1, p, writtenLen, md, os => by
    unfold writeHeaderLoop
    split
    · obtain ⟨n, md', os', hw⟩ := Md.write_some hwrite md p os
      rw [hw]
      exact writeHeaderLoop_success k _ n md' os'
    · rfl

theorem writeHeader_success (md : Md) (headerf : Str) (headerv : Option Str) (os : Os) :
    (writeHeader env md headerf headerv os).1 = .success := by
  have hline : ∀ md headerf headerv os, (writeHeaderLine env md headerf headerv os).1 = .success :=
    fun md headerf headerv os => writeHeaderLoop_success hwrite _ _ 0 md os
  unfold writeHeader
  split
  · exact hline ..
  · exact onSuccess_success (hline ..) fun md os => onSuccess_success (hline ..) fun md os => hline ..

theorem writeBodyByte_success (md : Md) (c : Byte) (os : Os) :
    (writeBodyByte env md c os).1 = .success := by
  have hone : ∀ (md : Md) os b (md1 : Md → Md),
      (match md.write env [b] os with
        | (none, md, os) => ((.error, md, os) : Rc × Md × Os)
        | (some _, md, os) => (.success, md1 md, os)).1 = .success := by
    intro md os b md1
    obtain ⟨n, md', os', hw⟩ := Md.write_some hwrite md [b] os
    rw [hw]
  unfold writeBodyByte
  refine onSuccess_success ?_ fun md os => ?_
  · split
    · split
      · rfl
      · exact hone md os CR (·.setCr false)
    · rfl
  · split
    · rfl
    · exact hone md os c id

theorem writeBody_success (md : Md) (bodyp : Str) (os : Os) :
    (writeBody env md bodyp os).1 = .success := by
  have hloop : ∀ (bodyp : Str) (md : Md) (os : Os),
      (writeBodyLoop env bodyp md os).1 = .success := by
    intro bodyp
    induction bodyp with
    | nil => intro md os; rfl
    | cons c bodyp ih =>
      intro md os
      exact onSuccess_success (writeBodyByte_success hwrite md c os) ih
  unfold writeBody
  split
  · exact hloop bodyp md os
  · exact onSuccess_success (hloop [LF] _ os) (hloop bodyp)

end

/-! ## When every write stores all it is given -/

/-- Every write stores all the bytes it is given. -/
def Env.Full (env : Env) : Prop := ∀ i n, env.write i n = some n

/-- The custom headers. -/
def Md.customHeaders (md : Md) : Str :=
  headerLine CUSTOMHDR_FROM (some md.mdHeaderFrom) ++ headerLine CUSTOMHDR_TO (some md.mdHeaderTo)

section
variable {env : Env} (hfull : env.Full) (md : Md) (wh wb cr : Bool) (t : Str) (os : Os)
include hfull

theorem Md.write_eq {text : Str} (ht : text ≠ []) :
    (md.stage wh wb cr t).write env text os =
      (some text.length, md.stage wh wb cr (t ++ text), os.log (.write md.mdTempfileFd text)) := by
  have hlen : max 1 (min text.length text.length) = text.length := by
    have := List.length_pos_iff.2 ht
    omega
  simp only [Md.write, hfull os.clock text.length, hlen, List.take_length]
  rfl

/-- One call writes the whole line. -/
theorem writeHeaderLine_eq (headerf : Str) (headerv : Option Str) :
    ∃ os', writeHeaderLine env (md.stage wh wb cr t) headerf headerv os =
      (.success, md.stage wh wb cr (t ++ headerLine headerf headerv), os') := by
  have hne : headerLine headerf headerv ≠ [] := by simp [headerLine]
  have hpos := List.length_pos_iff.2 hne
  unfold writeHeaderLine
  dsimp only
  generalize headerLine headerf headerv = p at hne hpos
  obtain ⟨k, hk⟩ := Nat.exists_eq_succ_of_ne_zero hpos.ne'
  refine ⟨os.log (.write md.mdTempfileFd p), ?_⟩
  rw [hk]
  simp only [writeHeaderLoop, hpos, if_true, Md.write_eq hfull md wh wb cr t os hne,
    List.drop_length]
  cases k <;> simp [writeHeaderLoop]

theorem writeHeader_eq (headerf : Str) (headerv : Option Str) :
    ∃ os', writeHeader env (md.stage wh wb cr t) headerf headerv os =
      (.success, md.stage true wb cr
        (t ++ (if wh then [] else md.customHeaders) ++ headerLine headerf headerv), os') := by
  unfold writeHeader
  cases wh with
  | true =>
    obtain ⟨os', he⟩ := writeHeaderLine_eq hfull md true wb cr t os headerf headerv
    exact ⟨os', by simpa using he⟩
  | false =>
    obtain ⟨os1, he1⟩ := writeHeaderLine_eq hfull md true wb cr t os CUSTOMHDR_FROM
      (some md.mdHeaderFrom)
    obtain ⟨os2, he2⟩ := writeHeaderLine_eq hfull md true wb cr
      (t ++ headerLine CUSTOMHDR_FROM (some md.mdHeaderFrom)) os1 CUSTOMHDR_TO
      (some md.mdHeaderTo)
    obtain ⟨os3, he3⟩ := writeHeaderLine_eq hfull md true wb cr
      (t ++ headerLine CUSTOMHDR_FROM (some md.mdHeaderFrom) ++
        headerLine CUSTOMHDR_TO (some md.mdHeaderTo)) os2 headerf headerv
    refine ⟨os3, ?_⟩
    simp only [Md.stage_writingHeader, Bool.false_eq_true, if_false, Md.stage_setWritingHeader,
      Md.stage_from, Md.stage_to, he1, he2, he3, onSuccess]
    simp only [Md.customHeaders, List.append_assoc]

theorem writeBodyByte_eq (c : Byte) :
    ∃ os', writeBodyByte env (md.stage wh wb cr t) c os =
      (.success, md.stage wh wb (feed cr [c]).2 (t ++ (feed cr [c]).1), os') := by
  have hw : ∀ cr t os b, (md.stage wh wb cr t).write env [b] os =
      (some 1, md.stage wh wb cr (t ++ [b]), os.log (.write md.mdTempfileFd [b])) :=
    fun cr t os b => Md.write_eq hfull md wh wb cr t os (by simp)
  unfold writeBodyByte
  have hlf : LF ≠ CR := by decide
  cases cr with
  | false => by_cases hc : c = CR <;> simp [hc, hw, feed, held, onSuccess]
  | true =>
    by_cases hl : c = LF
    · subst hl
      simp [hw, feed, hlf, onSuccess]
    · by_cases hc : c = CR <;> simp [hc, hl, hw, feed, held, hlf.symm, onSuccess]

theorem writeBodyLoop_eq (bodyp : Str) : ∀ (cr : Bool) (t : Str) (os : Os),
    ∃ os', writeBodyLoop env bodyp (md.stage wh wb cr t) os =
      (.success, md.stage wh wb (feed cr bodyp).2 (t ++ (feed cr bodyp).1), os') := by
  induction bodyp with
  | nil => intro cr t os; exact ⟨os, by simp [writeBodyLoop, feed]⟩
  | cons c bodyp ih =>
    intro cr t os
    obtain ⟨os1, he1⟩ := writeBodyByte_eq hfull md wh wb cr t os c
    obtain ⟨os2, he2⟩ := ih (feed cr [c]).2 (t ++ (feed cr [c]).1) os1
    have happ := feed_append [c] bodyp cr
    rw [List.singleton_append] at happ
    exact ⟨os2, by simp only [writeBodyLoop, onSuccess, he1, he2, happ, List.append_assoc]⟩

/-- **`*_write_body`** under full writes: the empty line first, then the chunk through `feed`. -/
theorem writeBody_eq (bodyp : Str) (hcr : wb = false → cr = false) :
    ∃ os', writeBody env (md.stage wh wb cr t) bodyp os =
      (.success, md.stage wh true (feed cr bodyp).2
        (t ++ (if wb then [] else [LF]) ++ (feed cr bodyp).1), os') := by
  unfold writeBody
  cases wb with
  | true =>
    obtain ⟨os', he⟩ := writeBodyLoop_eq hfull md wh true bodyp cr t os
    exact ⟨os', by simpa using he⟩
  | false =>
    obtain rfl := hcr rfl
    obtain ⟨os1, he1⟩ := writeBodyLoop_eq hfull md wh true [LF] false t os
    have hlf : feed false [LF] = ([LF], false) := by decide
    rw [hlf] at he1
    obtain ⟨os2, he2⟩ := writeBodyLoop_eq hfull md wh true bodyp false (t ++ [LF]) os1
    exact ⟨os2, by simp only [Md.stage_writingBody, Bool.false_eq_true, if_false,
      Md.stage_setWritingBody, onSuccess, he1, he2]⟩

/-- The flush writes what is held back. -/
theorem closeTempfile_tempfile (hfd : 0 < md.mdTempfileFd) :
    (closeTempfile env md os).1.tempfile = md.tempfile ++ held md.mdCr := by
  have hw := Md.write_eq hfull md md.mdWritingHeader md.mdWritingBody md.mdCr md.tempfile os
    (List.cons_ne_nil CR [])
  rw [Md.stage_self] at hw
  unfold closeTempfile
  cases hcr : md.mdCr with
  | false => simp [hfd, held]
  | true => simp [hfd, hw, held]

end

/-! ## The text of a message -/

/-- The lines of a header part. -/
def headerLines (headers : List (Str × Option Str)) : Str :=
  headers.flatMap fun h => headerLine h.1 h.2

/-- The record behind these headers and body chunks, from an opened record on. -/
def Md.spooled (md : Md) (headers : List (Str × Option Str)) (chunks : List Str) : Md :=
  md.stage (!headers.isEmpty) (!chunks.isEmpty) (feed false chunks.flatten).2
    ((if headers.isEmpty then [] else md.customHeaders) ++ headerLines headers ++
      if chunks.isEmpty then [] else LF :: (feed false chunks.flatten).1)

section
variable {env : Env} (hfull : env.Full) (md : Md) (headers : List (Str × Option Str))
  (chunks : List Str) (os : Os)
include hfull

/-- One more header. -/
theorem writeHeader_spooled (headerf : Str) (headerv : Option Str) :
    ∃ os', writeHeader env (md.spooled headers []) headerf headerv os =
      (.success, md.spooled (headers ++ [(headerf, headerv)]) [], os') := by
  obtain ⟨os', he⟩ := writeHeader_eq hfull md (!headers.isEmpty) false false
    ((if headers.isEmpty then [] else md.customHeaders) ++ headerLines headers) os headerf headerv
  refine ⟨os', ?_⟩
  cases headers with
  | nil => simpa [Md.spooled, headerLines, feed] using he
  | cons h headers => simpa [Md.spooled, headerLines, feed] using he

/-- One more body chunk. -/
theorem writeBody_spooled (bodyp : Str) :
    ∃ os', writeBody env (md.spooled headers chunks) bodyp os =
      (.success, md.spooled headers (chunks ++ [bodyp]), os') := by
  obtain ⟨os', he⟩ := writeBody_eq hfull md (!headers.isEmpty) (!chunks.isEmpty)
    (feed false chunks.flatten).2 ((if headers.isEmpty then [] else md.customHeaders) ++
      headerLines headers ++ if chunks.isEmpty then [] else LF :: (feed false chunks.flatten).1)
    os bodyp (fun hc => by
      have hnil : chunks = [] := by simpa using hc
      rw [hnil]
      rfl)
  refine ⟨os', ?_⟩
  cases chunks with
  | nil => simpa [Md.spooled, feed] using he
  | cons c chunks =>
    have happ := feed_append (c ++ chunks.flatten) bodyp false
    rw [List.append_assoc] at happ
    simpa [Md.spooled, happ] using he

/-- The flush completes the text. -/
theorem closeTempfile_spooled (hfd : 0 < md.mdTempfileFd) (hh : headers ≠ []) (hb : chunks ≠ []) :
    (closeTempfile env (md.spooled headers chunks) os).1.tempfile =
      md.customHeaders ++ headerLines headers ++ LF :: unixLines chunks.flatten := by
  rw [closeTempfile_tempfile hfull (md.spooled headers chunks) os hfd, ← feed_start]
  simp [Md.spooled, hh, hb]

end

end Messasy
