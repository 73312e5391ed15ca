import Messasy.Lib.FileSys
import Messasy.Module.Lda
import Messasy.Module.Maildrop
import Messasy.Module.Slot

/-!
# The temporary file on the disk

`Slot.book`: the record of a module says which file it has on the disk, with which text, and
whether it is still open. The hooks of `maildrop` and `lda` keep that book (`Module.Books`): what
they write goes to their own open file, what they link or hand to a command is closed and has the
text of the record, and they unlink it once. `gzip` and `enczip` do not: when their command fails
they unlink the file, and the abort hook unlinks the name once more.
-/

namespace Messasy

open Lib

/-- The call on the disk. -/
def Event.fileOp : Event → FileOp Str Byte
  | .mkstemp path fd => .mkstemp path fd
  | .write fd text => .write fd text
  | .close fd => .close fd
  | .link oldpath newpath content ok => if ok then .link oldpath newpath content else .other
  | .unlink path => .unlink path
  | .sh _ input => .feed input
  | .mkdir _ | .execv _ _ | .pipe2 _ => .other

/-- What the record says about the file. -/
def Md.book (md : Md) : Book Str Byte :=
  some ⟨md.mdTempfilepath, md.tempfile,
    if 0 < md.mdTempfileFd then some md.mdTempfileFd else none⟩

def Slot.book : Slot → Book Str Byte
  | .spooling md => md.book
  | _ => none

/-- From one book to another by what is done in between. -/
def Books (book : Book Str Byte) (os : Os) (book' : Book Str Byte) (os' : Os) : Prop :=
  ∃ evs, os'.out = os.out ++ evs ∧ Book.run (evs.map Event.fileOp) book = some book'

section
variable {book book' book'' : Book Str Byte} {os os' os'' : Os} {e : Event}

theorem Books.refl (book : Book Str Byte) (os : Os) : Books book os book os :=
  ⟨[], (List.append_nil _).symm, rfl⟩

theorem Books.trans (h : Books book os book' os') (h' : Books book' os' book'' os'') :
    Books book os book'' os'' := by
  obtain ⟨evs, ho, hr⟩ := h
  obtain ⟨evs', ho', hr'⟩ := h'
  refine ⟨evs ++ evs', by rw [ho', ho, List.append_assoc], ?_⟩
  rw [List.map_append, Book.run_append, hr]
  exact hr'

theorem Books.log (h : Book.next book e.fileOp = some book') (os : Os) :
    Books book os book' (os.log e) := by
  refine ⟨[e], rfl, ?_⟩
  rw [List.map_singleton, Book.run, List.foldlM_cons, h]
  rfl

theorem Books.tick (book : Book Str Byte) (os : Os) : Books book os book os.tick :=
  ⟨[], (List.append_nil _).symm, rfl⟩

/-- An event that has nothing to do with files. -/
theorem Books.other (h : e.fileOp = .other) (book : Book Str Byte) (os : Os) :
    Books book os book (os.log e) :=
  .log (by rw [h]; cases book <;> rfl) os

theorem Books.repeated (h : e.fileOp = .other) (book : Book Str Byte) : ∀ (n : Nat) (os : Os),
    Books book os book (os.repeated e n)
  | 0, os => .refl book os
  | n + 1, os => (Books.other h book os).trans (repeated h book n _)

end

/-! ## The functions on the book -/

theorem mkdirs_books (book : Book Str Byte) : Mkdirs fun os os' => Books book os book os' where
  refl os := .refl book os
  trans h h' := h.trans h'
  tick os := .tick book os
  mkdir _ os := .other rfl book os

/-- The writers write to the open file. -/
theorem writes_books (env : Env) : Writes env fun x y =>
    y.1.mdTempfileFd = x.1.mdTempfileFd ∧ y.1.mdTempfilepath = x.1.mdTempfilepath ∧
      (0 < x.1.mdTempfileFd → Books x.1.book x.2 y.1.book y.2) where
  refl x := ⟨rfl, rfl, fun _ => .refl _ _⟩
  trans := by
    rintro x y z ⟨hfd, hpath, h⟩ ⟨hfd', hpath', h'⟩
    exact ⟨hfd'.trans hfd, hpath'.trans hpath, fun hpos => (h hpos).trans (h' (hfd ▸ hpos))⟩
  write md text os := by
    unfold Md.write
    cases env.write os.clock text.length with
    | none => exact ⟨rfl, rfl, fun _ => .tick _ os⟩
    | some n =>
      refine ⟨rfl, rfl, fun hpos => .log ?_ os⟩
      dsimp only at hpos
      simp only [Md.book, if_pos hpos, Event.fileOp, Book.next, if_true]
  flags md _ _ _ os := ⟨rfl, rfl, fun _ => .refl _ _⟩

section
variable {env : Env} {md md' : Md} {os os' : Os}

theorem Md.book_open (h : 0 < md.mdTempfileFd) :
    md.book = some ⟨md.mdTempfilepath, md.tempfile, some md.mdTempfileFd⟩ := by
  rw [Md.book, if_pos h]

theorem Md.book_closed (h : md.mdTempfileFd = 0) :
    md.book = some ⟨md.mdTempfilepath, md.tempfile, none⟩ := by
  rw [Md.book, h]
  rfl

theorem closeTempfile_books (env : Env) (os : Os) (hfd : 0 < md.mdTempfileFd) :
    (closeTempfile env md os).1.mdTempfileFd = 0 ∧
      Books md.book os (closeTempfile env md os).1.book (closeTempfile env md os).2 := by
  have hclose : ∀ (md : Md) os, 0 < md.mdTempfileFd → Books md.book os
      ({ md with mdTempfileFd := 0 } : Md).book (os.log (.close md.mdTempfileFd)) := by
    intro md os hfd
    refine .log ?_ os
    rw [Md.book_open hfd, Md.book_closed rfl]
    simp [Event.fileOp, Book.next]
  unfold closeTempfile
  simp only [if_pos hfd]
  cases hcr : md.mdCr with
  | false => exact ⟨trivial, hclose md os hfd⟩
  | true =>
    obtain ⟨hfd', -, hl⟩ := (writes_books env).write md [CR] os
    refine ⟨trivial, (hl hfd).trans ?_⟩
    exact hclose ((md.write env [CR] os).2.1.setCr false) _ (hfd'.symm ▸ hfd)

/-- A closed file is linked with its text. -/
theorem mdMakesavefile_books (env : Env) (hfd : md.mdTempfileFd = 0) (filename : Str) :
    ∀ (dirlist : List Str) (os : Os),
      Books md.book os md.book (mdMakesavefile env md (some md.tempfile) filename dirlist os)
  | [], os => .refl _ os
  | dir :: dirlist, os => by
    refine Books.trans (.log ?_ os) (mdMakesavefile_books env hfd filename dirlist _)
    rw [Md.book_closed hfd, Event.fileOp]
    cases env.link os.clock <;> simp [Book.next]

theorem unlink_books (hfd : md.mdTempfileFd = 0) (os : Os) :
    Books md.book os none (os.log (.unlink md.mdTempfilepath)) :=
  .log (by rw [Md.book_closed hfd]; simp [Event.fileOp, Book.next]) os

theorem abortTempfile_books (hfd : 0 ≤ md.mdTempfileFd) (os : Os) :
    Books md.book os none (abortTempfile md os) := by
  unfold abortTempfile
  by_cases hpos : 0 < md.mdTempfileFd
  · rw [if_pos hpos]
    have hclose : Books md.book os ({ md with mdTempfileFd := 0 } : Md).book
        (os.log (.close md.mdTempfileFd)) := by
      refine .log ?_ os
      rw [Md.book_open hpos, Md.book_closed rfl]
      simp [Event.fileOp, Book.next]
    exact hclose.trans (@unlink_books { md with mdTempfileFd := 0 } rfl _)
  · rw [if_neg hpos]
    exact unlink_books (by omega) os

theorem storeFile_books {filename : Str} {rc : Rc} (hfd : md.mdTempfileFd = 0)
    (h : storeFile env md (some md.tempfile) filename os = some (rc, md', os')) :
    md' = md ∧ Books md.book os (if rc = .success then none else md.book) os' := by
  unfold storeFile at h
  split at h
  · cases h
  · rename_i list _
    have hdirs := (mkdirs_books md.book).mdMakedirbylist env md list os
    split at h
    · rename_i os1 heq
      rw [heq] at hdirs
      cases h
      have hlinks := mdMakesavefile_books env hfd filename list os1
      exact ⟨rfl, hdirs.trans (hlinks.trans (unlink_books hfd _))⟩
    · rename_i rc1 os1 hne heq
      rw [heq] at hdirs
      cases h
      exact ⟨rfl, hdirs⟩
  · cases h
    exact ⟨rfl, .refl _ _⟩

end

/-! ## maildrop and lda -/

/-- `mkstemp` does not return 0: that descriptor is in use. -/
def Env.ZeroTaken (env : Env) : Prop := ∀ i, (env.mkstemp i).1 ≠ 0

/-- The module keeps its book: `*_open` makes an empty file, and `*_close` ends without one when it
succeeds. -/
structure Module.Books (m : Module) : Prop where
  open_ : ∀ {env : Env} {config : ModuleConfig} {view : View} {os os' : Os} {x : Option Md},
    env.ZeroTaken → m.open_ env config view os = some (x, os') →
    Messasy.Books none os (x.bind Md.book) os' ∧ ∀ md, x = some md → 0 < md.mdTempfileFd
  close : ∀ {env : Env} {cfg : Settings} {md md' : Md} {os os' : Os} {rc : Rc},
    0 < md.mdTempfileFd → m.close env cfg md os = some (rc, md', os') →
    md'.mdTempfileFd = 0 ∧ Messasy.Books md.book os (if rc = .success then none else md'.book) os'

section
variable {env : Env} {md md' : Md} {os os' : Os}

theorem mkstemp_books (hzero : env.ZeroTaken) (hempty : md.tempfile = []) {stem : Str}
    {x : Option Md} (h : mkstemp env md stem os = (x, os')) :
    Books none os (x.bind Md.book) os' ∧ ∀ md, x = some md → 0 < md.mdTempfileFd := by
  have hfd := hzero os.clock
  unfold mkstemp at h
  rcases hr : env.mkstemp os.clock with ⟨fd, chosen⟩
  rw [hr] at h hfd
  dsimp only at h hfd
  split at h
  · cases h
    exact ⟨.tick _ os, fun md h => (by cases h)⟩
  · cases h
    have hpos : 0 < fd := by omega
    refine ⟨.log ?_ os, fun md h => ?_⟩
    · simp [Event.fileOp, Book.next, hpos, Md.book, hempty]
    · cases h
      exact hpos

theorem mdStructInit_empty {folder : Option FolderConfig} {view : View}
    (h : mdStructInit folder view = some md) : md.tempfile = [] := by
  unfold mdStructInit at h
  split at h
  · cases h
    rfl
  · cases h

theorem folderOpen_books (hzero : env.ZeroTaken) {folder : FolderConfig} {view : View}
    {x : Option Md} (h : folderOpen folder env view os = some (x, os')) :
    Books none os (x.bind Md.book) os' ∧ ∀ md, x = some md → 0 < md.mdTempfileFd := by
  unfold folderOpen at h
  split at h
  · cases h
  · rename_i md hmd
    have hdirs := (mkdirs_books none).mdMakemaildir env folder.cfMaildir os
    obtain ⟨hb, hpos⟩ := mkstemp_books hzero (mdStructInit_empty hmd) (Option.some.inj h)
    exact ⟨hdirs.trans hb, hpos⟩

theorem maildrop_books : maildrop.Books where
  open_ := by
    intro env config view os os' x hzero h
    cases config with
    | maildrop folder => exact folderOpen_books hzero h
    | _ => cases h
  close := by
    intro env cfg md md' os os' rc hfd h
    obtain ⟨hclosed, hb⟩ := closeTempfile_books env os hfd
    replace h : maildropClose env cfg md os = some (rc, md', os') := h
    unfold maildropClose at h
    generalize closeTempfile env md os = x at h hclosed hb
    obtain ⟨md1, os1⟩ := x
    dsimp only at h hclosed hb
    split at h
    · obtain ⟨rfl, hs⟩ := storeFile_books hclosed h
      exact ⟨hclosed, hb.trans ((Books.tick _ os1).trans hs)⟩
    · cases h
      exact ⟨hclosed, hb.trans (.tick _ os1)⟩

theorem mkstempRetry_books (hzero : env.ZeroTaken) (hempty : md.tempfile = []) : ∀ (k : Nat)
    (os : Os) {x : Option Md}, mkstempRetry env md k os = (x, os') →
    Books none os (x.bind Md.book) os' ∧ ∀ md, x = some md → 0 < md.mdTempfileFd
  | 0, os, x, h => by
    cases h
    exact ⟨.refl _ _, fun md h => (by cases h)⟩
  | k + 1, os, x, h => by
    unfold mkstempRetry at h
    rcases hm : mkstemp env md (TMP_DIR ++ bytes "/") os with ⟨_ | md1, os1⟩
    · rw [hm] at h
      obtain ⟨hb, -⟩ := mkstemp_books hzero hempty hm
      obtain ⟨hb', hpos⟩ := mkstempRetry_books hzero hempty k os1 h
      exact ⟨hb.trans hb', hpos⟩
    · rw [hm] at h
      cases h
      exact mkstemp_books hzero hempty hm

/-- Each command is given the text of the closed file. -/
theorem deliverLoop_books (hfd : md.mdTempfileFd = 0) {cfLdacommand : Str} : ∀ (l : List Str)
    (os : Os) {rc : Rc}, deliverLoop env cfLdacommand md l os = some (rc, os') →
    Books md.book os md.book os'
  | [], os, rc, h => by
    cases h
    exact .refl _ _
  | address :: l, os, rc, h => by
    unfold deliverLoop at h
    split at h
    · rename_i execCommand failures _ _
      have hpipe : Books md.book os md.book
          ((os.repeated (.pipe2 false) failures).log (.pipe2 true)) :=
        (Books.repeated rfl md.book failures os).trans (.other rfl _ _)
      dsimp only at h
      split at h
      · have hsh : ∀ os, Books md.book os md.book (os.log (.sh execCommand md.tempfile)) :=
          .log (by rw [Md.book_closed hfd]; simp [Event.fileOp, Book.next])
        exact hpipe.trans ((hsh _).trans ((Books.tick _ _).trans (deliverLoop_books hfd l _ h)))
      · cases h
        exact hpipe.trans (.tick _ _)
    · cases h

theorem lda_books : lda.Books where
  open_ := by
    intro env config view os os' x hzero h
    cases config with
    | lda command =>
      obtain ⟨md, hmd, hx⟩ := Option.map_eq_some_iff.1 h
      exact mkstempRetry_books hzero (mdStructInit_empty hmd) RETRY_LIMIT os hx
    | _ => cases h
  close := by
    intro env cfg md md' os os' rc hfd h
    obtain ⟨hclosed, hb⟩ := closeTempfile_books env os hfd
    replace h : ldaClose env cfg md os = some (rc, md', os') := h
    unfold ldaClose at h
    generalize closeTempfile env md os = x at h hclosed hb
    obtain ⟨md1, os1⟩ := x
    dsimp only at h hclosed hb
    split at h
    · cases h
      exact ⟨hclosed, hb⟩
    · split at h
      · split at h
        · cases h
        · rename_i os2 hd
          cases h
          exact ⟨hclosed, hb.trans ((Books.tick _ os1).trans
            ((deliverLoop_books hclosed _ _ hd).trans (unlink_books hclosed _)))⟩
        · rename_i rc2 os2 hne hd
          cases h
          refine ⟨hclosed, ?_⟩
          rw [if_neg fun e => hne (by rw [e])]
          exact hb.trans ((Books.tick _ os1).trans (deliverLoop_books hclosed _ _ hd))
      · cases h
        exact ⟨hclosed, hb.trans (.tick _ os1)⟩
    · cases h

end

/-! ## The hooks -/

/-- There is no record, or one with an open file. -/
def Slot.Open : Slot → Prop
  | .spooling md => 0 < md.mdTempfileFd
  | _ => True

section
variable {m : Module} (hm : m.Books) {env : Env} (hzero : env.ZeroTaken) {view : View}
  {slot slot' : Slot} {os os' : Os} {r : Int}
include hm hzero

theorem Module.slotRecord_books (hopen : slot.Open) {x : Option Md}
    (h : m.slotRecord env view slot os = some (x, os')) :
    Messasy.Books slot.book os (x.bind Md.book) os' ∧ ∀ md, x = some md → 0 < md.mdTempfileFd := by
  cases slot with
  | absent =>
    obtain ⟨config, -, ho⟩ := Option.bind_eq_some_iff.1 h
    exact hm.open_ hzero ho
  | spooling md =>
    cases h
    refine ⟨.refl _ _, fun md' h => ?_⟩
    cases h
    exact hopen
  | dangling => cases h

theorem Module.slotWriting_books (hopen : slot.Open) {write : Md → Os → Rc × Md × Os}
    (hw : ∀ md os, (write md os).2.1.mdTempfileFd = md.mdTempfileFd ∧
      (write md os).2.1.mdTempfilepath = md.mdTempfilepath ∧
      (0 < md.mdTempfileFd → Messasy.Books md.book os (write md os).2.1.book (write md os).2.2))
    (h : m.slotWriting env view write slot os = some (r, slot', os')) :
    slot'.Open ∧ Messasy.Books slot.book os slot'.book os' := by
  obtain ⟨⟨x, os1⟩, hrec, hx⟩ := Option.map_eq_some_iff.1 h
  obtain ⟨hb, hpos⟩ := m.slotRecord_books hm hzero hopen hrec
  cases x with
  | none =>
    cases hx
    exact ⟨trivial, hb⟩
  | some md =>
    cases hx
    obtain ⟨hfd, -, hl⟩ := hw md os1
    refine ⟨?_, hb.trans (hl (hpos md rfl))⟩
    change 0 < (write md os1).2.1.mdTempfileFd
    rw [hfd]
    exact hpos md rfl

/-- **A hook keeps the book.** The file stays open, but at the end of the message. -/
theorem Module.slotCall_books {c : HookCall} (hc : c ≠ .abort) (hopen : slot.Open)
    (h : m.slotCall env view c slot os = some (r, slot', os')) :
    (c ≠ .eom ∨ r = 0 → slot'.Open) ∧ (∀ md, slot' = .spooling md → 0 ≤ md.mdTempfileFd) ∧
      Messasy.Books slot.book os slot'.book os' := by
  have hwriting : ∀ {write : Md → Os → Rc × Md × Os},
      (∀ md os, (write md os).2.1.mdTempfileFd = md.mdTempfileFd ∧
        (write md os).2.1.mdTempfilepath = md.mdTempfilepath ∧
        (0 < md.mdTempfileFd →
          Messasy.Books md.book os (write md os).2.1.book (write md os).2.2)) →
      m.slotWriting env view write slot os = some (r, slot', os') →
      (c ≠ .eom ∨ r = 0 → slot'.Open) ∧ (∀ md, slot' = .spooling md → 0 ≤ md.mdTempfileFd) ∧
        Messasy.Books slot.book os slot'.book os' := by
    intro write hw h
    obtain ⟨hopen', hb⟩ := m.slotWriting_books hm hzero hopen hw h
    refine ⟨fun _ => hopen', fun md hs => ?_, hb⟩
    subst hs
    exact Int.le_of_lt hopen'
  cases c with
  | header f v => exact hwriting (fun md os => (writes_books env).writeHeader md f v os) h
  | body b => exact hwriting (fun md os => (writes_books env).writeBody md b os) h
  | eom =>
    cases slot with
    | absent =>
      cases h
      exact ⟨fun _ => trivial, fun md hs => (by cases hs), .refl _ _⟩
    | spooling md =>
      obtain ⟨⟨rc, md1, os1⟩, hcl, hx⟩ := Option.map_eq_some_iff.1 h
      obtain ⟨hfd, hb⟩ := hm.close hopen hcl
      dsimp only at hx
      split at hx
      · rename_i hrc
        rw [if_pos hrc] at hb
        cases hx
        exact ⟨fun _ => trivial, fun md hs => (by cases hs), hb⟩
      · rename_i hrc
        rw [if_neg hrc] at hb
        cases hx
        refine ⟨fun h => absurd h (by simp), fun md hs => ?_, hb⟩
        cases hs
        exact Int.le_of_eq hfd.symm
    | dangling => cases h
  | abort => exact absurd rfl hc

omit hm hzero in
theorem Module.slotAbort_books (hfd : ∀ md, slot = .spooling md → 0 ≤ md.mdTempfileFd)
    (h : Module.slotAbort slot os = some (r, slot', os')) :
    slot' = .absent ∧ Messasy.Books slot.book os slot'.book os' := by
  cases slot with
  | absent =>
    cases h
    exact ⟨rfl, .refl _ _⟩
  | spooling md =>
    cases h
    exact ⟨rfl, abortTempfile_books (hfd md rfl) os⟩
  | dangling => cases h

end

end Messasy
