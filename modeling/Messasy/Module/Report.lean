import Messasy.Module.Archiver
import Messasy.Module.Header
import Messasy.Module.Tempfile

/-!
# What the maildrop module reports

`maildrop_close` tries a link into the folder of every address and only logs the ones that fail
(`maildropClose_tries`). A failed `write` makes its hook fail, except for the one of a CR that is
held back to the end: its result is compared as an unsigned number. `Recorded C p st out lost err`
are the hooks called for one message under the condition `C`, with whether a `write` has failed so
far and whether a hook has (`failed_write_reported`).
-/

namespace Messasy

open Lib

/-! ## The links at the end -/

/-- The `link` calls for some folders, with their answers. -/
def linkCalls (path filename : Str) (content : Option Str) (folders : List Str)
    (answers : List Bool) : List Event :=
  List.zipWith (fun folder ok => .link path (folder ++ filename) content ok) folders answers

section
variable {env : Env} {md md' : Md} {os os' : Os} {rc : Rc} {config : Settings}

theorem mdMakesavefile_tries (env : Env) (md : Md) (content : Option Str) (filename : Str) :
    ∀ (folders : List Str) (os : Os), ∃ answers, answers.length = folders.length ∧
      (mdMakesavefile env md content filename folders os).links =
        os.links ++ linkCalls md.mdTempfilepath filename content folders answers
  | [], os => ⟨[], rfl, (List.append_nil _).symm⟩
  | folder :: folders, os => by
    obtain ⟨answers, hlen, hlinks⟩ := mdMakesavefile_tries env md content filename folders
      (os.log (.link md.mdTempfilepath (folder ++ filename) content (env.link os.clock)))
    refine ⟨env.link os.clock :: answers, congrArg (· + 1) hlen, hlinks.trans ?_⟩
    have hlog : (os.log (.link md.mdTempfilepath (folder ++ filename) content
        (env.link os.clock))).links =
        os.links ++ [.link md.mdTempfilepath (folder ++ filename) content (env.link os.clock)] := by
      simp [Os.links, Os.log, List.filter_append, Event.isLink]
    rw [hlog, List.append_assoc]
    rfl

/-- The folder list has the folder of every address, and no other one. -/
theorem makedirlistLoop_mem (md : Md) (lt : Tm) : ∀ {l list folders : List Str},
    makedirlistLoop md lt l list = some folders →
    ∀ p, p ∈ folders ↔ p ∈ list ∨ ∃ a ∈ l, p = folderPath md lt a
  | [], list, folders, h, p => by
    cases h
    simp
  | a :: l, list, folders, h, p => by
    unfold makedirlistLoop at h
    split at h
    · cases h
    · rename_i mailaddr hcopy
      have hpath : folderPath md lt mailaddr = folderPath md lt a := by
        unfold copyMailaddr at hcopy
        split at hcopy
        · rename_i hfits
          cases hcopy
          exact folderPath_take hfits md lt
        · cases hcopy
      rw [makedirlistLoop_mem md lt h p, mem_uniqPush, hpath, or_assoc]
      simp only [List.mem_cons, exists_eq_or_imp]

theorem makedirlistLoop_nodup (md : Md) (lt : Tm) : ∀ {l list folders : List Str},
    list.Nodup → makedirlistLoop md lt l list = some folders → folders.Nodup
  | [], _, _, hnd, h => by
    cases h
    exact hnd
  | a :: l, list, folders, hnd, h => by
    unfold makedirlistLoop at h
    split at h
    · cases h
    · refine makedirlistLoop_nodup md lt ?_ h
      unfold uniqPush
      split
      · exact hnd
      · rename_i hnew
        refine List.nodup_append.2 ⟨hnd, by simp, fun q hq r hr he => ?_⟩
        obtain rfl := List.mem_singleton.1 hr
        exact hnew (he ▸ hq)

theorem mdMakedirlist_folders {folders : List Str}
    (h : mdMakedirlist env md = some (.success, folders)) :
    ∃ lt, env.localtime md.mdRecvtime = some lt ∧ folders.Nodup ∧
      ∀ p, p ∈ folders ↔ ∃ a ∈ md.mdSaveaddr, p = folderPath md lt a := by
  unfold mdMakedirlist at h
  cases hlt : env.localtime md.mdRecvtime with
  | none =>
    rw [hlt] at h
    cases h
  | some lt =>
    rw [hlt] at h
    obtain ⟨list, hlist, hx⟩ := Option.map_eq_some_iff.1 h
    cases hx
    refine ⟨lt, rfl, makedirlistLoop_nodup md lt List.nodup_nil hlist, fun p => ?_⟩
    rw [makedirlistLoop_mem md lt hlist p]
    simp

/-- What is in the file behind the flush, when the flush has not failed. -/
theorem closeTempfile_complete (hflush : md.mdCr = true → 0 < md.mdTempfileFd ∧
    env.write os.clock 1 ≠ none) :
    (closeTempfile env md os).1.tempfile = md.tempfile ++ held md.mdCr := by
  unfold closeTempfile
  cases hcr : md.mdCr with
  | false => split <;> simp [held]
  | true =>
    obtain ⟨hfd, hw⟩ := hflush hcr
    obtain ⟨n, hn⟩ := Option.ne_none_iff_exists'.1 hw
    have hone : max 1 (min n 1) = 1 := by omega
    have hwrite : (md.write env [CR] os).2.1.tempfile = md.tempfile ++ [CR].take 1 := by
      simp only [Md.write, List.length_singleton, hn, hone]
    rw [if_pos hfd]
    exact hwrite

/-- `link` has been called for the complete file into the folder of every address, once each. -/
structure Tried (md : Md) (lt : Tm) (os os' : Os) (folders : List Str) (answers : List Bool) :
    Prop where
  nodup : folders.Nodup
  mem : ∀ p, p ∈ folders ↔ ∃ a ∈ md.mdSaveaddr, p = folderPath md lt a
  answered : answers.length = folders.length
  links : ∃ filename, os'.links = os.links ++
    linkCalls md.mdTempfilepath filename (some (md.tempfile ++ held md.mdCr)) folders answers

theorem maildropClose_tried (hflush : md.mdCr = true → 0 < md.mdTempfileFd ∧
      env.write os.clock 1 ≠ none)
    (h : maildropClose env config md os = some (.success, md', os')) :
    ∃ (lt : Tm) (folders : List Str) (answers : List Bool) (os1 : Os),
      env.localtime md.mdRecvtime = some lt ∧ Tried md lt os os1 folders answers ∧
      os' = os1.log (.unlink md.mdTempfilepath) := by
  have htext := closeTempfile_complete hflush
  have hsetup := closeTempfile_setup env md os
  have hlinks := closeTempfile_links env md os
  unfold maildropClose at h
  generalize closeTempfile env md os = x at h htext hsetup hlinks
  obtain ⟨md1, os0⟩ := x
  dsimp only at h htext hsetup hlinks
  -- the flush leaves alone what the folders and the links are made of
  have hsame : ∀ {β : Type} (f : Md → β), f md1.setup = f md.setup := fun f => congrArg f hsetup
  have hpath : md1.mdTempfilepath = md.mdTempfilepath := hsame Md.mdTempfilepath
  have hsave : md1.mdSaveaddr = md.mdSaveaddr := hsame Md.mdSaveaddr
  have htime : md1.mdRecvtime = md.mdRecvtime := hsame Md.mdRecvtime
  have hfolder : ∀ lt a, folderPath md1 lt a = folderPath md lt a := fun lt a =>
    hsame (folderPath · lt a)
  split at h
  · unfold storeFile at h
    split at h
    · cases h
    · rename_i folders hfolders
      obtain ⟨lt, hlt, hnodup, hmem⟩ := mdMakedirlist_folders hfolders
      simp only [hsave, hfolder] at hmem
      have hdirs := mkdirs_links.mdMakedirbylist env md1 folders os0.tick
      split at h
      · rename_i os2 heq
        rw [heq] at hdirs
        generalize saveFilename md1 _ config.cfMsyhostname [] = filename at h
        obtain ⟨answers, hlen, htries⟩ :=
          mdMakesavefile_tries env md1 (some md1.tempfile) filename folders os2
        rw [hdirs, os0.links_tick, hlinks, hpath, htext] at htries
        rw [hpath, htext] at h
        cases h
        exact ⟨lt, folders, answers, _, htime ▸ hlt, ⟨hnodup, hmem, hlen, filename, htries⟩, rfl⟩
      · cases h
    · cases h
  · cases h

/-- The archive files that `link` calls make have the content, and there is one when a call has
succeeded. -/
theorem archived_linkCalls (path filename text : Str) :
    ∀ {folders : List Str} {answers : List Bool}, answers.length = folders.length →
      (∀ q ∈ archived (linkCalls path filename (some text) folders answers), q.2 = text) ∧
      (archived (linkCalls path filename (some text) folders answers) ≠ [] ↔ true ∈ answers)
  | [], [], _ => by simp [linkCalls, archived]
  | [], _ :: _, h => by cases h
  | _ :: _, [], h => by cases h
  | folder :: folders, ok :: answers, h => by
    obtain ⟨hmem, hiff⟩ := archived_linkCalls path filename text (Nat.succ.inj h)
    unfold linkCalls at hmem hiff ⊢
    cases ok with
    | false => exact ⟨hmem, by simpa [archived] using hiff⟩
    | true =>
      simp only [List.zipWith_cons_cons, archived, List.mem_cons, true_or, iff_true]
      refine ⟨fun q hq => ?_, List.cons_ne_nil _ _⟩
      rcases hq with rfl | hq
      · rfl
      · exact hmem q hq

/-- **The close.** When `maildrop_close` reports success, it has called `link` for the complete file
into the folder of every address before it unlinked the temporary name; the file is in the archive
exactly when one of the calls has succeeded. -/
theorem maildropClose_stored_iff (hne : md.mdSaveaddr ≠ [])
    (hflush : md.mdCr = true → 0 < md.mdTempfileFd ∧ env.write os.clock 1 ≠ none)
    (h : maildropClose env config md os = some (.success, md', os')) :
    ∃ (lt : Tm) (folders : List Str) (answers : List Bool) (os1 : Os) (made : List (Str × Str)),
      env.localtime md.mdRecvtime = some lt ∧ Tried md lt os os1 folders answers ∧ answers ≠ [] ∧
      os' = os1.log (.unlink md.mdTempfilepath) ∧ os1.archived = os.archived ++ made ∧
      (∀ q ∈ made, q.2 = md.tempfile ++ held md.mdCr) ∧ (made ≠ [] ↔ true ∈ answers) := by
  obtain ⟨lt, folders, answers, os1, hlt, htried, hos⟩ := maildropClose_tried hflush h
  obtain ⟨filename, hlinks⟩ := htried.links
  obtain ⟨hcontent, hiff⟩ := archived_linkCalls md.mdTempfilepath filename
    (md.tempfile ++ held md.mdCr) htried.answered
  refine ⟨lt, folders, answers, os1, _, hlt, htried, ?_, hos, ?_, hcontent, hiff⟩
  · obtain ⟨a, ha⟩ := List.exists_mem_of_ne_nil _ hne
    have hfolder := (htried.mem _).2 ⟨a, ha, rfl⟩
    rw [← List.length_pos_iff, htried.answered]
    exact List.length_pos_of_mem hfolder
  · rw [os1.archived_eq, hlinks, archived_append, ← os.archived_eq]

end

theorem maildropClose_stored_fine : ∃ md' os',
    maildropClose .fine exampleConfig headerMd .start = some (.success, md', os') ∧
    ∃ (lt : Tm) (folders : List Str) (answers : List Bool) (os1 : Os) (made : List (Str × Str)),
      Env.fine.localtime headerMd.mdRecvtime = some lt ∧
      Tried headerMd lt .start os1 folders answers ∧ answers ≠ [] ∧
      os' = os1.log (.unlink headerMd.mdTempfilepath) ∧
      os1.archived = Os.start.archived ++ made ∧
      (∀ q ∈ made, q.2 = headerMd.tempfile ++ held headerMd.mdCr) ∧
      (made ≠ [] ↔ true ∈ answers) :=
  ⟨_, _, rfl, maildropClose_stored_iff (by decide) (fun h => by cases h) rfl⟩

/-- The one link fails, and the temporary name is unlinked all the same. -/
theorem maildropClose_loses : ∃ md' os',
    maildropClose { Env.fine with link := fun _ => false } exampleConfig headerMd .start =
      some (.success, md', os') ∧ headerMd.mdSaveaddr ≠ [] ∧ os'.linked = [] ∧
    .unlink headerMd.mdTempfilepath ∈ os'.out :=
  ⟨_, _, rfl, by decide, rfl, by decide⟩

/-! ## Failed writes -/

/-- The calls that have left no event. A writer makes no calls but `write`, so those are the ones
that have failed. -/
def Os.silent (os : Os) : Int := os.clock - os.out.length

@[simp] theorem Os.silent_log (os : Os) (e : Event) : (os.log e).silent = os.silent := by
  have hlen : (os.out ++ [e]).length = os.out.length + 1 := by
    rw [List.length_append, List.length_singleton]
  unfold Os.silent Os.log
  dsimp only
  rw [hlen]
  omega

@[simp] theorem Os.silent_tick (os : Os) : os.tick.silent = os.silent + 1 := by
  unfold Os.silent Os.tick
  dsimp only
  omega

/-- A writer's result says whether one of its writes has failed. -/
structure Reported (os : Os) (r : Rc × Md × Os) : Prop where
  silent_le : os.silent ≤ r.2.2.silent
  success_iff : r.1 = .success ↔ r.2.2.silent = os.silent

section
variable {env : Env} {md : Md} {os os' : Os}

theorem Reported.done (md : Md) (os : Os) : Reported os (.success, md, os) :=
  ⟨Int.le_refl _, iff_of_true rfl rfl⟩

/-- Nothing is done between the two. -/
theorem Reported.congr {r : Rc × Md × Os} (h : Reported os' r) (he : os'.silent = os.silent) :
    Reported os r := by
  obtain ⟨hle, hiff⟩ := h
  rw [he] at hle hiff
  exact ⟨hle, hiff⟩

theorem Reported.onSuccess {r : Rc × Md × Os} {next : Md → Os → Rc × Md × Os}
    (h : Reported os r) (hnext : ∀ md os, Reported os (next md os)) :
    Reported os (onSuccess r next) := by
  obtain ⟨rc, md1, os1⟩ := r
  by_cases hrc : rc = .success
  · subst hrc
    exact (hnext md1 os1).congr (h.success_iff.1 rfl)
  · have hsame : Messasy.onSuccess (rc, md1, os1) next = (rc, md1, os1) := by
      cases rc with
      | success => exact absurd rfl hrc
      | _ => rfl
    rw [hsame]
    exact h

/-- One `write`, whose failure is the result. -/
theorem Reported.write (env : Env) (md : Md) (text : Str) (os : Os)
    {next : Nat → Md → Os → Rc × Md × Os} (hnext : ∀ n md os, Reported os (next n md os)) :
    Reported os (match md.write env text os with
      | (none, md, os) => (.error, md, os)
      | (some n, md, os) => next n md os) := by
  unfold Md.write
  cases env.write os.clock text.length with
  | none =>
    refine ⟨?_, ?_⟩
    · show os.silent ≤ os.tick.silent
      rw [Os.silent_tick]
      omega
    · show Rc.error = .success ↔ os.tick.silent = os.silent
      rw [Os.silent_tick]
      exact iff_of_false (by decide) (by omega)
  | some n => exact (hnext _ _ _).congr (Os.silent_log os _)

theorem writeHeaderLoop_reported : ∀ (k : Nat) (p : Str) (writtenLen : Nat) (md : Md) (os : Os),
    Reported os (writeHeaderLoop env k p writtenLen md os)
  | 0, _, _, md, os => .done md os
  | k + 1, p, writtenLen, md, os => by
    unfold writeHeaderLoop
    split
    · exact .write env md p os fun n md os => writeHeaderLoop_reported k (p.drop n) n md os
    · exact .done md os

theorem writeHeader_reported (md : Md) (headerf : Str) (headerv : Option Str) (os : Os) :
    Reported os (writeHeader env md headerf headerv os) := by
  have hline : ∀ md f v os, Reported os (writeHeaderLine env md f v os) := fun md f v os =>
    writeHeaderLoop_reported _ _ 0 md os
  unfold writeHeader
  split
  · exact hline md headerf headerv os
  · refine (hline _ _ _ os).onSuccess fun md os => ?_
    refine (hline md _ _ os).onSuccess fun md os => ?_
    exact hline md headerf headerv os

theorem writeBodyByte_reported (md : Md) (c : Byte) (os : Os) :
    Reported os (writeBodyByte env md c os) := by
  unfold writeBodyByte
  refine Reported.onSuccess ?_ fun md os => ?_
  · split
    · split
      · exact .done _ os
      · exact .write env md [CR] os fun _ md os => .done (md.setCr false) os
    · exact .done md os
  · split
    · exact .done _ os
    · exact .write env md [c] os fun _ md os => .done md os

theorem writeBody_reported (md : Md) (bodyp : Str) (os : Os) :
    Reported os (writeBody env md bodyp os) := by
  have hloop : ∀ (bodyp : Str) (md : Md) (os : Os), Reported os (writeBodyLoop env bodyp md os) := by
    intro bodyp
    induction bodyp with
    | nil => exact fun md os => .done md os
    | cons c bodyp ih => exact fun md os => (writeBodyByte_reported md c os).onSuccess ih
  unfold writeBody
  split
  · exact hloop bodyp md os
  · exact (hloop [LF] _ os).onSuccess (hloop bodyp)

end

/-- The `write` of the CR held back at the end of the message fails. -/
def FlushFails (env : Env) (st : HookSt) : Prop :=
  ∃ md, findPriv maildrop.mymodule st.mlfiExtrapriv = some (.block md) ∧
    0 < md.mdTempfileFd ∧ md.mdCr = true ∧ env.write st.os.clock 1 = none

/-- One of the calls of `write` that the hook makes fails. -/
def HookCall.WriteFails (env : Env) (view : View) (st : HookSt) : HookCall → Prop
  | .header f v => ∃ md st1, maildrop.record env view st = some (some md, st1) ∧
      st1.os.silent < (writeHeader env md f v st1.os).2.2.silent
  | .body b => ∃ md st1, maildrop.record env view st = some (some md, st1) ∧
      st1.os.silent < (writeBody env md b st1.os).2.2.silent
  | .eom => FlushFails env st
  | .abort => False

/-- The hooks called for one message, each under the condition `C`, what they have done, whether a
`write` has failed, and whether a hook has returned an error. -/
inductive Recorded (C : Env → HookCall → HookSt → Prop) :
    Progress → HookSt → List Event → Prop → Prop → Prop
  | start {list : List Extrapriv} {os : Os} : entriesOf maildrop.mymodule list = [] →
      Recorded C .running ⟨list, os⟩ [] False False
  | call {p : Progress} {st st' : HookSt} {out evs : List Event} {lost err : Prop} {env : Env}
      {view : View} {c : HookCall} {r : Int} : Recorded C p st out lost err → p ≠ .ended →
      (p = .failed → c = .abort) → C env c st → c.hook env view st = some (r, st') →
      st'.os.out = st.os.out ++ evs →
      Recorded C (c.progress r) st' (out ++ evs) (lost ∨ c.WriteFails env view st) (err ∨ r ≠ 0)
  | other {p : Progress} {st : HookSt} {out : List Event} {lost err : Prop}
      {list : List Extrapriv} {os : Os} : Recorded C p st out lost err →
      entriesOf maildrop.mymodule list = entriesOf maildrop.mymodule st.mlfiExtrapriv →
      Recorded C p ⟨list, os⟩ out lost err

/-- No link has been tried. -/
def Unlinked (out : List Event) : Prop := ∀ e ∈ out, e.isLink = false

section
variable {env : Env} {view : View} {st st' : HookSt} {r : Int} {evs : List Event}

theorem unlinked_of_links {os os' : Os} (hout : os'.out = os.out ++ evs)
    (h : os'.links = os.links) : Unlinked evs := by
  unfold Os.links at h
  rw [hout, List.filter_append, List.append_right_eq_self] at h
  exact fun e he => by simpa using List.filter_eq_nil_iff.1 h e he

theorem writing_reported {write : Md → Os → Rc × Md × Os}
    (hw : ∀ md os, Reported os (write md os))
    (h : maildrop.writing write env view st = some (r, st'))
    (hfails : ∃ md st1, maildrop.record env view st = some (some md, st1) ∧
      st1.os.silent < (write md st1.os).2.2.silent) : r ≠ 0 := by
  obtain ⟨md, st1, hrec, hlt⟩ := hfails
  have herror : (write md st1.os).1 ≠ .success := fun hrc => by
    have := (hw md st1.os).success_iff.1 hrc
    omega
  unfold Module.writing at h
  simp only [hrec, if_neg herror] at h
  cases h
  decide

/-- **Step.** A hook whose `write` fails returns an error, except for the one of a CR that is held
back to the end. -/
theorem HookCall.WriteFails.error {c : HookCall} (h : c.hook env view st = some (r, st'))
    (hfails : c.WriteFails env view st) (hflush : c = .eom → ¬ FlushFails env st) : r ≠ 0 := by
  cases c with
  | header f v => exact writing_reported (fun md os => writeHeader_reported md f v os) h hfails
  | body b => exact writing_reported (fun md os => writeBody_reported md b os) h hfails
  | eom => exact absurd hfails (hflush rfl)
  | abort => exact hfails.elim

/-- **Step.** A hook makes no link, unless it ends the message with success. -/
theorem HookCall.unlinked {c : HookCall} (h : c.hook env view st = some (r, st'))
    (hout : st'.os.out = st.os.out ++ evs) (hend : c = .eom → r ≠ 0) : Unlinked evs := by
  refine unlinked_of_links hout ?_
  by_cases hc : c = .eom
  · have hr := hend hc
    subst hc
    simp only [HookCall.hook, maildropExecEom, Module.execEom] at h
    split at h
    · cases h
      rfl
    · split at h
      · cases h
      · cases h
        exact absurd rfl hr
      · rename_i rc _ _ hne hcl
        cases h
        have hends := (maildropClose_ends hcl).links
        rcases hends with hl | ⟨hrc, -⟩
        · exact hl
        · subst hrc
          exact absurd rfl hne
    · cases h
  · have hcall : maildrop.call c env view st = some (r, st') := by
      rw [← h]
      cases c <;> rfl
    exact maildrop.call_links maildrop_opensQuietly hc env view st r st' hcall

end

/-- While no flush fails: a message whose hooks have all succeeded has lost nothing, and one that has
lost a `write` has had an error, and no link. -/
structure Truthful (p : Progress) (out : List Event) (lost err : Prop) : Prop where
  running : p = .running → ¬ lost
  unlinked : p ≠ .ended → Unlinked out
  failed : p = .failed → err
  reported : lost → err ∧ Unlinked out

theorem HookCall.of_progress_running {c : HookCall} {r : Int} (h : c.progress r = .running) :
    r = 0 ∧ c ≠ .abort := by
  by_cases hr : r = 0 <;> cases c <;> simp [HookCall.progress, hr] at h ⊢

theorem HookCall.of_progress_failed {c : HookCall} {r : Int} (h : c.progress r = .failed) :
    r ≠ 0 := by
  rintro rfl
  cases c <;> simp [HookCall.progress] at h

/-- **Run.** -/
theorem Recorded.truthful {p : Progress} {st : HookSt} {out : List Event} {lost err : Prop}
    (h : Recorded (fun env c st => c = .eom → ¬ FlushFails env st) p st out lost err) :
    Truthful p out lost err := by
  induction h with
  | start _ =>
    exact ⟨fun _ h => h, fun _ e he => absurd he List.not_mem_nil,
      fun h => absurd h Progress.noConfusion, fun h => h.elim⟩
  | other _ _ ih => exact ih
  | @call p st st' out evs lost err env view c r _ hp hfailed hflush hc hout ih =>
    have happend : ∀ {evs}, Unlinked out → Unlinked evs → Unlinked (out ++ evs) := by
      intro evs ha hb e he
      rcases List.mem_append.1 he with he | he
      · exact ha e he
      · exact hb e he
    have hbefore := ih.unlinked hp
    have herror : c.WriteFails env view st → r ≠ 0 := fun hf => hf.error hc hflush
    have hevs : (c = .eom → r ≠ 0) → Unlinked (out ++ evs) := fun hend =>
      happend hbefore (HookCall.unlinked hc hout hend)
    -- behind a failed hook only the abort hook is called
    have hlost : lost → c = .abort := by
      intro hl
      cases p with
      | running => exact absurd hl (ih.running rfl)
      | failed => exact hfailed rfl
      | ended => exact absurd rfl hp
    refine ⟨fun hrun => ?_, fun hend => ?_, fun hfail => ?_, fun hl => ?_⟩
    · obtain ⟨hr, hc⟩ := HookCall.of_progress_running hrun
      exact fun hl => hl.elim (fun hl => hc (hlost hl)) fun hf => herror hf hr
    · refine hevs fun hceom hr => hend ?_
      subst hceom
      exact if_pos hr
    · exact .inr (HookCall.of_progress_failed hfail)
    · rcases hl with hl | hf
      · have habort := hlost hl
        exact ⟨.inl (ih.reported hl).1, hevs fun h => by rw [habort] at h; cases h⟩
      · exact ⟨.inr (herror hf), hevs fun _ => herror hf⟩

/-- **A failed write is reported**, in every run in which no flush fails: a hook of the message has
returned an error, and the file has not been linked. -/
theorem failed_write_reported {p : Progress} {st : HookSt} {out : List Event} {lost err : Prop}
    (h : Recorded (fun env c st => c = .eom → ¬ FlushFails env st) p st out lost err)
    (hlost : lost) : err ∧ Unlinked out :=
  h.truthful.reported hlost

/-- A system whose `write` fails. -/
def Env.unwritable : Env := { Env.fine with write := fun _ _ => none }

/-- The first header cannot be written, and the core aborts. -/
theorem failed_write_reported_header : ∃ (st : HookSt) (out : List Event) (lost err : Prop),
    Recorded (fun env c st => c = .eom → ¬ FlushFails env st) .ended st out lost err ∧ lost ∧
      err ∧ Unlinked out := by
  have h0 : Recorded (fun env c st => c = .eom → ¬ FlushFails env st) .running ⟨[], .start⟩ []
      False False := .start rfl
  have h1 := h0.call (by simp) (by simp) (fun h => HookCall.noConfusion h)
    (rfl : HookCall.hook (.header (bytes "a") (some (bytes "b"))) .unwritable exampleView _ =
      some (-1, _)) rfl
  have h2 := h1.call (by decide) (by decide) (fun h => HookCall.noConfusion h)
    (rfl : HookCall.hook .abort .fine exampleView _ = some (0, _)) rfl
  have hlost : HookCall.WriteFails .unwritable exampleView ⟨[], .start⟩
      (.header (bytes "a") (some (bytes "b"))) := ⟨_, _, rfl, by decide⟩
  exact ⟨_, _, _, _, h2, .inl (.inr hlost), failed_write_reported h2 (.inl (.inr hlost))⟩

/-- A CR at the end of the body, whose `write` at the end of the message fails: every hook succeeds,
and the file is linked without it. -/
theorem failed_flush_unreported : ∃ (st : HookSt) (out : List Event) (lost err : Prop),
    Recorded (fun _ _ _ => True) .ended st out lost err ∧ lost ∧ ¬ err ∧ ¬ Unlinked out := by
  have h0 : Recorded (fun _ _ _ => True) .running ⟨[], .start⟩ [] False False := .start rfl
  have h1 := h0.call (by simp) (by simp) trivial
    (rfl : HookCall.hook (.header (bytes "a") (some (bytes "b"))) .fine exampleView _ =
      some (0, _)) rfl
  have h2 := h1.call (by decide) (by decide) trivial
    (rfl : HookCall.hook (.body [CR]) .fine exampleView _ = some (0, _)) rfl
  have h3 := h2.call (by decide) (by decide) trivial
    (rfl : HookCall.hook .eom .unwritable exampleView _ = some (0, _)) rfl
  refine ⟨_, _, _, _, h3, .inr ⟨_, rfl, by decide, rfl, rfl⟩, by simp, fun h => ?_⟩
  exact absurd h (by unfold Unlinked; decide)

end Messasy
