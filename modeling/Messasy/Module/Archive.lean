import Messasy.Module.Slot
import Messasy.Module.Zip
import Messasy.Module.Lda
import Messasy.Module.Maildrop

/-!
# What the hooks archive

Only a `*_close` makes links, and only those of `maildrop_close` link the text that the module has
written. Every other hook keeps `Os.links` (`slotCall_links`), so the other three modules may be
loaded beside maildrop (`sibling_keeps`).
-/

namespace Messasy

open Lib

/-! ## The functions that make no link -/

theorem mkdirs_links : Mkdirs fun os os' => os'.links = os.links where
  refl _ := rfl
  trans h h' := h'.trans h
  tick _ := rfl
  mkdir _ os := os.links_log rfl

section
variable (env : Env)

theorem writes_links : Writes env fun x y => y.2.links = x.2.links where
  refl _ := rfl
  trans h h' := h'.trans h
  write md text os := by
    unfold Md.write
    cases env.write os.clock text.length with
    | none => rfl
    | some n => exact os.links_log rfl
  flags _ _ _ _ _ := rfl

theorem mkstemp_links (md : Md) (stem : Str) (os : Os) :
    (mkstemp env md stem os).2.links = os.links := by
  unfold mkstemp
  dsimp only
  split
  · rfl
  · exact os.links_log rfl

theorem folderOpen_links {folder : FolderConfig} {view : View} {os os' : Os} {x : Option Md}
    (h : folderOpen folder env view os = some (x, os')) : os'.links = os.links := by
  unfold folderOpen at h
  split at h
  · cases h
  · rename_i md hmd
    have hmk := mkstemp_links env md (folder.cfMaildir ++ bytes "/tmp/" ++ padded md.mdRecvtime ++
      bytes "." ++ view.config.cfMsyhostname ++ bytes ".") (mdMakemaildir env folder.cfMaildir os)
    simp only [Option.some.injEq] at h
    rw [h] at hmk
    exact hmk.trans (mkdirs_links.mdMakemaildir env _ os)

theorem closeTempfile_links (md : Md) (os : Os) :
    (closeTempfile env md os).2.links = os.links := by
  unfold closeTempfile
  by_cases hfd : 0 < md.mdTempfileFd
  · simp only [if_pos hfd]
    cases hcr : md.mdCr with
    | false => exact os.links_log rfl
    | true => exact (Os.links_log _ rfl).trans ((writes_links env).write md [CR] os)
  · simp only [if_neg hfd]

theorem abortTempfile_links (md : Md) (os : Os) : (abortTempfile md os).links = os.links := by
  unfold abortTempfile
  dsimp only
  split
  · exact (Os.links_log _ rfl).trans (os.links_log rfl)
  · exact os.links_log rfl

theorem awaitCommand_links (md : Md) (tempstr : Str) (os : Os) :
    (awaitCommand env md tempstr os).2.links = os.links := by
  unfold awaitCommand
  split
  · dsimp only
    split
    · rfl
    · split
      · exact Os.links_log _ rfl
      · rfl
  · exact Os.links_log _ rfl

theorem deliverLoop_links (command : Str) (md : Md) : ∀ (l : List Str) {os os' : Os} {rc : Rc},
    deliverLoop env command md l os = some (rc, os') → os'.links = os.links
  | [], os, os', rc, h => by cases h; rfl
  | address :: l, os, os', rc, h => by
    unfold deliverLoop at h
    split at h
    · rename_i failures _ _
      have hpipes : ((os.repeated (.pipe2 false) failures).log (.pipe2 true)).links = os.links :=
        (Os.links_log _ rfl).trans (Os.links_repeated rfl failures os)
      dsimp only at h
      split at h
      · have ih := deliverLoop_links command md l h
        rw [Os.links_tick, Os.links_log _ rfl] at ih
        exact ih.trans hpipes
      · cases h
        exact hpipes
    · cases h

/-! ## The archive files -/

/-- The archive files that `md_makesavefile` makes have the content. -/
theorem mdMakesavefile_made (md : Md) (content : Option Str) (filename : Str) :
    ∀ (dirlist : List Str) (os : Os), ∃ made,
      (mdMakesavefile env md content filename dirlist os).archived = os.archived ++ made ∧
      ∀ p ∈ made, content = some p.2
  | [], os => ⟨[], by simp [mdMakesavefile], by simp⟩
  | dir :: dirlist, os => by
    obtain ⟨made, he, hmade⟩ := mdMakesavefile_made md content filename dirlist
      (os.log (.link md.mdTempfilepath (dir ++ filename) content (env.link os.clock)))
    rw [Os.archived_log, List.append_assoc] at he
    refine ⟨_, he, fun p hp => ?_⟩
    rcases List.mem_append.1 hp with hp | hp
    · cases content <;> cases hl : env.link os.clock <;> simp [archived, hl] at hp
      rw [hp]
    · exact hmade p hp

/-- When every link is made, there is one archive file in each folder. -/
theorem mdMakesavefile_linked {env : Env} (hlink : ∀ i, env.link i = true) (md : Md) (text : Str)
    (filename : Str) : ∀ (dirlist : List Str) (os : Os),
      (mdMakesavefile env md (some text) filename dirlist os).archived =
        os.archived ++ dirlist.map fun dir => (dir ++ filename, text)
  | [], os => by simp [mdMakesavefile]
  | dir :: dirlist, os => by
    have ih := mdMakesavefile_linked hlink md text filename dirlist
      (os.log (.link md.mdTempfilepath (dir ++ filename) (some text) (env.link os.clock)))
    unfold mdMakesavefile at ih ⊢
    rw [List.foldl_cons, ih, Os.archived_log, hlink]
    simp [archived]

theorem storeFile_made {md md' : Md} {content : Option Str} {filename : Str} {os os' : Os} {rc : Rc}
    (h : storeFile env md content filename os = some (rc, md', os')) :
    ∃ made, os'.archived = os.archived ++ made ∧ ∀ p ∈ made, content = some p.2 := by
  unfold storeFile at h
  split at h
  · cases h
  · rename_i list _
    have hdirs := Os.archived_congr (mkdirs_links.mdMakedirbylist env md list os)
    split at h
    · rename_i os1 heq
      rw [heq] at hdirs
      cases h
      obtain ⟨made, he, hmade⟩ := mdMakesavefile_made env md content filename list os1
      exact ⟨made, by rw [Os.archived_log, he, hdirs]; simp [archived], hmade⟩
    · rename_i os1 _ heq
      rw [heq] at hdirs
      cases h
      exact ⟨[], by simpa using hdirs, by simp⟩
  · cases h
    exact ⟨[], by simp, by simp⟩

end

/-! ## The modules -/

/-- The module makes no link when it opens its temporary file. -/
def Module.OpensQuietly (m : Module) : Prop := ∀ env config view os x os',
  m.open_ env config view os = some (x, os') → os'.links = os.links

/-- The module's `*_close` makes no archive file. -/
def Module.ClosesQuietly (m : Module) : Prop := ∀ env config md os rc md' os',
  m.close env config md os = some (rc, md', os') → os'.archived = os.archived

section
variable {m : Module} (hopen : m.OpensQuietly)
include hopen

theorem Module.writing_links {write : Md → Os → Rc × Md × Os}
    (hw : ∀ md os, (write md os).2.2.links = os.links) {env : Env} {view : View}
    {st st' : HookSt} {r : Int} (h : m.writing write env view st = some (r, st')) :
    st'.os.links = st.os.links := by
  have hrec : ∀ x st1, m.record env view st = some (x, st1) → st1.os.links = st.os.links := by
    intro x st1 h1
    unfold Module.record at h1
    dsimp only at h1
    split at h1
    · split at h1
      · cases h1
      · split at h1
        · cases h1
        · rename_i ho
          cases h1
          exact hopen _ _ _ _ _ _ ho
        · rename_i ho
          cases h1
          exact hopen _ _ _ _ _ _ ho
    · cases h1; rfl
    · cases h1
  unfold Module.writing at h
  split at h
  · cases h
  · rename_i heq
    cases h
    exact hrec _ _ heq
  · rename_i md st1 heq
    cases h
    exact (hw md st1.os).trans (hrec _ _ heq)

/-- A hook makes no link, unless it is the one at the end of the message. -/
theorem Module.call_links {c : HookCall} (hc : c ≠ .eom) :
    Keeps (fun st => st.os.links) (m.call c) := by
  intro env view st r st' h
  cases c with
  | header f v =>
    simp only [Module.call, Module.execHeader] at h
    exact m.writing_links hopen (fun md os => (writes_links env).writeHeader md f v os) h
  | body b =>
    simp only [Module.call, Module.execBody] at h
    exact m.writing_links hopen (fun md os => (writes_links env).writeBody md b os) h
  | eom => exact absurd rfl hc
  | abort =>
    simp only [Module.call, Module.execAbort] at h
    split at h
    · cases h; rfl
    · cases h; exact abortTempfile_links _ _
    · cases h

/-- The same on the slot. -/
theorem Module.slotCall_links {env : Env} {view : View} {os os' : Os} {r : Int}
    {slot slot' : Slot} {c : HookCall} (hc : c ≠ .eom)
    (h : m.slotCall env view c slot os = some (r, slot', os')) : os'.links = os.links := by
  have hown : Own m.mymodule slot (place m.mymodule slot []) := (Own.nil _).place slot
  have hcall : m.call c env view ⟨_, os⟩ = _ := Module.call_eq env view hown c
  rw [h] at hcall
  exact m.call_links hopen hc env view _ r _ hcall

/-- A module that is quiet to its end may be loaded beside another one. -/
theorem Module.call_keeps_archived (hclose : m.ClosesQuietly) {n : Str} (hn : n ≠ m.mymodule)
    (c : HookCall) :
    Keeps (fun st => (entriesOf n st.mlfiExtrapriv, st.os.archived)) (m.call c) := by
  intro env view st r st' h
  refine Prod.ext (m.call_keeps hn c env view st r st' h) ?_
  by_cases hc : c = .eom
  · subst hc
    simp only [Module.call, Module.execEom] at h
    split at h
    · cases h; rfl
    · split at h
      · cases h
      · rename_i hcl
        cases h
        exact hclose _ _ _ _ _ _ _ hcl
      · rename_i _ hcl
        cases h
        exact hclose _ _ _ _ _ _ _ hcl
    · cases h
  · exact Os.archived_congr (m.call_links hopen hc env view st r st' h)

end

theorem maildrop_opensQuietly : maildrop.OpensQuietly := by
  intro env config view os x os' h
  cases config with
  | maildrop folder => exact folderOpen_links env h
  | _ => cases h

theorem gzip_opensQuietly : gzip.OpensQuietly := by
  intro env config view os x os' h
  cases config with
  | gzip command folder => exact folderOpen_links env h
  | _ => cases h

theorem enczip_opensQuietly : enczip.OpensQuietly := by
  intro env config view os x os' h
  cases config with
  | enczip command password folder => exact folderOpen_links env h
  | _ => cases h

theorem lda_opensQuietly : lda.OpensQuietly := by
  have hretry : ∀ (env : Env) (md : Md) (k : Nat) (os : Os),
      (mkstempRetry env md k os).2.links = os.links := by
    intro env md k
    induction k with
    | zero => intro os; rfl
    | succ k ih =>
      intro os
      have hmk := mkstemp_links env md (TMP_DIR ++ bytes "/") os
      unfold mkstempRetry
      rcases hr : mkstemp env md (TMP_DIR ++ bytes "/") os with ⟨_ | md1, os1⟩ <;> rw [hr] at hmk
      · exact (ih os1).trans hmk
      · exact hmk
  intro env config view os x os' h
  cases config with
  | lda command =>
    obtain ⟨md, -, hx⟩ := Option.map_eq_some_iff.1 h
    have hr := hretry env md RETRY_LIMIT os
    rw [hx] at hr
    exact hr
  | _ => cases h

/-! ## The ends -/

/-- A `*_close` of the three modules fails without a link, or it ends in the folders, with the
record of the flush at another path. -/
inductive Ends (env : Env) (md : Md) (content : Option Str) (os : Os) (rc : Rc) (os' : Os) : Prop
  | failed : rc ≠ .success → os'.links = os.links → Ends env md content os rc os'
  | stored {path filename : Str} {md' : Md} {os1 os2 : Os} : os1.links = os.links →
      storeFile env { (closeTempfile env md os).1 with mdTempfilepath := path } content filename
        os1 = some (rc, md', os2) → os'.links = os2.links → Ends env md content os rc os'

theorem maildropClose_ends {env : Env} {config : Settings} {md md' : Md} {os os' : Os} {rc : Rc}
    (h : maildropClose env config md os = some (rc, md', os')) :
    Ends env md (some (closeTempfile env md os).1.tempfile) os rc os' := by
  have hc := closeTempfile_links env md os
  unfold maildropClose at h
  dsimp only at h
  split at h
  · have htick : (closeTempfile env md os).2.tick.links = os.links := hc
    exact .stored htick h rfl
  · cases h
    exact .failed (by decide) hc

theorem gzipClose_ends {env : Env} {config : Settings} {md md' : Md} {os os' : Os} {rc : Rc}
    (h : gzipClose env config md os = some (rc, md', os')) : Ends env md none os rc os' := by
  have hc := closeTempfile_links env md os
  unfold gzipClose at h
  dsimp only at h
  split at h
  · cases h
    exact .failed (by decide) hc
  · split at h
    · split at h
      · generalize hev : Os.log _ _ = os2 at h
        have h2 : os2.links = os.links := by
          rw [← hev]
          exact (Os.links_log _ rfl).trans hc
        have haw := awaitCommand_links env (closeTempfile env md os).1
          ((closeTempfile env md os).1.mdTempfilepath ++ GZIP_SUFFIX) os2
        split at h
        · rename_i heq
          rw [heq] at haw
          cases h
          exact .failed (by decide) (haw.trans h2)
        · rename_i heq
          rw [heq] at haw
          exact .stored (haw.trans h2) h rfl
      · cases h
        exact .failed (by decide) hc
    · cases h
      exact .failed (by decide) hc
  · cases h

theorem enczipClose_ends {env : Env} {cfg : Settings} {md md' : Md} {os os' : Os} {rc : Rc}
    (h : enczipClose env cfg md os = some (rc, md', os')) : Ends env md none os rc os' := by
  have hc := closeTempfile_links env md os
  unfold enczipClose at h
  dsimp only at h
  split at h
  · cases h
    exact .failed (by decide) hc
  · split at h
    · split at h
      · generalize hev : Os.log _ _ = os2 at h
        have h2 : os2.links = os.links := by
          rw [← hev]
          exact (Os.links_log _ rfl).trans hc
        have haw := awaitCommand_links env (closeTempfile env md os).1
          ((closeTempfile env md os).1.mdTempfilepath ++ ENCZIP_SUFFIX) os2
        split at h
        · rename_i heq
          rw [heq] at haw
          cases h
          exact .failed (by decide) (haw.trans h2)
        · rename_i heq
          rw [heq] at haw
          split at h
          · rename_i hst
            cases h
            exact .stored (haw.trans h2) hst rfl
          · rename_i hst
            cases h
            exact .stored (haw.trans h2) hst (Os.links_log _ rfl)
          · cases h
      · cases h
        exact .failed (by decide) hc
    · cases h
      exact .failed (by decide) ((Os.links_log _ rfl).trans hc)
  · cases h

/-- The archive files of a `*_close` have the content. -/
theorem Ends.made {env : Env} {md : Md} {content : Option Str} {os os' : Os} {rc : Rc}
    (h : Ends env md content os rc os') :
    ∃ made, os'.archived = os.archived ++ made ∧ ∀ p ∈ made, content = some p.2 := by
  cases h with
  | failed _ hl => exact ⟨[], by simpa using Os.archived_congr hl, by simp⟩
  | stored h1 hst h2 =>
    obtain ⟨made, he, hmade⟩ := storeFile_made env hst
    exact ⟨made, by rw [Os.archived_congr h2, he, Os.archived_congr h1], hmade⟩

theorem Ends.quiet {env : Env} {md : Md} {os os' : Os} {rc : Rc} (h : Ends env md none os rc os') :
    os'.archived = os.archived := by
  obtain ⟨made, he, hmade⟩ := h.made
  cases made with
  | nil => simpa using he
  | cons p made => exact absurd (hmade p List.mem_cons_self) (by simp)

theorem gzip_closesQuietly : gzip.ClosesQuietly :=
  fun _ _ _ _ _ _ _ h => (gzipClose_ends h).quiet

theorem enczip_closesQuietly : enczip.ClosesQuietly :=
  fun _ _ _ _ _ _ _ h => (enczipClose_ends h).quiet

theorem lda_closesQuietly : lda.ClosesQuietly := by
  intro env config md os rc md' os' h
  refine Os.archived_congr ?_
  have hc := closeTempfile_links env md os
  simp only [lda, ldaClose] at h
  generalize closeTempfile env md os = x at h hc
  obtain ⟨md1, os1⟩ := x
  dsimp only at h hc
  split at h
  · cases h; exact hc
  · split at h
    · split at h
      · cases h
      · rename_i hd
        cases h
        exact (Os.links_log _ rfl).trans ((deliverLoop_links env _ _ _ hd).trans hc)
      · rename_i hd
        cases h
        exact (deliverLoop_links env _ _ _ hd).trans hc
    · cases h; exact hc
  · cases h

/-- **The three siblings may be loaded beside maildrop.** -/
theorem sibling_keeps {m : Module} (hm : m = gzip ∨ m = enczip ∨ m = lda) (c : HookCall) :
    Keeps (fun st => (entriesOf maildrop.mymodule st.mlfiExtrapriv, st.os.archived)) (m.call c) := by
  rcases hm with rfl | rfl | rfl
  · exact Module.call_keeps_archived gzip_opensQuietly gzip_closesQuietly (by decide) c
  · exact Module.call_keeps_archived enczip_opensQuietly enczip_closesQuietly (by decide) c
  · exact Module.call_keeps_archived lda_opensQuietly lda_closesQuietly (by decide) c

/-- The archive files of `maildrop_close` hold the spooled text behind the flush. -/
theorem maildropClose_made {env : Env} {config : Settings} {md md' : Md} {os os' : Os} {rc : Rc}
    (h : maildropClose env config md os = some (rc, md', os')) :
    ∃ made, os'.archived = os.archived ++ made ∧
      ∀ p ∈ made, p.2 = (closeTempfile env md os).1.tempfile := by
  obtain ⟨made, he, hmade⟩ := (maildropClose_ends h).made
  exact ⟨made, he, fun p hp => (Option.some.inj (hmade p hp)).symm⟩

end Messasy
