import Messasy.Module.Deposit

/-!
# The three archiving modules

`maildrop`, `gzip` and `enczip` with their settings. A `*_close` that makes a link succeeds, and
its save addresses fit their array (`Archiver.close_links`). Under `Env.losing last` every call
succeeds until files get lost: a `*_close` before that stores the message (`close_stores`), and one
behind it fails (`close_fails`).
-/

namespace Messasy

open Lib

/-- The module with the settings that its own `init_config` makes, and the folder settings in
them. -/
inductive Archiver : Module → ModuleConfig → FolderConfig → Prop
  | maildrop (folder : FolderConfig) : Archiver maildrop (.maildrop folder) folder
  | gzip (cfGzipcommand : Str) (folder : FolderConfig) :
      Archiver gzip (.gzip cfGzipcommand folder) folder
  | enczip (cfEnczipcommand cfEnczippassword : Str) (folder : FolderConfig) :
      Archiver enczip (.enczip cfEnczipcommand cfEnczippassword folder) folder

/-- Every call succeeds, but from the count `last` on `stat` does not. -/
def Env.losing (last : Nat) : Env :=
  { Env.fine with stat := fun i _ => if i < last then .found true 7 else .failed }

/-! ## Links are made at the end only -/

section
variable {env : Env} {md md' : Md} {content : Option Str} {filename : Str} {os os' : Os} {rc : Rc}

/-- A store that fails makes no link, and neither does one for no address. -/
theorem storeFile_links (h : storeFile env md content filename os = some (rc, md', os')) :
    os'.links = os.links ∨
      rc = .success ∧ md.mdSaveaddr ≠ [] ∧ ∀ a ∈ md.mdSaveaddr, FitsMailaddr a := by
  unfold storeFile at h
  split at h
  · cases h
  · rename_i list hlist
    have hdirs := mkdirs_links.mdMakedirbylist env md list os
    split at h
    · rename_i os1 heq
      rw [heq] at hdirs
      cases h
      by_cases hne : md.mdSaveaddr = []
      · refine .inl ?_
        have hnil : list = [] := by
          unfold mdMakedirlist at hlist
          rw [hne] at hlist
          split at hlist <;> cases hlist
          rfl
        subst hnil
        exact (Os.links_log _ rfl).trans hdirs
      · refine .inr ⟨rfl, hne, fun a ha => ?_⟩
        -- a longer address has no copy, so there would be no list
        by_contra hlong
        unfold mdMakedirlist at hlist
        split at hlist
        · cases hlist
        · rw [makedirlistLoop_long md _ ⟨a, ha, hlong⟩] at hlist
          cases hlist
    · rename_i os1 _ heq
      rw [heq] at hdirs
      cases h
      exact .inl hdirs
  · cases h
    exact .inl rfl

theorem Ends.links (h : Ends env md content os rc os') : os'.links = os.links ∨
    rc = .success ∧ (closeTempfile env md os).1.mdSaveaddr ≠ [] ∧
      ∀ a ∈ (closeTempfile env md os).1.mdSaveaddr, FitsMailaddr a := by
  cases h with
  | failed _ hl => exact .inl hl
  | stored h1 hst h2 =>
    rcases storeFile_links hst with hl | hr
    · exact .inl (h2.trans (hl.trans h1))
    · exact .inr hr

end

section
variable {m : Module} {config : ModuleConfig} {folder : FolderConfig}
  (ha : Archiver m config folder) {env : Env} {cfg : Settings} {md md' : Md} {os os' : Os} {rc : Rc} {t : Nat} {saveaddr : List Str}
include ha

/-- **A link means success.** -/
theorem Archiver.close_links (hmd : md.Filed folder t saveaddr)
    (h : m.close env cfg md os = some (rc, md', os')) : os'.links = os.links ∨
      rc = .success ∧ saveaddr ≠ [] ∧ ∀ a ∈ saveaddr, FitsMailaddr a := by
  have hsave := (hmd.closeTempfile env os).saveaddr
  have hends : ∃ content, Ends env md content os rc os' := by
    cases ha with
    | maildrop => exact ⟨_, maildropClose_ends h⟩
    | gzip => exact ⟨_, gzipClose_ends h⟩
    | enczip => exact ⟨_, enczipClose_ends h⟩
  obtain ⟨content, hends⟩ := hends
  rw [← hsave]
  exact hends.links

theorem Archiver.opensQuietly : m.OpensQuietly := by
  cases ha with
  | maildrop => exact maildrop_opensQuietly
  | gzip => exact gzip_opensQuietly
  | enczip => exact enczip_opensQuietly

/-- A record that the module has opened is filed with its folder settings. -/
theorem Archiver.open_filed {view : View} (hview : view.mlfiAddrmatched = some saveaddr)
    (h : m.open_ env config view os = some (some md, os')) :
    md.Filed folder view.mlfiRecvtime saveaddr := by
  have hopen : folderOpen folder env view os = some (some md, os') := by
    cases ha with
    | maildrop => exact h
    | gzip => exact h
    | enczip => exact h
  obtain ⟨i, ⟨hnone, -⟩ | ⟨md1, hsome, ho, -⟩⟩ := folderOpen_cases hopen
  · cases hnone
  · cases hsome
    exact ho.filed hview

end

/-! ## The clock -/

theorem mkdirs_clock : Mkdirs fun os os' => os.clock ≤ os'.clock where
  refl os := Nat.le_refl os.clock
  trans h h' := Nat.le_trans h h'
  tick os := Nat.le_succ os.clock
  mkdir _ os := Nat.le_succ os.clock

theorem closeTempfile_clock (env : Env) (md : Md) (os : Os) :
    os.clock ≤ (closeTempfile env md os).2.clock := by
  have hwrite : ∀ text, os.clock ≤ (md.write env text os).2.2.clock := by
    intro text
    unfold Md.write
    cases env.write os.clock text.length with
    | none => exact Nat.le_succ os.clock
    | some n => exact Nat.le_succ os.clock
  unfold closeTempfile
  by_cases hfd : 0 < md.mdTempfileFd
  · simp only [if_pos hfd]
    cases hcr : md.mdCr with
    | false => exact Nat.le_succ os.clock
    | true => exact Nat.le_succ_of_le (hwrite [CR])
  · simp only [if_neg hfd]
    exact Nat.le_refl os.clock

theorem mdMakesavefile_clock (env : Env) (md : Md) (content : Option Str) (filename : Str) :
    ∀ (dirlist : List Str) (os : Os),
      os.clock ≤ (mdMakesavefile env md content filename dirlist os).clock
  | [], os => Nat.le_refl os.clock
  | dir :: dirlist, os => by
    have ih := mdMakesavefile_clock env md content filename dirlist
      (os.log (.link md.mdTempfilepath (dir ++ filename) content (env.link os.clock)))
    exact Nat.le_trans (Nat.le_succ os.clock) ih

/-- When every link is made, there is one in each folder. -/
theorem mdMakesavefile_names {env : Env} (hlink : ∀ i, env.link i = true) (md : Md)
    (content : Option Str) (filename : Str) : ∀ (dirlist : List Str) (os : Os),
      (mdMakesavefile env md content filename dirlist os).linked =
        os.linked ++ dirlist.map fun dir => dir ++ filename
  | [], os => by simp [mdMakesavefile]
  | dir :: dirlist, os => by
    have ih := mdMakesavefile_names hlink md content filename dirlist
      (os.log (.link md.mdTempfilepath (dir ++ filename) content (env.link os.clock)))
    unfold mdMakesavefile at ih ⊢
    rw [List.foldl_cons, ih, Os.linked_log, hlink]
    simp [linked]

/-! ## Losing the files -/

theorem Md.Filed.suffixed {folder : FolderConfig} {t : Nat} {saveaddr : List Str} {md : Md}
    (h : md.Filed folder t saveaddr) (suffix : Str) :
    Md.Filed folder t saveaddr { md with mdTempfilepath := md.mdTempfilepath ++ suffix } := by
  obtain ⟨rest, hpath⟩ := h.tempfilepath
  refine ⟨h.recvtime, h.maildir, h.mailfolder, h.dotdelimiter, h.slashdelimiter,
    ⟨rest ++ suffix, ?_⟩, h.saveaddr⟩
  show md.mdTempfilepath ++ suffix = _
  rw [hpath, List.append_assoc]

section
variable {folder : FolderConfig} {t : Nat} {saveaddr : List Str} {md : Md}

/-- With an address, and all of them fitting, the store succeeds and links. -/
theorem storeFile_losing (hf : folder.Loaded) (hmd : md.Filed folder t saveaddr)
    (hne : saveaddr ≠ []) (hfit : ∀ a ∈ saveaddr, FitsMailaddr a) (last : Nat)
    (content : Option Str) (filename : Str) (os : Os) :
    ∃ os', storeFile (.losing last) md content filename os = some (.success, md, os') ∧
      os.clock ≤ os'.clock ∧ os'.linked ≠ [] := by
  obtain ⟨dirs, os1, -, hmem, hclock, he⟩ := storeFile_eq mkdirs_clock
    (rfl : (Env.losing last).localtime t = some _) (by decide) hf hmd hfit content filename os
  refine ⟨_, he, ?_, ?_⟩
  · have hsave := mdMakesavefile_clock (.losing last) md content filename dirs os1
    exact Nat.le_trans hclock (Nat.le_succ_of_le hsave)
  · obtain ⟨a, l, rfl⟩ := List.exists_cons_of_ne_nil hne
    have hdir := (hmem _).2 ⟨a, List.mem_cons_self, rfl⟩
    rw [Os.linked_log, mdMakesavefile_names (fun _ => rfl)]
    intro hnil
    simp only [List.append_eq_nil_iff, List.map_eq_nil_iff] at hnil
    rw [hnil.1.2] at hdir
    cases hdir

/-- The answers of `wait` and `stat` up to the lost files. -/
theorem awaitCommand_losing (last : Nat) (md : Md) (tempstr : Str) (os : Os)
    (h : os.clock + 1 < last) :
    awaitCommand (.losing last) md tempstr os = (some 7, os.tick.tick) := by
  have hstat : (Env.losing last).stat os.tick.clock tempstr = .found true 7 := if_pos h
  unfold awaitCommand
  simp only [Env.losing, Env.fine] at hstat ⊢
  simp only [hstat]

/-- Behind the start of a command: the command leaves its file, and the file is stored. -/
theorem storeFile_zipped (hf : folder.Loaded) (hmd : md.Filed folder t saveaddr)
    (hne : saveaddr ≠ []) (hfit : ∀ a ∈ saveaddr, FitsMailaddr a)
    (suffix hostname : Str) (e : Event) (os : Os) :
    let zipped : Md := { md with mdTempfilepath := md.mdTempfilepath ++ suffix }
    (Env.losing (os.clock + 4)).stat os.clock md.mdTempfilepath = .found true 7 ∧
      awaitCommand (.losing (os.clock + 4)) md (md.mdTempfilepath ++ suffix) (os.tick.log e) =
        (some 7, (os.tick.log e).tick.tick) ∧
      ∃ os', storeFile (.losing (os.clock + 4)) zipped none (saveFilename zipped 7 hostname suffix)
          (os.tick.log e).tick.tick = some (.success, zipped, os') ∧
        os.clock + 4 ≤ os'.clock ∧ os'.linked ≠ [] := by
  refine ⟨if_pos (by omega), awaitCommand_losing _ md _ _ ?_, ?_⟩
  · show os.clock + 1 + 1 + 1 < os.clock + 4
    omega
  · exact storeFile_losing hf (hmd.suffixed suffix) hne hfit (os.clock + 4) none _ _

variable {m : Module} {config : ModuleConfig} (ha : Archiver m config folder) {cfg : Settings}
  (hconf : findConfig m.mymodule cfg.cfExtraconfig = some config)
include ha hconf

/-- **A close before the loss** stores the message; the files may be lost right behind it. -/
theorem Archiver.close_stores (hf : folder.Loaded) (hmd : md.Filed folder t saveaddr)
    (hne : saveaddr ≠ []) (hfit : ∀ a ∈ saveaddr, FitsMailaddr a) (os : Os) :
    ∃ last md' os', m.close (.losing last) cfg md os = some (.success, md', os') ∧
      last ≤ os'.clock ∧ os'.linked ≠ [] := by
  have hmd1 := hmd.closeTempfile .fine os
  rcases hclose : closeTempfile .fine md os with ⟨md1, os1⟩
  rw [hclose] at hmd1
  dsimp only at hmd1
  have hsame : ∀ last, closeTempfile (.losing last) md os = (md1, os1) := fun last => hclose
  cases ha with
  | maildrop =>
    obtain ⟨os', hst, hclock, hlinked⟩ := storeFile_losing hf hmd1 hne hfit (os1.clock + 1)
      (some md1.tempfile) (saveFilename md1 7 cfg.cfMsyhostname []) os1.tick
    have hstat : (Env.losing (os1.clock + 1)).stat os1.clock md1.mdTempfilepath =
        .found true 7 := if_pos (Nat.lt_succ_self _)
    refine ⟨os1.clock + 1, md1, os', ?_, hclock, hlinked⟩
    show maildropClose _ cfg md os = _
    simp only [maildropClose, hsame, hstat, hst]
  | gzip command =>
    have hconf : findConfig (bytes "gzip") cfg.cfExtraconfig = some (.gzip command folder) := hconf
    obtain ⟨argv, hargv⟩ : ∃ argv, argv = cmdStrrep command (ch ' ') ++ [md1.mdTempfilepath] :=
      ⟨_, rfl⟩
    obtain ⟨hstat, hawait, os', hst, hclock, hlinked⟩ := storeFile_zipped hf hmd1 hne hfit
      GZIP_SUFFIX cfg.cfMsyhostname (.execv argv none) os1
    refine ⟨os1.clock + 4, { md1 with mdTempfilepath := md1.mdTempfilepath ++ GZIP_SUFFIX }, os',
      ?_, hclock, hlinked⟩
    show gzipClose (.losing (os1.clock + 4)) cfg md os = _
    simp only [gzipClose, hsame, hconf, hstat]
    rw [← hargv, hawait]
    exact hst
  | enczip command password =>
    have hconf : findConfig (bytes "enczip") cfg.cfExtraconfig =
      some (.enczip command password folder) := hconf
    obtain ⟨e, he⟩ : ∃ e, e = Event.execv (cmdStrrep command (ch ' ') ++
        [md1.mdTempfilepath ++ ENCZIP_SUFFIX, md1.mdTempfilepath])
        (some (ENCZIP_FIXOPTION ++ bytes " " ++ password)) := ⟨_, rfl⟩
    obtain ⟨hstat, hawait, os', hst, hclock, hlinked⟩ := storeFile_zipped hf hmd1 hne hfit
      ENCZIP_SUFFIX cfg.cfMsyhostname e os1
    refine ⟨os1.clock + 4, { md1 with mdTempfilepath := md1.mdTempfilepath ++ ENCZIP_SUFFIX }, os',
      ?_, hclock, hlinked⟩
    show enczipClose (.losing (os1.clock + 4)) cfg md os = _
    simp only [enczipClose, hsame, hconf, hstat]
    rw [← he, hawait]
    have hfork : (Env.losing (os1.clock + 4)).fork os1.tick.clock = true := rfl
    simp only [hfork, if_true, hst]

/-- **A close behind the loss** fails. -/
theorem Archiver.close_fails (md : Md) {last : Nat} {os : Os} (hos : last ≤ os.clock) :
    ∃ rc md' os', m.close (.losing last) cfg md os = some (rc, md', os') ∧ rc ≠ .success := by
  have hclock := Nat.le_trans hos (closeTempfile_clock (.losing last) md os)
  rcases hclose : closeTempfile (.losing last) md os with ⟨md1, os1⟩
  rw [hclose] at hclock
  have hstat : (Env.losing last).stat os1.clock md1.mdTempfilepath = .failed :=
    if_neg (Nat.not_lt.2 hclock)
  cases ha with
  | maildrop =>
    refine ⟨.error, md1, os1.tick, ?_, by decide⟩
    show maildropClose _ cfg md os = _
    simp only [maildropClose, hclose, hstat]
  | gzip command =>
    have hconf : findConfig (bytes "gzip") cfg.cfExtraconfig = some (.gzip command folder) := hconf
    refine ⟨.error, md1, os1.tick, ?_, by decide⟩
    show gzipClose (.losing last) cfg md os = some (.error, md1, os1.tick)
    simp only [gzipClose, hclose, hconf, hstat]
  | enczip command password =>
    have hconf : findConfig (bytes "enczip") cfg.cfExtraconfig =
      some (.enczip command password folder) := hconf
    refine ⟨.error, md1, os1.tick.log (.unlink md1.mdTempfilepath), ?_, by decide⟩
    show enczipClose (.losing last) cfg md os = some (.error, md1, _)
    simp only [enczipClose, hclose, hconf, hstat]

end

end Messasy
