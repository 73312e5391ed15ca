import Messasy.Module.Archive

/-!
# Storing in the folders

When every file operation succeeds, `maildrop_close` links the text once into each folder of the
save addresses (`maildropClose_stores`), unless an address is longer than the array that it is
copied to (`maildropClose_long`). `archiveFolder` says what the folder of an address is.
-/

namespace Messasy

open Lib

/-- The folder of an address: `MailFolder` with its formats replaced, below `MailDir`. -/
def archiveFolder (folder : FolderConfig) (lt : Tm) (address : Str) : Str :=
  let name := replaceDelimiter (replaceDelimiter address DOT (folder.cfDotdelimiter.headD 0))
    SLASH (folder.cfSlashdelimiter.headD 0)
  let mail := if check7bit address then UNKNOWN else name
  let domain :=
    if check7bit address then UNKNOWN else ((strchr name (ch '@')).map List.tail).getD UNKNOWN
  folder.cfMaildir ++ bytes "/" ++ strReplaceFormat folder.cfMailfolder
    [⟨ch 'y', lt.year⟩, ⟨ch 'm', lt.month⟩, ⟨ch 'd', lt.day⟩, ⟨ch 'D', domain⟩, ⟨ch 'M', mail⟩,
      ⟨ch 'f', mail⟩]

/-- What the loader checks: no slash in `MailFolder`, `DotDelimiter` and `SlashDelimiter`. -/
def FolderConfig.Loaded (folder : FolderConfig) : Prop :=
  SLASH ∉ folder.cfMailfolder ∧ folder.cfDotdelimiter.headD 0 ≠ SLASH ∧
    folder.cfSlashdelimiter.headD 0 ≠ SLASH

/-- The record's settings are the folder's, and these are its save addresses. -/
structure Md.Filed (folder : FolderConfig) (t : Nat) (saveaddr : List Str) (md : Md) : Prop where
  recvtime : md.mdRecvtime = t
  maildir : md.mdMaildir = folder.cfMaildir
  mailfolder : md.mdMailfolder = folder.cfMailfolder
  dotdelimiter : md.mdDotdelimiter = folder.cfDotdelimiter.headD 0
  slashdelimiter : md.mdSlashdelimiter = folder.cfSlashdelimiter.headD 0
  tempfilepath : ∃ rest, md.mdTempfilepath = folder.cfMaildir ++ bytes "/tmp/" ++ rest
  saveaddr : md.mdSaveaddr = saveaddr

/-- The file operations succeed; `lt` are the answers of `localtime`, printed without a slash. -/
structure Env.Files (folder : FolderConfig) (lt : Nat → Tm) (env : Env) : Prop where
  localtime : ∀ t, env.localtime t = some (lt t)
  printed : ∀ t, SLASH ∉ (lt t).year ++ (lt t).month ++ (lt t).day
  mkstemp : ∀ i, 0 ≤ (env.mkstemp i).1
  write : ∀ i n, env.write i n ≠ none
  stat : ∀ i rest, ∃ isDir stIno,
    env.stat i (folder.cfMaildir ++ bytes "/tmp/" ++ rest) = .found isDir stIno
  link : ∀ i, env.link i = true

section
variable {folder : FolderConfig} {t : Nat} {saveaddr : List Str} {md md' : Md}

theorem Md.OpenedBy.filed {view : View} (h : md.OpenedBy folder view)
    (ha : view.mlfiAddrmatched = some saveaddr) : md.Filed folder view.mlfiRecvtime saveaddr :=
  ⟨h.recvtime, h.maildir, h.mailfolder, h.dotdelimiter, h.slashdelimiter, h.tempfilepath,
    Option.some.inj (h.saveaddr.symm.trans ha)⟩

/-- The writers leave the settings alone. -/
theorem Md.Filed.congr (h : md.Filed folder t saveaddr) (hc : md'.core = md.core) :
    md'.Filed folder t saveaddr := by
  have hsame : ∀ {β : Type} (f : Md → β), f md'.core = f md.core := fun f => congrArg f hc
  have hpath : md'.mdTempfilepath = md.mdTempfilepath := hsame Md.mdTempfilepath
  exact ⟨(hsame Md.mdRecvtime).trans h.recvtime, (hsame Md.mdMaildir).trans h.maildir,
    (hsame Md.mdMailfolder).trans h.mailfolder, (hsame Md.mdDotdelimiter).trans h.dotdelimiter,
    (hsame Md.mdSlashdelimiter).trans h.slashdelimiter, by rw [hpath]; exact h.tempfilepath,
    (hsame Md.mdSaveaddr).trans h.saveaddr⟩

theorem Md.Filed.closeTempfile (h : md.Filed folder t saveaddr) (env : Env) (os : Os) :
    (closeTempfile env md os).1.Filed folder t saveaddr := by
  unfold Messasy.closeTempfile
  by_cases hfd : 0 < md.mdTempfileFd
  · cases hcr : md.mdCr with
    | false =>
      simp only [if_pos hfd]
      exact ⟨h.recvtime, h.maildir, h.mailfolder, h.dotdelimiter, h.slashdelimiter,
        h.tempfilepath, h.saveaddr⟩
    | true =>
      have hw := h.congr (md.write_kept env [CR] os).core
      simp only [if_pos hfd]
      exact ⟨hw.recvtime, hw.maildir, hw.mailfolder, hw.dotdelimiter, hw.slashdelimiter,
        hw.tempfilepath, hw.saveaddr⟩
  · simp only [if_neg hfd]
    exact h

/-! ## The folders -/

theorem folderPath_eq (h : md.Filed folder t saveaddr) (lt : Tm) (a : Str) :
    folderPath md lt a = archiveFolder folder lt a := by
  unfold folderPath folderFormat archiveFolder
  rw [h.maildir, h.mailfolder, h.dotdelimiter, h.slashdelimiter]
  by_cases h7 : check7bit a = true
  · simp only [h7, if_true]
  · simp only [if_neg h7]
    cases strchr (replaceDelimiter (replaceDelimiter a DOT (folder.cfDotdelimiter.headD 0)) SLASH
      (folder.cfSlashdelimiter.headD 0)) (ch '@') <;> rfl

theorem slash_notMem_domain {name : Str} (h : SLASH ∉ name) :
    SLASH ∉ ((strchr name (ch '@')).map List.tail).getD UNKNOWN := by
  cases hs : strchr name (ch '@') with
  | none => decide
  | some p =>
    obtain ⟨r, rfl, hr⟩ := strchr_eq_some hs
    rw [hr] at h
    simp only [Option.map_some, List.tail_cons, Option.getD_some]
    exact fun hm => h (List.mem_append_right _ (List.mem_cons_of_mem _ hm))

/-- Below `MailDir` the folder's name has no slash. -/
theorem slash_notMem_archiveFolder (hf : folder.Loaded) {lt : Tm}
    (hlt : SLASH ∉ lt.year ++ lt.month ++ lt.day) (a : Str) :
    SLASH ∉ (archiveFolder folder lt a).drop (folder.cfMaildir.length + 1) := by
  have hun : SLASH ∉ UNKNOWN := by decide
  have hname : SLASH ∉ replaceDelimiter (replaceDelimiter a DOT (folder.cfDotdelimiter.headD 0))
    SLASH (folder.cfSlashdelimiter.headD 0) := notMem_replaceDelimiter hf.2.2
  unfold archiveFolder
  generalize replaceDelimiter (replaceDelimiter a DOT (folder.cfDotdelimiter.headD 0)) SLASH
    (folder.cfSlashdelimiter.headD 0) = name at hname
  have hmail : SLASH ∉ if check7bit a then UNKNOWN else name := by
    split
    · exact hun
    · exact hname
  have hdomain : SLASH ∉ if check7bit a then UNKNOWN else
      ((strchr name (ch '@')).map List.tail).getD UNKNOWN := by
    split
    · exact hun
    · exact slash_notMem_domain hname
  have hlen : (folder.cfMaildir ++ bytes "/").length = folder.cfMaildir.length + 1 := by
    simp [bytes]
  dsimp only
  rw [← hlen, List.drop_left]
  intro hm
  simp only [List.mem_append, not_or] at hlt
  rcases mem_strReplaceFormat hm with hm | ⟨e, he, hm⟩
  · exact hf.1 hm
  · simp only [List.mem_cons, List.not_mem_nil, or_false] at he
    rcases he with rfl | rfl | rfl | rfl | rfl | rfl
    · exact hlt.1.1 hm
    · exact hlt.1.2 hm
    · exact hlt.2 hm
    · exact hdomain hm
    · exact hmail hm
    · exact hmail hm

/-- The folder list: the folder of every address, each once, by its first occurrence. -/
theorem makedirlistLoop_eq (md : Md) (lt : Tm) : ∀ {l done list : List Str},
    (∀ a ∈ l, FitsMailaddr a) → Firsts done list →
    ∃ dirs, makedirlistLoop md lt l list = some dirs ∧ Firsts (done ++ l.map (folderPath md lt)) dirs
  | [], done, list, _, hf => ⟨list, rfl, by simpa using hf⟩
  | a :: l, done, list, hl, hf => by
    obtain ⟨dirs, he, hd⟩ := makedirlistLoop_eq md lt (l := l)
      (fun b hb => hl b (List.mem_cons_of_mem _ hb)) (uniqPush_firsts hf (folderPath md lt a))
    refine ⟨dirs, ?_, by simpa using hd⟩
    have ha := hl a List.mem_cons_self
    simp only [makedirlistLoop, copyMailaddr, if_pos ha, folderPath_take ha, he]

/-- An address that does not fit its array. -/
theorem makedirlistLoop_long (md : Md) (lt : Tm) : ∀ {l : List Str} {list : List Str},
    (∃ a ∈ l, ¬ FitsMailaddr a) → makedirlistLoop md lt l list = none
  | [], _, ⟨_, ha, _⟩ => by cases ha
  | a :: l, list, ⟨b, hb, hlen⟩ => by
    unfold makedirlistLoop copyMailaddr
    by_cases ha : FitsMailaddr a
    · simp only [if_pos ha]
      rcases List.mem_cons.1 hb with rfl | hb
      · exact absurd ha hlen
      · exact makedirlistLoop_long md lt ⟨b, hb, hlen⟩
    · simp only [if_neg ha]

theorem mdMakedirbylist_success (env : Env) (md : Md) : ∀ (list : List Str) (os : Os),
    (∀ p ∈ list, SLASH ∉ p.drop (md.mdMaildir.length + 1)) →
    (mdMakedirbylist env md list os).1 = .success
  | [], os, _ => rfl
  | p :: list, os, h => by
    have hp := strchr_eq_none.2 (h p List.mem_cons_self)
    simp only [mdMakedirbylist, mdMakemaildirTree, hp]
    exact mdMakedirbylist_success env md list _ fun q hq => h q (List.mem_cons_of_mem _ hq)

theorem saveFilename_new (md : Md) (stIno : Nat) (msyHostname : Str) :
    bytes "/new/" <+: saveFilename md stIno msyHostname [] := by
  unfold saveFilename
  refine List.prefix_take_iff.2 ⟨?_, by decide⟩
  simp only [List.append_assoc]
  exact List.prefix_append _ _

/-! ## The end of the message -/

variable {env : Env} {lt : Nat → Tm} {config : Settings} {os : Os}

/-- The folders are made and linked into, once each; `R` is what making directories keeps. -/
theorem storeFile_eq {R : Os → Os → Prop} (hR : Mkdirs R) {tm : Tm}
    (htime : env.localtime t = some tm) (hprinted : SLASH ∉ tm.year ++ tm.month ++ tm.day)
    (hf : folder.Loaded) (h : md.Filed folder t saveaddr)
    (hl : ∀ a ∈ saveaddr, FitsMailaddr a) (content : Option Str) (filename : Str)
    (os : Os) : ∃ (dirs : List Str) (os1 : Os), dirs.Nodup ∧
      (∀ p, p ∈ dirs ↔ ∃ a ∈ saveaddr, p = archiveFolder folder tm a) ∧ R os os1 ∧
      storeFile env md content filename os = some (.success, md,
        (mdMakesavefile env md content filename dirs os1).log (.unlink md.mdTempfilepath)) := by
  obtain ⟨dirs, he, hd⟩ := makedirlistLoop_eq md tm (l := saveaddr) hl Firsts.nil
  have hmem : ∀ p, p ∈ dirs ↔ ∃ a ∈ saveaddr, p = archiveFolder folder tm a := by
    intro p
    rw [hd.mem p, List.nil_append, List.mem_map]
    simp only [folderPath_eq h, eq_comm]
  have hmade := mdMakedirbylist_success env md dirs os fun p hp => by
    obtain ⟨a, -, rfl⟩ := (hmem p).1 hp
    rw [h.maildir]
    exact slash_notMem_archiveFolder hf hprinted a
  have hkept := hR.mdMakedirbylist env md dirs os
  rcases hr : mdMakedirbylist env md dirs os with ⟨rc, os1⟩
  rw [hr] at hmade hkept
  obtain rfl : rc = .success := hmade
  refine ⟨dirs, os1, hd.nodup, hmem, hkept, ?_⟩
  simp only [storeFile, mdMakedirlist, h.recvtime, htime, h.saveaddr, he, Option.map_some, hr]

/-- **Every address's folder gets the text, once.** -/
theorem maildropClose_stores (henv : env.Files folder lt) (hf : folder.Loaded)
    (h : md.Filed folder t saveaddr) (hl : ∀ a ∈ saveaddr, FitsMailaddr a) :
    ∃ (md' : Md) (os' : Os) (filename text : Str) (dirs : List Str),
      maildropClose env config md os = some (.success, md', os') ∧ bytes "/new/" <+: filename ∧ dirs.Nodup ∧
      (∀ p, p ∈ dirs ↔ ∃ a ∈ saveaddr, p = archiveFolder folder (lt t) a) ∧
      os'.archived = os.archived ++ dirs.map fun dir => (dir ++ filename, text) := by
  have hc := Os.archived_congr (closeTempfile_links env md os)
  have hfiled := h.closeTempfile env os
  unfold maildropClose
  generalize closeTempfile env md os = x at hc hfiled
  obtain ⟨md1, os1⟩ := x
  dsimp only at hc hfiled ⊢
  obtain ⟨rest, hpath⟩ := hfiled.tempfilepath
  obtain ⟨isDir, stIno, hstat⟩ := henv.stat os1.clock rest
  rw [hpath, hstat]
  obtain ⟨dirs, os2, hnodup, hmem, hlinks, hstore⟩ := storeFile_eq mkdirs_links
    (henv.localtime t) (henv.printed t) hf hfiled hl (some md1.tempfile)
    (saveFilename md1 stIno config.cfMsyhostname []) os1.tick
  refine ⟨md1, _, saveFilename md1 stIno config.cfMsyhostname [], md1.tempfile, dirs, hstore,
    saveFilename_new _ _ _, hnodup, hmem, ?_⟩
  rw [Os.archived_log, mdMakesavefile_linked henv.link, Os.archived_congr hlinks,
    Os.archived_tick, hc]
  simp [archived]

/-- An address longer than the array: the copy has no end. -/
theorem maildropClose_long (henv : env.Files folder lt) (h : md.Filed folder t saveaddr)
    (hl : ∃ a ∈ saveaddr, ¬ FitsMailaddr a) : maildropClose env config md os = none := by
  have hfiled := h.closeTempfile env os
  unfold maildropClose
  generalize closeTempfile env md os = x at hfiled
  obtain ⟨md1, os1⟩ := x
  dsimp only at hfiled ⊢
  obtain ⟨rest, hpath⟩ := hfiled.tempfilepath
  obtain ⟨isDir, stIno, hstat⟩ := henv.stat os1.clock rest
  rw [hpath, hstat]
  simp only [storeFile, mdMakedirlist, hfiled.recvtime, henv.localtime, hfiled.saveaddr,
    makedirlistLoop_long md1 (lt t) hl, Option.map_none]

end

end Messasy
