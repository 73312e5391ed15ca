import Messasy.Module.Check
import Messasy.Module.Deposit

/-!
# Folder levels

What `md_makedirlist` builds from checked settings: below `MailDir` each folder is one name, with
the levels of `MailFolder` and no others, whatever the address is (`mdMakedirlist_levels`).
-/

namespace Messasy

open Lib

/-- A text with the delimiters in the place of dots and slashes. -/
def delimited (folder : FolderConfig) (text : Str) : Str :=
  text.map fun c =>
    if c = DOT then folder.cfDotdelimiter.headD 0
    else if c = SLASH then folder.cfSlashdelimiter.headD 0
    else c

/-- What `%M` and `%f` stand for. -/
def addressPart (folder : FolderConfig) (address : Str) : Str :=
  if ∃ c ∈ address, 128 ≤ c then UNKNOWN else delimited folder address

/-- What `%D` stands for: the text behind the first `@`. -/
def domainPart (folder : FolderConfig) (address : Str) : Str :=
  if ∃ c ∈ address, 128 ≤ c then UNKNOWN
  else if ch '@' ∈ address then delimited folder (address.dropWhile (· != ch '@')).tail
  else UNKNOWN

/-- The replacements of the format characters. -/
def folderSub (folder : FolderConfig) (lt : Tm) (address : Str) (c : Byte) : Option Str :=
  if c = ch 'y' then some lt.year
  else if c = ch 'm' then some lt.month
  else if c = ch 'd' then some lt.day
  else if c = ch 'D' then some (domainPart folder address)
  else if c = ch 'M' then some (addressPart folder address)
  else if c = ch 'f' then some (addressPart folder address)
  else none

/-- The name of an address's folder below `MailDir`. -/
def folderName (folder : FolderConfig) (lt : Tm) (address : Str) : Str :=
  expand (folderSub folder lt address) folder.cfMailfolder

/-- The checks of the three settings pass. -/
structure FolderConfig.Checked (folder : FolderConfig) : Prop where
  mailfolder : isMailfolder folder.cfMailfolder = none
  dotdelimiter : isDotdelimiter folder.cfDotdelimiter = none
  slashdelimiter : isSlashdelimiter folder.cfSlashdelimiter = none

/-- The date's parts are digits. -/
def Tm.Digits (lt : Tm) : Prop := ∀ c ∈ lt.year ++ lt.month ++ lt.day, isdigit c = true

section
variable {folder : FolderConfig} {lt : Tm} {a : Str}

/-! ## The checked settings -/

/-- A character outside the delimiters' sets is no delimiter. -/
theorem FolderConfig.Checked.delimiter_ne (hf : folder.Checked) {b : Byte}
    (hdot : b ∉ CHAR_MAILDROP_DOT_DELIMITER) (hslash : b ∉ CHAR_MAILDROP_SLASH_DELIMITER) :
    folder.cfDotdelimiter.headD 0 ≠ b ∧ folder.cfSlashdelimiter.headD 0 ≠ b := by
  obtain ⟨c, hc, hcs⟩ := isDelimiter_mem hf.dotdelimiter
  obtain ⟨d, hd, hds⟩ := isDelimiter_mem hf.slashdelimiter
  rw [hcs, hds]
  exact ⟨fun h => hdot (h ▸ hc), fun h => hslash (h ▸ hd)⟩

theorem FolderConfig.Checked.loaded (hf : folder.Checked) : folder.Loaded := by
  have hne := hf.delimiter_ne (b := SLASH) (by decide) (by decide)
  refine ⟨fun hs => ?_, hne⟩
  exact absurd (isMailfolder_mem hf.mailfolder hs) (by decide)

/-! ## The parts of an address -/

theorem check7bit_iff : check7bit a = true ↔ ∃ c ∈ a, 128 ≤ c := by
  simp [check7bit]

/-- The two replacements of the source are one. -/
theorem delimited_eq (hf : folder.Checked) (a : Str) :
    replaceDelimiter (replaceDelimiter a DOT (folder.cfDotdelimiter.headD 0)) SLASH
      (folder.cfSlashdelimiter.headD 0) = delimited folder a := by
  have hne := hf.loaded.2.1
  simp only [replaceDelimiter, delimited, List.map_map]
  refine List.map_congr_left fun c _ => ?_
  by_cases hc : c = DOT
  · simp only [Function.comp_apply, if_pos hc, if_neg hne]
  · simp only [Function.comp_apply, if_neg hc]

/-- The delimiters are no `@`, so the first `@` stays where it is. -/
theorem strchr_delimited (hf : folder.Checked) (a : Str) :
    ((strchr (delimited folder a) (ch '@')).map List.tail).getD UNKNOWN =
      if ch '@' ∈ a then delimited folder (a.dropWhile (· != ch '@')).tail else UNKNOWN := by
  have hne := hf.delimiter_ne (b := ch '@') (by decide) (by decide)
  induction a with
  | nil => rfl
  | cons c a ih =>
    by_cases hc : c = ch '@'
    · subst hc
      have hone : delimited folder (ch '@' :: a) = ch '@' :: delimited folder a := by
        simp [delimited, show ch '@' ≠ DOT by decide, show ch '@' ≠ SLASH by decide]
      rw [hone, strchr_cons]
      simp
    · obtain ⟨d, hd, hcons⟩ : ∃ d, d ≠ ch '@' ∧ delimited folder (c :: a) =
          d :: delimited folder a := by
        refine ⟨_, ?_, rfl⟩
        dsimp only
        split
        · exact hne.1
        · split
          · exact hne.2
          · exact hc
      have hdrop : (c :: a).dropWhile (· != ch '@') = a.dropWhile (· != ch '@') := by
        rw [List.dropWhile_cons, if_pos (by simpa using hc)]
      rw [hcons, strchr_cons, if_neg hd, ih, hdrop]
      simp [Ne.symm hc]

/-- The paths of the source are the folder names below `MailDir`. -/
theorem archiveFolder_eq (hf : folder.Checked) (lt : Tm) (a : Str) :
    archiveFolder folder lt a = folder.cfMaildir ++ bytes "/" ++ folderName folder lt a := by
  have hmail : (if check7bit a = true then UNKNOWN else delimited folder a) =
      addressPart folder a := by
    simp only [addressPart, check7bit_iff]
  have hdomain : (if check7bit a = true then UNKNOWN else
      ((strchr (delimited folder a) (ch '@')).map List.tail).getD UNKNOWN) =
        domainPart folder a := by
    simp only [domainPart, check7bit_iff, strchr_delimited hf]
  unfold archiveFolder folderName
  simp only [delimited_eq hf, hmail, hdomain, strReplaceFormat_eq]
  congr 2
  funext c
  simp only [searchFormat_cons, searchFormat_nil, folderSub]

/-! ## The levels -/

/-- Behind the delimiters there is no dot and no slash. -/
theorem delimited_notMem (hf : folder.Checked) {b : Byte} (hb : b = DOT ∨ b = SLASH) (text : Str) :
    b ∉ delimited folder text := by
  have hne : folder.cfDotdelimiter.headD 0 ≠ b ∧ folder.cfSlashdelimiter.headD 0 ≠ b := by
    rcases hb with rfl | rfl
    · exact hf.delimiter_ne (by decide) (by decide)
    · exact hf.loaded.2
  intro hm
  obtain ⟨c, -, hc⟩ := List.mem_map.1 hm
  split at hc
  · exact hne.1 hc
  · rename_i hdot
    split at hc
    · exact hne.2 hc
    · rename_i hslash
      subst hc
      exact hb.elim hdot hslash

/-- No replacement has a dot or a slash. -/
theorem folderSub_notMem (hf : folder.Checked) (hlt : lt.Digits) {b : Byte}
    (hb : b = DOT ∨ b = SLASH) (c : Byte) (r : Str) (h : folderSub folder lt a c = some r) :
    b ∉ r := by
  have hun : b ∉ UNKNOWN := by rcases hb with rfl | rfl <;> decide
  have hdate : b ∉ lt.year ++ lt.month ++ lt.day := by
    intro hm
    have hdigit := hlt b hm
    rcases hb with rfl | rfl <;> exact absurd hdigit (by decide)
  have haddr : b ∉ addressPart folder a := by
    unfold addressPart
    split
    · exact hun
    · exact delimited_notMem hf hb _
  have hdomain : b ∉ domainPart folder a := by
    unfold domainPart
    split
    · exact hun
    · split
      · exact delimited_notMem hf hb _
      · exact hun
  simp only [List.mem_append, not_or] at hdate
  have hcases : r = lt.year ∨ r = lt.month ∨ r = lt.day ∨ r = domainPart folder a ∨
      r = addressPart folder a := by
    unfold folderSub at h
    split_ifs at h <;> cases h <;> simp
  rcases hcases with rfl | rfl | rfl | rfl | rfl
  · exact hdate.1.1
  · exact hdate.1.2
  · exact hdate.2
  · exact hdomain
  · exact haddr

/-- The folder's levels are those of `MailFolder`. -/
theorem folderName_levels (hf : folder.Checked) (hlt : lt.Digits) (a : Str) :
    (folderName folder lt a).count DOT = folder.cfMailfolder.count DOT :=
  count_expand (by decide) rfl (folderSub_notMem hf hlt (.inl rfl)) folder.cfMailfolder

/-- The folder is one name. -/
theorem slash_notMem_folderName (hf : folder.Checked) (hlt : lt.Digits) (a : Str) :
    SLASH ∉ folderName folder lt a := by
  have hcount := count_expand (by decide) rfl (folderSub_notMem (a := a) hf hlt (.inr rfl))
    folder.cfMailfolder
  rw [List.count_eq_zero_of_not_mem hf.loaded.1] at hcount
  exact List.count_eq_zero.1 hcount

/-- `md_makemaildir_tree` takes every name without a slash. -/
theorem mdMakemaildirTree_success {name : Str} (h : SLASH ∉ name) (env : Env) (maildir : Str)
    (os : Os) : (mdMakemaildirTree env (maildir ++ bytes "/" ++ name) maildir.length os).1 =
      .success := by
  have hlen : (maildir ++ bytes "/").length = maildir.length + 1 := by simp [bytes]
  simp only [mdMakemaildirTree, ← hlen, List.drop_left, strchr_eq_none.2 h]

variable {env : Env} {md : Md} {t : Nat} {saveaddr : List Str}

/-- **The folders of checked settings.** Each folder is listed once, by the first address that has
it; it is one name below `MailDir` with the levels of `MailFolder`, and `md_makemaildir_tree` does
not refuse it. -/
theorem mdMakedirlist_levels (hf : folder.Checked) (hmd : md.Filed folder t saveaddr)
    (hlocal : env.localtime t = some lt) (hlt : lt.Digits)
    (hlen : ∀ a ∈ saveaddr, FitsMailaddr a) :
    ∃ dirs, mdMakedirlist env md = some (.success, dirs) ∧
      Firsts (saveaddr.map fun a => folder.cfMaildir ++ bytes "/" ++ folderName folder lt a) dirs ∧
      (∀ a ∈ saveaddr, SLASH ∉ folderName folder lt a ∧
        (folderName folder lt a).count DOT = folder.cfMailfolder.count DOT) ∧
      ∀ dir ∈ dirs, ∀ env' os,
        (mdMakemaildirTree env' dir md.mdMaildir.length os).1 = .success := by
  have hpath : folderPath md lt =
      fun a => folder.cfMaildir ++ bytes "/" ++ folderName folder lt a := by
    funext a
    rw [folderPath_eq hmd, archiveFolder_eq hf]
  obtain ⟨dirs, he, hd⟩ := makedirlistLoop_eq md lt hlen Firsts.nil
  rw [List.nil_append, hpath] at hd
  refine ⟨dirs, ?_, hd, fun a _ => ?_, fun dir hdir env' os => ?_⟩
  · simp only [mdMakedirlist, hmd.recvtime, hlocal, hmd.saveaddr, he, Option.map_some]
  · exact ⟨slash_notMem_folderName hf hlt a, folderName_levels hf hlt a⟩
  · obtain ⟨a, -, rfl⟩ := List.mem_map.1 ((hd.mem dir).1 hdir)
    rw [hmd.maildir]
    exact mdMakemaildirTree_success (slash_notMem_folderName hf hlt a) env' _ os

end

/-- A folder for each domain, and in it one for each address. -/
def levelsFolder : FolderConfig := { exampleFolder with cfMailfolder := bytes ".%D.%M" }

/-- Two addresses that differ in the characters that the delimiters replace. -/
def levelsSaveaddr : List Str := [bytes "a.b/c@example.com", bytes "a,b_c@example,com"]

def levelsRecord : Md where
  mdRecvtime := 0
  mdMaildir := levelsFolder.cfMaildir
  mdMailfolder := levelsFolder.cfMailfolder
  mdDotdelimiter := ch ','
  mdSlashdelimiter := ch '_'
  mdTempfilepath := levelsFolder.cfMaildir ++ bytes "/tmp/" ++ bytes "0000000000.mail.abcdef"
  mdTempfileFd := 0
  mdWritingHeader := true
  mdWritingBody := true
  mdCr := false
  mdHeaderFrom := []
  mdHeaderTo := []
  mdSaveaddr := levelsSaveaddr
  tempfile := []

theorem mdMakedirlist_levels_example :
    ∃ dirs, mdMakedirlist Env.fine levelsRecord = some (.success, dirs) ∧
      Firsts (levelsSaveaddr.map fun a => levelsFolder.cfMaildir ++ bytes "/" ++
        folderName levelsFolder ⟨bytes "2024", bytes "01", bytes "02"⟩ a) dirs ∧
      (∀ a ∈ levelsSaveaddr,
        SLASH ∉ folderName levelsFolder ⟨bytes "2024", bytes "01", bytes "02"⟩ a ∧
        (folderName levelsFolder ⟨bytes "2024", bytes "01", bytes "02"⟩ a).count DOT =
          levelsFolder.cfMailfolder.count DOT) ∧
      ∀ dir ∈ dirs, ∀ env' os,
        (mdMakemaildirTree env' dir levelsRecord.mdMaildir.length os).1 = .success :=
  mdMakedirlist_levels (t := 0) ⟨by decide +kernel, by decide +kernel, by decide +kernel⟩
    ⟨rfl, rfl, rfl, rfl, rfl, ⟨_, rfl⟩, rfl⟩ rfl (by unfold Tm.Digits; decide +kernel)
    (by decide +kernel)

/-- Both addresses have the same folder. -/
example : mdMakedirlist Env.fine levelsRecord =
    some (.success, [levelsFolder.cfMaildir ++ bytes "/.example,com.a,b_c@example,com"]) := by
  decide +kernel

end Messasy
