import Messasy.Module.Usable

/-!
# The temporary file's lifetime

`Message p st out`: the maildrop hooks called for one message, with other modules at work on the
list in between; `out` is what the hooks have done to the system. `Life.next` says in which order
the temporary file may be made, written, closed and unlinked; the hooks follow it, and the message
ends at the end of it (`tempfile_lifetime`).
-/

namespace Messasy

open Lib

/-! ## A file's life -/

/-- How far the temporary file is. -/
inductive Life
  | unmade
  | open_ (path : Str) (fd : Int)
  | closed (path : Str)
  | gone

/-- The life behind an event, unless the event is out of turn. Directories and links are made at
any time. -/
def Life.next : Life → Event → Option Life
  | .unmade, .mkstemp path fd => some (.open_ path fd)
  | .open_ path fd, .write fd' _ => if fd' = fd then some (.open_ path fd) else none
  | .open_ path fd, .close fd' => if fd' = fd then some (.closed path) else none
  | .closed path, .unlink path' => if path' = path then some .gone else none
  | life, .mkdir _ => some life
  | life, .link _ _ _ _ => some life
  | _, _ => none

@[simp] theorem Life.next_mkdir (life : Life) (path : Str) :
    life.next (.mkdir path) = some life := by
  cases life <;> rfl

@[simp] theorem Life.next_link (life : Life) (oldpath newpath : Str) (content : Option Str)
    (ok : Bool) : life.next (.link oldpath newpath content ok) = some life := by
  cases life <;> rfl

/-- Once the file is gone nothing is written or closed. -/
theorem Life.over_gone : ∀ {evs : List Event} {life : Life},
    evs.foldlM Life.next .gone = some life →
    (∀ fd text, .write fd text ∉ evs) ∧ ∀ fd, .close fd ∉ evs
  | [], _, _ => ⟨by simp, by simp⟩
  | e :: evs, life, h => by
    rw [List.foldlM_cons] at h
    cases e with
    | mkdir path => simpa using Life.over_gone h
    | link o n c ok => simpa using Life.over_gone h
    | _ => cases h

/-- A closed file is unlinked, and nothing is written or closed any more. -/
theorem Life.over_closed {path : Str} : ∀ {evs : List Event},
    evs.foldlM Life.next (.closed path) = some .gone →
    .unlink path ∈ evs ∧ (∀ fd text, .write fd text ∉ evs) ∧ ∀ fd, .close fd ∉ evs
  | [], h => by cases h
  | e :: evs, h => by
    rw [List.foldlM_cons] at h
    cases e with
    | mkdir path => simpa using Life.over_closed h
    | link o n c ok => simpa using Life.over_closed h
    | unlink path' =>
      simp only [Life.next] at h
      split at h
      · rename_i hp
        have hgone := Life.over_gone h
        exact ⟨by simp [hp], by simpa using hgone.1, by simpa using hgone.2⟩
      · cases h
    | _ => cases h

/-- An open file is closed once, and then it is a closed one. -/
theorem Life.over_open {path : Str} {fd : Int} : ∀ {evs : List Event},
    evs.foldlM Life.next (.open_ path fd) = some .gone →
    ∃ upto rest, evs = upto ++ .close fd :: rest ∧ .close fd ∉ upto ∧
      rest.foldlM Life.next (.closed path) = some .gone
  | [], h => by cases h
  | e :: evs, h => by
    have hmore : ∀ {e}, e ≠ .close fd → evs.foldlM Life.next (.open_ path fd) = some .gone →
        ∃ upto rest, e :: evs = upto ++ .close fd :: rest ∧ .close fd ∉ upto ∧
          rest.foldlM Life.next (.closed path) = some .gone := by
      intro e he h
      obtain ⟨upto, rest, rfl, hupto, hrest⟩ := Life.over_open h
      exact ⟨e :: upto, rest, rfl, by simp [hupto, Ne.symm he], hrest⟩
    rw [List.foldlM_cons] at h
    cases e with
    | mkdir path => exact hmore (by simp) (by simpa using h)
    | link o n c ok => exact hmore (by simp) (by simpa using h)
    | write fd' text =>
      simp only [Life.next] at h
      split at h
      · exact hmore (by simp) h
      · cases h
    | close fd' =>
      simp only [Life.next] at h
      split at h
      · rename_i hfd
        subst hfd
        exact ⟨[], evs, rfl, by simp, h⟩
      · cases h
    | _ => cases h

/-- A file that has been made stays made. -/
theorem Life.run_unmade : ∀ {evs : List Event} {life : Life},
    evs.foldlM Life.next life = some .unmade → life = .unmade
  | [], _, h => by cases h; rfl
  | e :: evs, life, h => by
    rw [List.foldlM_cons] at h
    obtain ⟨life1, hnext, hrun⟩ := Option.bind_eq_some_iff.1 h
    obtain rfl := Life.run_unmade hrun
    cases life <;> cases e <;> simp [Life.next] at hnext ⊢

/-- Only a file that is not yet made can be made. -/
theorem Life.next_mkstemp {life life' : Life} {path : Str} {fd : Int}
    (h : life.next (.mkstemp path fd) = some life') : life' = .open_ path fd := by
  cases life <;> cases h
  rfl

/-- From one point of the life to another by what is done in between. -/
def Lives (life : Life) (os : Os) (life' : Life) (os' : Os) : Prop :=
  ∃ evs, os'.out = os.out ++ evs ∧ evs.foldlM Life.next life = some life'

section
variable {life life' life'' : Life} {os os' os'' : Os} {e : Event}

theorem Lives.refl (life : Life) (os : Os) : Lives life os life os :=
  ⟨[], (List.append_nil _).symm, rfl⟩

theorem Lives.trans (h : Lives life os life' os') (h' : Lives life' os' life'' os'') :
    Lives life os life'' os'' := by
  obtain ⟨evs, ho, hr⟩ := h
  obtain ⟨evs', ho', hr'⟩ := h'
  refine ⟨evs ++ evs', by rw [ho', ho, List.append_assoc], ?_⟩
  rw [List.foldlM_append, hr]
  exact hr'

theorem Lives.log (h : life.next e = some life') (os : Os) : Lives life os life' (os.log e) := by
  refine ⟨[e], rfl, ?_⟩
  rw [List.foldlM_cons, h]
  rfl

theorem Lives.tick (life : Life) (os : Os) : Lives life os life os.tick :=
  ⟨[], (List.append_nil _).symm, rfl⟩

end

/-! ## The functions along the life -/

theorem mkdirs_lives (life : Life) : Mkdirs fun os os' => Lives life os life os' where
  refl os := .refl life os
  trans h h' := h.trans h'
  tick os := .tick life os
  mkdir dirname os := .log (by simp) os

/-- The writers stay at the open file. -/
theorem writes_lives (env : Env) : Writes env fun x y =>
    y.1.mdTempfileFd = x.1.mdTempfileFd ∧ y.1.mdTempfilepath = x.1.mdTempfilepath ∧
      Lives (.open_ x.1.mdTempfilepath x.1.mdTempfileFd) x.2
        (.open_ x.1.mdTempfilepath x.1.mdTempfileFd) y.2 where
  refl x := ⟨rfl, rfl, .refl _ _⟩
  trans := by
    rintro x y z ⟨hfd, hpath, h⟩ ⟨hfd', hpath', h'⟩
    rw [hfd, hpath] at h'
    exact ⟨hfd'.trans hfd, hpath'.trans hpath, h.trans h'⟩
  write md text os := by
    unfold Md.write
    cases env.write os.clock text.length with
    | none => exact ⟨rfl, rfl, .tick _ os⟩
    | some n => exact ⟨rfl, rfl, .log (by simp [Life.next]) os⟩
  flags md _ _ _ os := ⟨rfl, rfl, .refl _ _⟩

section
variable {env : Env} {md md' : Md} {os os' : Os}

theorem closeTempfile_lives (env : Env) (os : Os) (hfd : 0 < md.mdTempfileFd) :
    (closeTempfile env md os).1.mdTempfileFd = 0 ∧
    (closeTempfile env md os).1.mdTempfilepath = md.mdTempfilepath ∧
    Lives (.open_ md.mdTempfilepath md.mdTempfileFd) os (.closed md.mdTempfilepath)
      (closeTempfile env md os).2 := by
  have hclose : ∀ os, Lives (.open_ md.mdTempfilepath md.mdTempfileFd) os
      (.closed md.mdTempfilepath) (os.log (.close md.mdTempfileFd)) := .log (by simp [Life.next])
  unfold closeTempfile
  simp only [if_pos hfd]
  cases hcr : md.mdCr with
  | false => exact ⟨trivial, rfl, hclose os⟩
  | true =>
    obtain ⟨hfd', hpath, hl⟩ := (writes_lives env).write md [CR] os
    simp only [if_true]
    refine ⟨trivial, hpath, ?_⟩
    have hfd2 : ((md.write env [CR] os).2.1.setCr false).mdTempfileFd = md.mdTempfileFd := hfd'
    rw [hfd2]
    exact hl.trans (hclose _)

theorem mdMakesavefile_lives (env : Env) (md : Md) (life : Life) (content : Option Str) (filename : Str) :
    ∀ (dirlist : List Str) (os : Os),
      Lives life os life (mdMakesavefile env md content filename dirlist os)
  | [], os => .refl life os
  | dir :: dirlist, os =>
    (Lives.log (by simp) os).trans (mdMakesavefile_lives env md life content filename dirlist _)

theorem storeFile_lives {content : Option Str} {filename : Str} {rc : Rc}
    (h : storeFile env md content filename os = some (rc, md', os')) :
    md' = md ∧ Lives (.closed md.mdTempfilepath) os
      (if rc = .success then .gone else .closed md.mdTempfilepath) os' := by
  unfold storeFile at h
  split at h
  · cases h
  · rename_i list _
    have hdirs := (mkdirs_lives (.closed md.mdTempfilepath)).mdMakedirbylist env md list os
    split at h
    · rename_i os1 heq
      rw [heq] at hdirs
      cases h
      have hlinks := mdMakesavefile_lives env md (.closed md.mdTempfilepath) content filename list
        os1
      exact ⟨rfl, hdirs.trans (hlinks.trans (.log (by simp [Life.next]) _))⟩
    · rename_i rc1 os1 hne heq
      rw [heq] at hdirs
      cases h
      exact ⟨rfl, hdirs⟩
  · cases h
    exact ⟨rfl, .refl _ _⟩

theorem maildropClose_lives {config : Settings} {rc : Rc} (hfd : 0 < md.mdTempfileFd)
    (h : maildropClose env config md os = some (rc, md', os')) :
    md'.mdTempfileFd = 0 ∧ md'.mdTempfilepath = md.mdTempfilepath ∧
      Lives (.open_ md.mdTempfilepath md.mdTempfileFd) os
        (if rc = .success then .gone else .closed md.mdTempfilepath) os' := by
  obtain ⟨hzero, hpath, hl⟩ := closeTempfile_lives env os hfd
  unfold maildropClose at h
  generalize closeTempfile env md os = x at h hzero hpath hl
  obtain ⟨md1, os1⟩ := x
  dsimp only at h hzero hpath hl
  split at h
  · obtain ⟨rfl, hs⟩ := storeFile_lives h
    rw [hpath] at hs
    exact ⟨hzero, hpath, hl.trans ((Lives.tick _ os1).trans hs)⟩
  · cases h
    exact ⟨hzero, hpath, hl.trans (.tick _ os1)⟩

/-- `maildrop_open` makes the file. -/
theorem maildropOpen_lives {config : ModuleConfig} {view : View}
    (h : maildropOpen env config view os = some (some md, os')) :
    ∃ folder, config = .maildrop folder ∧
      md.mdTempfileFd = (env.mkstemp (mdMakemaildir env folder.cfMaildir os).clock).1 ∧
      Lives .unmade os (.open_ md.mdTempfilepath md.mdTempfileFd) os' := by
  cases config with
  | maildrop folder =>
    refine ⟨folder, rfl, ?_⟩
    unfold maildropOpen folderOpen at h
    dsimp only at h
    split at h
    · cases h
    · have hmk := (mkdirs_lives .unmade).mdMakemaildir env folder.cfMaildir os
      unfold mkstemp at h
      dsimp only at h
      split at h
      · cases h
      · cases h
        exact ⟨rfl, hmk.trans (.log rfl _)⟩
  | _ => cases h

end

/-! ## A message -/

/-- How far a message is. -/
inductive Progress
  | running
  | failed
  | ended
  deriving DecidableEq

/-- How far the message is behind a hook that has returned `r`. -/
def HookCall.progress (c : HookCall) (r : Int) : Progress :=
  match c with
  | .abort => .ended
  | .eom => if r = 0 then .ended else .failed
  | _ => if r = 0 then .running else .failed

theorem HookCall.progress_of_opens {c : HookCall} (hc : c.Opens) (r : Int) :
    c.progress r ≠ .ended := by
  cases c with
  | header f v =>
    show (if r = 0 then Progress.running else .failed) ≠ .ended
    split <;> simp
  | body b =>
    show (if r = 0 then Progress.running else .failed) ≠ .ended
    split <;> simp
  | _ => exact hc.elim

/-- The `mkstemp` of the `maildrop_open` that this call makes, if it makes one, returns a
descriptor greater than 0. -/
def FileOpened (env : Env) (view : View) (c : HookCall) (st : HookSt) : Prop :=
  c.Opens → findPriv maildrop.mymodule st.mlfiExtrapriv = none → ∀ folder,
    findConfig maildrop.mymodule view.config.cfExtraconfig = some (.maildrop folder) →
    0 < (env.mkstemp (mdMakemaildir env folder.cfMaildir st.os).clock).1

/-- The hooks called for one message and what they have done. The core calls the abort hook after
a hook that has failed; the client may abort at any time. -/
inductive Message : Progress → HookSt → List Event → Prop
  | start {list : List Extrapriv} {os : Os} : entriesOf maildrop.mymodule list = [] →
      Message .running ⟨list, os⟩ []
  | call {p : Progress} {st st' : HookSt} {out evs : List Event} {env : Env} {view : View}
      {c : HookCall} {r : Int} : Message p st out → p ≠ .ended → (p = .failed → c = .abort) →
      FileOpened env view c st → c.hook env view st = some (r, st') →
      st'.os.out = st.os.out ++ evs → Message (c.progress r) st' (out ++ evs)
  | other {p : Progress} {st : HookSt} {out : List Event} {list : List Extrapriv} {os : Os} :
      Message p st out →
      entriesOf maildrop.mymodule list = entriesOf maildrop.mymodule st.mlfiExtrapriv →
      Message p ⟨list, os⟩ out

/-- The record's descriptor says how far the file is. -/
inductive Follows : Progress → Slot → Life → Prop
  | idle : Follows .running .absent .unmade
  | spooling {p : Progress} {md : Md} : p ≠ .ended → 0 < md.mdTempfileFd →
      Follows p (.spooling md) (.open_ md.mdTempfilepath md.mdTempfileFd)
  | closed {md : Md} : md.mdTempfileFd = 0 →
      Follows .failed (.spooling md) (.closed md.mdTempfilepath)
  | unmade : Follows .ended .absent .unmade
  | gone : Follows .ended .absent .gone

section
variable {p : Progress} {slot slot' : Slot} {life : Life} {env : Env} {view : View} {os os' : Os}
  {r : Int}

/-- A writer opens the file, when there is none, and stays at the open file. -/
theorem Follows.writing {c : HookCall} (hc : c.Opens) (h : Follows p slot life) (hp : p = .running)
    {write : Md → Os → Rc × Md × Os}
    (hw : ∀ md os, (write md os).2.1.mdTempfileFd = md.mdTempfileFd ∧
      (write md os).2.1.mdTempfilepath = md.mdTempfilepath ∧
      Lives (.open_ md.mdTempfilepath md.mdTempfileFd) os
        (.open_ md.mdTempfilepath md.mdTempfileFd) (write md os).2.2)
    (hmade : slot = .absent → ∀ folder, findConfig maildrop.mymodule view.config.cfExtraconfig =
      some (.maildrop folder) →
      0 < (env.mkstemp (mdMakemaildir env folder.cfMaildir os).clock).1)
    (he : maildrop.slotWriting env view write slot os = some (r, slot', os')) :
    ∃ life', Follows (c.progress r) slot' life' ∧ Lives life os life' os' := by
  subst hp
  have hopen := HookCall.progress_of_opens hc r
  have hwrites : ∀ md os1, 0 < md.mdTempfileFd →
      Follows (c.progress r) (.spooling (write md os1).2.1)
        (.open_ md.mdTempfilepath md.mdTempfileFd) := by
    intro md os1 hfd
    obtain ⟨hfd', hpath, -⟩ := hw md os1
    have hspool : 0 < (write md os1).2.1.mdTempfileFd := hfd'.symm ▸ hfd
    have hfollows := Follows.spooling hopen hspool
    rwa [hfd', hpath] at hfollows
  obtain ⟨⟨x, os1⟩, hrec, hx⟩ := Option.map_eq_some_iff.1 he
  cases h with
  | idle =>
    obtain ⟨config, hfind, ho⟩ := Option.bind_eq_some_iff.1 hrec
    cases x with
    | none =>
      obtain ⟨folder, rfl, hneg⟩ := maildropOpen_none ho
      have := hmade rfl folder hfind
      omega
    | some md =>
      obtain ⟨folder, rfl, hfd, hl⟩ := maildropOpen_lives ho
      cases hx
      have hpos : 0 < md.mdTempfileFd := hfd ▸ hmade rfl folder hfind
      exact ⟨_, hwrites md os1 hpos, hl.trans (hw md os1).2.2⟩
  | @spooling _ md _ hfd =>
    cases hrec
    cases hx
    exact ⟨_, hwrites md os hfd, (hw md os).2.2⟩

theorem Follows.eom (h : Follows p slot life) (hp : p = .running)
    (he : maildrop.slotEom env view slot os = some (r, slot', os')) :
    ∃ life', Follows (HookCall.eom.progress r) slot' life' ∧ Lives life os life' os' := by
  subst hp
  cases h with
  | idle =>
    cases he
    exact ⟨_, .unmade, .refl _ _⟩
  | @spooling _ md _ hfd =>
    obtain ⟨⟨rc, md1, os1⟩, hc, hx⟩ := Option.map_eq_some_iff.1 he
    obtain ⟨hzero, hpath, hl⟩ := maildropClose_lives hfd hc
    dsimp only at hx
    by_cases hrc : rc = .success
    · rw [if_pos hrc] at hx hl
      cases hx
      exact ⟨_, .gone, hl⟩
    · rw [if_neg hrc] at hx hl
      cases hx
      have hfollows := Follows.closed hzero
      rw [hpath] at hfollows
      exact ⟨_, hfollows, hl⟩

theorem Follows.abort (h : Follows p slot life) (hp : p ≠ .ended)
    (he : Module.slotAbort slot os = some (r, slot', os')) :
    ∃ life', Follows (HookCall.abort.progress r) slot' life' ∧ Lives life os life' os' := by
  cases h with
  | idle =>
    cases he
    exact ⟨_, .unmade, .refl _ _⟩
  | @spooling _ md _ hfd =>
    cases he
    refine ⟨_, .gone, ?_⟩
    have hclose : Lives (.open_ md.mdTempfilepath md.mdTempfileFd) os (.closed md.mdTempfilepath)
      (os.log (.close md.mdTempfileFd)) := .log (by simp [Life.next]) os
    simp only [abortTempfile, if_pos hfd]
    exact hclose.trans (.log (by simp [Life.next]) _)
  | @closed md hzero =>
    cases he
    refine ⟨_, .gone, ?_⟩
    have hfd : ¬ 0 < md.mdTempfileFd := by omega
    simp only [abortTempfile, if_neg hfd]
    exact .log (by simp [Life.next]) os
  | _ => exact absurd rfl hp

end

/-- **Step.** A hook call takes the file along its life. -/
theorem Follows.call {p : Progress} {slot : Slot} {life : Life} {st st' : HookSt} {env : Env}
    {view : View} {c : HookCall} {r : Int} (h : Follows p slot life)
    (hown : Own maildrop.mymodule slot st.mlfiExtrapriv) (hp : p ≠ .ended)
    (hfailed : p = .failed → c = .abort) (hmade : FileOpened env view c st)
    (he : c.hook env view st = some (r, st')) :
    ∃ slot' life', Own maildrop.mymodule slot' st'.mlfiExtrapriv ∧
      Follows (c.progress r) slot' life' ∧ Lives life st.os life' st'.os := by
  have hcall : c.hook env view st = maildrop.onList st (maildrop.slotCall env view c slot st.os) := by
    rw [← Module.call_eq env view hown c]
    cases c <;> rfl
  rw [hcall] at he
  obtain ⟨⟨n, slot', os'⟩, hslot, hst⟩ := Option.map_eq_some_iff.1 he
  cases hst
  have hrun : c ≠ .abort → p = .running := by
    intro hne
    cases p with
    | running => rfl
    | failed => exact absurd (hfailed rfl) hne
    | ended => exact absurd rfl hp
  have hfile : c.Opens → slot = .absent → ∀ folder,
      findConfig maildrop.mymodule view.config.cfExtraconfig = some (.maildrop folder) →
      0 < (env.mkstemp (mdMakemaildir env folder.cfMaildir st.os).clock).1 := by
    rintro hopens rfl
    exact hmade hopens (by rw [hown.find]; rfl)
  obtain ⟨life', hfollows, hl⟩ : ∃ life', Follows (c.progress r) slot' life' ∧
      Lives life st.os life' os' := by
    cases c with
    | header f v =>
      exact h.writing (c := .header f v) trivial (hrun (by simp))
        (fun md os => (writes_lives env).writeHeader md f v os) (hfile trivial) hslot
    | body b =>
      exact h.writing (c := .body b) trivial (hrun (by simp))
        (fun md os => (writes_lives env).writeBody md b os) (hfile trivial) hslot
    | eom => exact h.eom (hrun (by simp)) hslot
    | abort => exact h.abort hp hslot
  exact ⟨slot', life', hown.place slot', hfollows, hl⟩

/-- **Run.** -/
theorem Message.follows {p : Progress} {st : HookSt} {out : List Event} (h : Message p st out) :
    ∃ slot life, Own maildrop.mymodule slot st.mlfiExtrapriv ∧ Follows p slot life ∧
      out.foldlM Life.next .unmade = some life := by
  induction h with
  | start he => exact ⟨.absent, .unmade, he, .idle, rfl⟩
  | call _ hp hfailed hmade hc hout ih =>
    obtain ⟨slot, life, hown, hfollows, hrun⟩ := ih
    obtain ⟨slot', life', hown', hfollows', evs', hout', hrun'⟩ :=
      hfollows.call hown hp hfailed hmade hc
    obtain rfl := List.append_cancel_left (hout.symm.trans hout')
    refine ⟨slot', life', hown', hfollows', ?_⟩
    rw [List.foldlM_append, hrun]
    exact hrun'
  | other _ he ih =>
    obtain ⟨slot, life, hown, h⟩ := ih
    exact ⟨slot, life, he.trans hown, h⟩

/-- **The temporary file's lifetime.** When the message has ended, its entry is off the list, and a
file that was made has been closed once, after its last write, and its name is unlinked. -/
theorem tempfile_lifetime {st : HookSt} {out : List Event} (h : Message .ended st out) :
    entriesOf maildrop.mymodule st.mlfiExtrapriv = [] ∧
    ∀ before path fd after, out = before ++ .mkstemp path fd :: after →
      ∃ upto rest, after = upto ++ .close fd :: rest ∧ .close fd ∉ upto ∧ .close fd ∉ rest ∧
        (∀ text, .write fd text ∉ rest) ∧ .unlink path ∈ rest := by
  obtain ⟨slot, life, hown, hfollows, hrun⟩ := h.follows
  have hslot : slot = .absent := by
    cases hfollows with
    | spooling hp _ => exact absurd rfl hp
    | _ => rfl
  subst hslot
  refine ⟨hown, fun before path fd after hout => ?_⟩
  subst hout
  rw [List.foldlM_append] at hrun
  obtain ⟨life1, -, hrun1⟩ := Option.bind_eq_some_iff.1 hrun
  rw [List.foldlM_cons] at hrun1
  obtain ⟨life2, hnext, hrun2⟩ := Option.bind_eq_some_iff.1 hrun1
  obtain rfl := Life.next_mkstemp hnext
  have hgone : life = .gone := by
    cases hfollows with
    | unmade => cases Life.run_unmade hrun2
    | gone => rfl
  subst hgone
  obtain ⟨upto, rest, rfl, hupto, hrest⟩ := Life.over_open hrun2
  obtain ⟨hunlink, hwrite, hclose⟩ := Life.over_closed hrest
  exact ⟨upto, rest, rfl, hupto, hclose fd, hwrite fd, hunlink⟩

/-- A header is written, the stat at the end of the message fails, and the core aborts. -/
theorem tempfile_lifetime_abort : ∃ st out, Message .ended st out ∧
    entriesOf maildrop.mymodule st.mlfiExtrapriv = [] ∧
    ∀ before path fd after, out = before ++ .mkstemp path fd :: after →
      ∃ upto rest, after = upto ++ .close fd :: rest ∧ .close fd ∉ upto ∧ .close fd ∉ rest ∧
        (∀ text, .write fd text ∉ rest) ∧ .unlink path ∈ rest := by
  have hmade : ∀ env c st, env.mkstemp = Env.fine.mkstemp → FileOpened env exampleView c st := by
    intro env c st he _ _ folder _
    rw [he]
    exact show (0 : Int) < 3 by decide
  have h0 : Message .running ⟨[], .start⟩ [] := .start rfl
  have h1 := h0.call (by simp) (by simp) (hmade .fine _ _ rfl)
    (rfl : HookCall.hook (.header (bytes "a") (some (bytes "b"))) .fine exampleView _ = some (0, _))
    rfl
  have h2 := h1.call (by decide) (by decide)
    (hmade { Env.fine with stat := fun _ _ => .failed } .eom _ rfl)
    (rfl : HookCall.hook .eom { Env.fine with stat := fun _ _ => .failed } exampleView _ =
      some (-1, _)) rfl
  have h3 := h2.call (by decide) (by decide) (hmade .fine _ _ rfl)
    (rfl : HookCall.hook .abort .fine exampleView _ = some (0, _)) rfl
  exact ⟨_, _, h3, tempfile_lifetime h3⟩

end Messasy
