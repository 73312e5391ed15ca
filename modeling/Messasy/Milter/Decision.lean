import Messasy.Milter.Pass
import Messasy.Module.Deposit
import Messasy.Module.LdaCommand

/-!
# The archiving decision

When the directory answers and every file and module operation succeeds, a message is stored in
the folders of the addresses that the filter selects, unless one of its headers is ignored. The
save list is made by the first header, so a message without a header is not stored at all; and
two kinds of input leave the callbacks undefined (`Mail.Decided`).
-/

namespace Messasy

open Lib

/-- The line `name: value` matches `SaveIgnoreHeader`. -/
def lineIgnored (cfg : Settings) (h : Str × Option Str) : Bool :=
  match cfg.cfSaveignoreheaderRegex with
  | none => false
  | some preg => preg (h.1 ++ bytes ": " ++ h.2.getD [])

/-- A header of the message is ignored. -/
def Mail.ignored (m : Mail) (cfg : Settings) : Bool := m.headers.any (lineIgnored cfg)

/-- A filter text is loaded, or no candidate of the message is looked up. -/
def Mail.Searchable (m : Mail) (cfg : Settings) : Prop :=
  cfg.cfLdapmailfilter ≠ none ∨
    routed cfg .ldap (candidates cfg (getAddrpart m.envfrom) (m.rcptto.map getAddrpart)) = []

instance (m : Mail) (cfg : Settings) : Decidable (m.Searchable cfg) :=
  inferInstanceAs (Decidable (_ ∨ _))

/-- What `make_savelist` selects for the message's envelope; it selects nothing when it has to
search without a filter text. -/
def Mail.selected (m : Mail) (cfg : Settings) (answer : Nat → Str → Nat) : List Str :=
  if m.Searchable cfg then
    selection cfg answer (getAddrpart m.envfrom) (m.rcptto.map getAddrpart)
  else []

/-- The inputs on which the decision is made as it should be. -/
def Mail.Decided (m : Mail) (cfg : Settings) (answer : Nat → Str → Nat) : Prop :=
  (m.headers = [] → m.selected cfg answer = []) ∧
  ((∃ h ∈ m.headers.head?, lineIgnored cfg h = false) → m.Searchable cfg) ∧
  (m.ignored cfg = false → ∀ a ∈ m.selected cfg answer, FitsMailaddr a)

/-- The archive files that the replies tell of: one in each of the folders, under one name. -/
def Stores (replies : List Reply) (dirs : List Str) : Prop :=
  ∃ filename : Str, bytes "/new/" <+: filename ∧
    (replies.flatMap fun r => (archived r.out).map (·.1)).Nodup ∧
    ∀ p, p ∈ (replies.flatMap fun r => (archived r.out).map (·.1)) ↔
      ∃ d ∈ dirs, p = d ++ filename

/-- What the hooks see during the message: the matched addresses are those that the first header has
selected, or none before it. -/
def Mail.Sees (m : Mail) (cfg : Settings) (answer : Nat → Str → Nat) (view : View) : Prop :=
  view.config = cfg ∧ view.mlfiEnvfrom = some (getAddrpart m.envfrom) ∧
    view.mlfiRcptto = some (m.rcptto.map getAddrpart) ∧
    (view.mlfiAddrmatched = some [] ∨ view.mlfiAddrmatched = some (m.selected cfg answer))

/-- The directory answers, the file operations succeed, and so do the other modules. -/
structure Env.Succeeds (cfg : Settings) (m : Mail) (folder : FolderConfig) (lt : Nat → Tm)
    (answer : Nat → Str → Nat) (Ok : Env → View → Prop) (env : Env) : Prop where
  files : env.Files folder lt
  ldap : env.ldap = .answering answer
  modules : ∀ view, m.Sees cfg answer view → Ok env view

theorem ignoreHeader_eq {cfg : Settings} {h : Str × Option Str} (hv : h.2 ≠ none) :
    ignoreHeader cfg h.1 h.2 = some (if lineIgnored cfg h then .positive else .success) := by
  obtain ⟨v, hv⟩ := Option.ne_none_iff_exists'.1 hv
  unfold ignoreHeader lineIgnored
  rw [hv]
  cases cfg.cfSaveignoreheaderRegex with
  | none => rfl
  | some preg =>
    simp only [checkHeaderRegex, Option.getD_some]
    split <;> rfl

/-! ## maildrop's slot when the file operations succeed -/

/-- The slot holds a record with the folder's settings and these save addresses; with no address
it may be empty. -/
def Slot.Filed (folder : FolderConfig) (t : Nat) (saveaddr : List Str) : Slot → Prop
  | .absent => saveaddr = []
  | .spooling md => md.Filed folder t saveaddr
  | .dangling => False

section
variable {folder : FolderConfig} {lt : Nat → Tm} {env : Env} {view : View} {slot : Slot} {os : Os}
  {rcpts saveaddr : List Str}

/-- A writing hook succeeds and leaves a record. -/
theorem Slot.Filed.writing (henv : env.Files folder lt)
    (hconf : findConfig maildrop.mymodule view.config.cfExtraconfig = some (.maildrop folder))
    (hto : view.mlfiRcptto = some rcpts) (hne : rcpts ≠ [])
    (ha : view.mlfiAddrmatched = some saveaddr) {write : Md → Os → Rc × Md × Os}
    (hw : ∀ md os, (write md os).1 = .success) (hk : ∀ md os, (write md os).2.1.core = md.core)
    (h : slot = .absent ∨ slot.Filed folder view.mlfiRecvtime saveaddr) (os : Os) :
    ∃ slot' os', maildrop.slotWriting env view write slot os = some (0, slot', os') ∧
      slot'.Filed folder view.mlfiRecvtime saveaddr := by
  have hrec : ∃ md os1, maildrop.slotRecord env view slot os = some (some md, os1) ∧
      md.Filed folder view.mlfiRecvtime saveaddr := by
    cases slot with
    | absent =>
      obtain ⟨md, os1, ho, hmd⟩ := folderOpen_some hto hne ha henv.mkstemp os
      exact ⟨md, os1, by simp only [Module.slotRecord, hconf, Option.bind_some]; exact ho,
        hmd.filed ha⟩
    | spooling md => exact ⟨md, os, rfl, h.resolve_left (by simp)⟩
    | dangling => exact (h.resolve_left (by simp)).elim
  obtain ⟨md, os1, he, hmd⟩ := hrec
  refine ⟨.spooling (write md os1).2.1, (write md os1).2.2, ?_, hmd.congr (hk md os1)⟩
  simp only [Module.slotWriting, he, Option.map_some, hw, if_true]

/-- A hook of the header or the body succeeds. -/
theorem Slot.Filed.call (view : View) (henv : env.Files folder lt)
    (hconf : findConfig maildrop.mymodule view.config.cfExtraconfig = some (.maildrop folder))
    (hto : view.mlfiRcptto = some rcpts) (hne : rcpts ≠ [])
    (ha : view.mlfiAddrmatched = some saveaddr) {c : HookCall} (hc : c ≠ .eom ∧ c ≠ .abort)
    (h : slot = .absent ∨ slot.Filed folder view.mlfiRecvtime saveaddr) (os : Os) :
    ∃ slot' os', maildrop.slotCall env view c slot os = some (0, slot', os') ∧
      slot'.Filed folder view.mlfiRecvtime saveaddr ∧ os'.archived = os.archived := by
  have hcall : ∃ slot' os', maildrop.slotCall env view c slot os = some (0, slot', os') ∧
      slot'.Filed folder view.mlfiRecvtime saveaddr := by
    cases c with
    | header f v =>
      exact Slot.Filed.writing henv hconf hto hne ha
        (fun md os => writeHeader_success henv.write md f v os)
        (fun md os => (writeHeader_kept env md f v os).core) h os
    | body b =>
      exact Slot.Filed.writing henv hconf hto hne ha
        (fun md os => writeBody_success henv.write md b os)
        (fun md os => (writeBody_kept env md b os).core) h os
    | eom => exact absurd rfl hc.1
    | abort => exact absurd rfl hc.2
  obtain ⟨slot', os', he, hf⟩ := hcall
  exact ⟨slot', os', he, hf,
    Os.archived_congr (Module.slotCall_links maildrop_opensQuietly hc.1 he)⟩

/-- The end of the message, when every address fits. -/
theorem Slot.Filed.eom (view : View) (henv : env.Files folder lt) (hf : folder.Loaded)
    (h : slot.Filed folder view.mlfiRecvtime saveaddr)
    (hl : ∀ a ∈ saveaddr, FitsMailaddr a) (os : Os) :
    ∃ (os' : Os) (filename text : Str) (dirs : List Str),
      maildrop.slotCall env view .eom slot os = some (0, .absent, os') ∧
      bytes "/new/" <+: filename ∧ dirs.Nodup ∧
      (∀ p, p ∈ dirs ↔ ∃ a ∈ saveaddr, p = archiveFolder folder (lt view.mlfiRecvtime) a) ∧
      os'.archived = os.archived ++ dirs.map fun dir => (dir ++ filename, text) := by
  cases slot with
  | absent =>
    obtain rfl : saveaddr = [] := h
    exact ⟨os, bytes "/new/", [], [], rfl, List.prefix_refl _, List.nodup_nil, by simp, by simp⟩
  | spooling md =>
    obtain ⟨md', os', filename, text, dirs, he, hn, hd, hmem, harch⟩ :=
      maildropClose_stores henv hf h hl
    refine ⟨os', filename, text, dirs, ?_, hn, hd, hmem, harch⟩
    have hclose : maildrop.close env view.config md os = some (.success, md', os') := he
    simp only [Module.slotCall, Module.slotEom, hclose, Option.map_some, if_true]
  | dangling => exact h.elim

/-- An address that does not fit. -/
theorem Slot.Filed.eom_long (view : View) (henv : env.Files folder lt)
    (h : slot.Filed folder view.mlfiRecvtime saveaddr)
    (hl : ∃ a ∈ saveaddr, ¬ FitsMailaddr a) (os : Os) :
    maildrop.slotCall env view .eom slot os = none := by
  cases slot with
  | absent =>
    obtain rfl : saveaddr = [] := h
    obtain ⟨a, ha, -⟩ := hl
    cases ha
  | spooling md =>
    have hclose : maildrop.close env view.config md os = none :=
      maildropClose_long henv h hl
    simp only [Module.slotCall, Module.slotEom, hclose, Option.map_none]
  | dangling => exact h.elim

end

/-! ## The replies -/

section
variable {replies rs : List Reply} {dirs : List Str}

/-- Replies without archive files do not count. -/
theorem stores_append (hq : ∀ r ∈ rs, archived r.out = []) :
    Stores (rs ++ replies) dirs ↔ Stores replies dirs := by
  have hnil : (rs.flatMap fun r => (archived r.out).map (·.1)) = [] :=
    List.flatMap_eq_nil_iff.2 fun r hr => by rw [hq r hr]; rfl
  unfold Stores
  rw [List.flatMap_append, hnil, List.nil_append]

theorem stores_nil (h : ∀ r ∈ replies, archived r.out = []) : Stores replies dirs ↔ dirs = [] := by
  have hnil : (replies.flatMap fun r => (archived r.out).map (·.1)) = [] :=
    List.flatMap_eq_nil_iff.2 fun r hr => by rw [h r hr]; rfl
  constructor
  · rintro ⟨filename, -, -, hmem⟩
    rw [hnil] at hmem
    cases dirs with
    | nil => rfl
    | cons d dirs => exact absurd ((hmem (d ++ filename)).2 ⟨d, List.mem_cons_self, rfl⟩) (by simp)
  · rintro rfl
    exact ⟨bytes "/new/", List.prefix_refl _, by rw [hnil]; exact List.nodup_nil, by simp [hnil]⟩

end

/-- The rest of a message comes to a result that stores in these folders. -/
def Results (r : Option (List Reply × Option Session)) (dirs : List Str) : Prop :=
  ∃ replies x, r = some (replies, x) ∧ Stores replies dirs

section
variable {r : Option (List Reply × Option Session)} {dirs : List Str} {rs : List Reply}

theorem results_map (hq : ∀ reply ∈ rs, archived reply.out = []) :
    Results (r.map fun (replies, x) => (rs ++ replies, x)) dirs ↔ Results r dirs := by
  constructor
  · rintro ⟨replies, x, he, hs⟩
    obtain ⟨⟨replies', x'⟩, rfl, hx⟩ := Option.map_eq_some_iff.1 he
    cases hx
    exact ⟨replies', _, rfl, (stores_append hq).1 hs⟩
  · rintro ⟨replies, x, rfl, hs⟩
    exact ⟨rs ++ replies, x, rfl, (stores_append hq).2 hs⟩

/-- A result that stores nowhere stores in no other list of folders. -/
theorem Results.nil (h : Results r []) : Results r dirs ↔ dirs = [] := by
  obtain ⟨replies, x, rfl, filename, hn, hd, hmem⟩ := h
  have hall : ∀ reply ∈ replies, archived reply.out = [] := by
    intro reply hr
    refine List.eq_nil_iff_forall_not_mem.2 fun p hp => ?_
    have hp' := (hmem p.1).1 (List.mem_flatMap.2 ⟨reply, hr, List.mem_map_of_mem hp⟩)
    obtain ⟨d, hd, -⟩ := hp'
    cases hd
  constructor
  · rintro ⟨replies', x', he, hs⟩
    cases he
    exact (stores_nil hall).1 hs
  · intro hdirs
    exact ⟨replies, x, rfl, (stores_nil hall).2 hdirs⟩

variable {cfg : Config} {t : Nat} {env : Env} {cb : Callback} {calls : List (Env × Callback)}
  {s : Session} {reply : Reply}

/-- A callback that goes on does not count. -/
theorem results_goes {s1 : Session} (hst : s.step cfg t env cb = some (reply, some s1))
    (hr : reply.stat = .continue_) (hq : archived reply.out = []) :
    Results (s.deliver cfg t ((env, cb) :: calls)) dirs ↔ Results (s1.deliver cfg t calls) dirs := by
  have he : s.deliver cfg t ((env, cb) :: calls) =
      (s1.deliver cfg t calls).map fun (replies, x) => ([reply] ++ replies, x) := by
    simp only [Session.deliver, hst, if_pos hr]
    rfl
  rw [he]
  exact results_map (by simpa using hq)

/-- A callback that stops the message leaves it unstored. -/
theorem results_stops {s1 : Session} (hst : s.step cfg t env cb = some (reply, some s1))
    (hr : reply.stat ≠ .continue_) (hq : archived reply.out = []) :
    Results (s.deliver cfg t ((env, cb) :: calls)) dirs ↔ dirs = [] := by
  have hnil : Results (s.deliver cfg t ((env, cb) :: calls)) [] := by
    refine ⟨[reply], some s1, ?_, (stores_nil (by simpa using hq)).2 rfl⟩
    simp only [Session.deliver, hst, if_neg hr]
  exact hnil.nil

theorem results_none (hst : s.step cfg t env cb = none) :
    ¬ Results (s.deliver cfg t ((env, cb) :: calls)) dirs := by
  rintro ⟨replies, x, he, -⟩
  simp only [Session.deliver, hst] at he
  cases he

end

/-! ## The session during the message -/

section
variable {cfg : Config} {m : Mail} {folder : FolderConfig} {lt : Nat → Tm}
  {answer : Nat → Str → Nat} {I : List Extrapriv → Prop} {Ok : Env → View → Prop}

/-- The session behind the envelope so far. -/
structure Session.Enveloped (m : Mail) (I : List Extrapriv → Prop) (rcpts : List Str)
    (s : Session) : Prop where
  envfrom : s.envfrom = some (getAddrpart m.envfrom)
  rcptto : s.rcptto = rcpts.map getAddrpart
  headerExistence : s.headerExistence = false
  addrmatched : s.addrmatched = []
  list : I s.extrapriv
  own : Own maildrop.mymodule .absent s.extrapriv

/-- The session behind a header or body callback, with these save addresses. -/
structure Session.Filing (m : Mail) (folder : FolderConfig) (t : Nat) (I : List Extrapriv → Prop)
    (selected saveaddr : List Str) (s : Session) : Prop where
  selected : saveaddr = [] ∨ saveaddr = selected
  envfrom : s.envfrom = some (getAddrpart m.envfrom)
  rcptto : s.rcptto = m.rcptto.map getAddrpart
  headerExistence : saveaddr ≠ [] → s.headerExistence = true
  addrmatched : s.addrmatched = saveaddr
  list : I s.extrapriv
  slot : ∃ slot : Slot, Own maildrop.mymodule slot s.extrapriv ∧ slot.Filed folder t saveaddr

theorem Session.Enveloped.filing {s : Session} (h : s.Enveloped m I m.rcptto)
    (folder : FolderConfig) (t : Nat) (selected : List Str) :
    s.Filing m folder t I selected [] :=
  ⟨.inl rfl, h.envfrom, h.rcptto, fun h => absurd rfl h, h.addrmatched, h.list, .absent, h.own, rfl⟩

theorem Session.Filing.addrmatched_cases {s : Session} {t : Nat} {selected saveaddr : List Str}
    (h : s.Filing m folder t I selected saveaddr) :
    s.addrmatched = [] ∨ s.addrmatched = selected := by
  rw [h.addrmatched]
  exact h.selected

variable (hruns : cfg.Runs maildrop Os.archived I Ok)
  (hconf : findConfig maildrop.mymodule cfg.cfExtraconfig = some (.maildrop folder))
  (hrcptto : m.rcptto ≠ []) {t : Nat} {env : Env} {s : Session} {saveaddr : List Str}
include hruns

omit hruns in
theorem Session.sees (hfrom : s.envfrom = some (getAddrpart m.envfrom))
    (hto : s.rcptto = m.rcptto.map getAddrpart)
    (hsel : s.addrmatched = [] ∨ s.addrmatched = m.selected cfg.toSettings answer) :
    m.Sees cfg.toSettings answer (s.view cfg t) :=
  ⟨rfl, hfrom, congrArg some hto, hsel.imp (congrArg some) (congrArg some)⟩

/-- A pass of the header or the body succeeds. -/
theorem Session.pass_files (henv : env.Succeeds cfg.toSettings m folder lt answer Ok)
    (hconf : findConfig maildrop.mymodule cfg.cfExtraconfig = some (.maildrop folder))
    (hrcptto : m.rcptto ≠ []) (hfrom : s.envfrom = some (getAddrpart m.envfrom))
    (hto : s.rcptto = m.rcptto.map getAddrpart)
    (hsel : s.addrmatched = [] ∨ s.addrmatched = m.selected cfg.toSettings answer)
    (hI : I s.extrapriv) {slot : Slot} (hown : Own maildrop.mymodule slot s.extrapriv)
    (hslot : slot = .absent ∨ slot.Filed folder t s.addrmatched) {c : HookCall}
    (hc : c ≠ .eom ∧ c ≠ .abort) :
    ∃ list os', s.pass cfg t env c .start = some (0, { s with extrapriv := list }, os') ∧
      os'.archived = [] ∧ I list ∧
      ∃ slot' : Slot, Own maildrop.mymodule slot' list ∧ slot'.Filed folder t s.addrmatched := by
  obtain ⟨os1, hg, -, hsome⟩ := pass_runs hruns (henv.modules _ (sees hfrom hto hsel)) hI hown c
    .start
  obtain ⟨slot', os2, he, hf, harch⟩ := Slot.Filed.call (s.view cfg t) henv.files hconf
    (congrArg some hto) (by simpa using hrcptto) rfl hc hslot os1
  obtain ⟨list, os', hp, hI', hown', hg'⟩ := hsome slot' os2 he
  exact ⟨list, os', hp, by rw [hg', harch, hg]; rfl, hI', slot', hown', hf⟩

/-- An abort succeeds and archives nothing. -/
theorem Session.aborted_files (henv : env.Succeeds cfg.toSettings m folder lt answer Ok)
    (hfrom : s.envfrom = some (getAddrpart m.envfrom)) (hto : s.rcptto = m.rcptto.map getAddrpart)
    (hsel : s.addrmatched = [] ∨ s.addrmatched = m.selected cfg.toSettings answer)
    (hI : I s.extrapriv) {slot : Slot} (hown : Own maildrop.mymodule slot s.extrapriv)
    (hslot : slot ≠ .dangling) (r : Sfsistat) :
    ∃ reply s', s.aborted cfg t env (some r) .start = some (reply, some s') ∧ reply.stat = r ∧
      archived reply.out = [] := by
  obtain ⟨os1, hg, -, hsome⟩ := pass_runs hruns (henv.modules _ (sees hfrom hto hsel)) hI hown
    .abort .start
  have habort : ∃ os2, maildrop.slotCall env (s.view cfg t) .abort slot os1 =
      some (0, .absent, os2) := by
    cases slot with
    | absent => exact ⟨_, rfl⟩
    | spooling md => exact ⟨_, rfl⟩
    | dangling => exact (hslot rfl).elim
  obtain ⟨os2, he⟩ := habort
  have harch := Os.archived_congr (Module.slotCall_links maildrop_opensQuietly (by simp) he)
  obtain ⟨list, os', hp, -, -, hg'⟩ := hsome .absent os2 he
  refine ⟨_, _, by simp only [Session.aborted, hp, Option.map_some, if_true]; rfl, rfl, ?_⟩
  show os'.archived = []
  rw [hg', harch, hg]
  rfl

variable (hconf : findConfig maildrop.mymodule cfg.cfExtraconfig = some (.maildrop folder))
  (hrcptto : m.rcptto ≠ []) (henv : env.Succeeds cfg.toSettings m folder lt answer Ok)
include hconf hrcptto henv

/-- A header or a chunk goes on. -/
theorem Session.Filing.goes
    (h : s.Filing m folder t I (m.selected cfg.toSettings answer) saveaddr) {c : HookCall}
    (hc : c ≠ .eom ∧ c ≠ .abort)
    (hst : s.step cfg t env c.callback = s.passing cfg t env c id .start) :
    ∃ reply s1, s.step cfg t env c.callback = some (reply, some s1) ∧ reply.stat = .continue_ ∧
      archived reply.out = [] ∧
      s1.Filing m folder t I (m.selected cfg.toSettings answer) saveaddr := by
  obtain ⟨slot, hown, hslot⟩ := h.slot
  obtain ⟨list, os', hp, hq, hI, slot', hown', hslot'⟩ := pass_files hruns henv hconf hrcptto
    h.envfrom h.rcptto h.addrmatched_cases h.list hown
    (.inr (by rw [h.addrmatched]; exact hslot)) hc
  rw [h.addrmatched] at hslot'
  refine ⟨⟨.continue_, os'.out⟩, { s with extrapriv := list }, ?_, rfl, hq, h.selected,
    h.envfrom, h.rcptto, h.headerExistence, h.addrmatched, hI, slot', hown', hslot'⟩
  rw [hst, Session.passing, hp]
  rfl

theorem Session.Filing.header
    (h : s.Filing m folder t I (m.selected cfg.toSettings answer) saveaddr) (hne : saveaddr ≠ [])
    {x : Str × Option Str} (hv : x.2 ≠ none) (hx : lineIgnored cfg.toSettings x = false) :
    ∃ reply s1, s.step cfg t env (.header x.1 x.2) = some (reply, some s1) ∧
      reply.stat = .continue_ ∧ archived reply.out = [] ∧
      s1.Filing m folder t I (m.selected cfg.toSettings answer) saveaddr := by
  refine h.goes hruns hconf hrcptto henv (c := .header x.1 x.2) ⟨by simp, by simp⟩ ?_
  have hi : ignoreHeader cfg.toSettings x.1 x.2 = some .success := by
    rw [ignoreHeader_eq hv, hx]
    rfl
  simp only [HookCall.callback, Session.step, hi, h.headerExistence hne, if_true]

theorem Session.Filing.body
    (h : s.Filing m folder t I (m.selected cfg.toSettings answer) saveaddr) (b : Str) :
    ∃ reply s1, s.step cfg t env (.body b) = some (reply, some s1) ∧
      reply.stat = .continue_ ∧ archived reply.out = [] ∧
      s1.Filing m folder t I (m.selected cfg.toSettings answer) saveaddr :=
  h.goes hruns hconf hrcptto henv (c := .body b) ⟨by simp, by simp⟩ rfl

omit hconf hrcptto in
/-- An ignored header ends the message. -/
theorem Session.Filing.header_ignored
    (h : s.Filing m folder t I (m.selected cfg.toSettings answer) saveaddr)
    {x : Str × Option Str} (hv : x.2 ≠ none) (hx : lineIgnored cfg.toSettings x = true) :
    ∃ reply s1, s.step cfg t env (.header x.1 x.2) = some (reply, some s1) ∧
      reply.stat = .accept ∧ archived reply.out = [] := by
  obtain ⟨slot, hown, hslot⟩ := h.slot
  have hi : ignoreHeader cfg.toSettings x.1 x.2 = some .positive := by
    rw [ignoreHeader_eq hv, hx]
    rfl
  simp only [Session.step, hi]
  have hd : slot ≠ .dangling := by
    rintro rfl
    exact hslot
  exact aborted_files hruns henv h.envfrom h.rcptto h.addrmatched_cases h.list hown hd .accept

omit hconf hrcptto in
/-- **The end of the message** stores it in the folder of every save address. -/
theorem Session.Filing.eom (hf : folder.Loaded)
    (h : s.Filing m folder t I (m.selected cfg.toSettings answer) saveaddr) :
    Results (s.deliver cfg t [(env, .eom)]) (saveaddr.map (archiveFolder folder (lt t))) ↔
      ∀ a ∈ saveaddr, FitsMailaddr a := by
  obtain ⟨slot, hown, hslot⟩ := h.slot
  have hsees := Session.sees (t := t) h.envfrom h.rcptto h.addrmatched_cases
  obtain ⟨os1, hg, hnone, hsome⟩ := pass_runs hruns (henv.modules _ hsees) h.list hown .eom .start
  by_cases hl : ∀ a ∈ saveaddr, FitsMailaddr a
  · refine iff_of_true ?_ hl
    obtain ⟨os2, filename, text, dirs, he, hn, hd, hmem, harch⟩ :=
      Slot.Filed.eom (s.view cfg t) henv.files hf hslot hl os1
    obtain ⟨list, os', hp, -, -, hg'⟩ := hsome .absent os2 he
    have hout : (archived os'.out).map (·.1) = dirs.map (· ++ filename) := by
      rw [show archived os'.out = os2.archived from hg', harch, hg]
      simp [Os.archived, Os.start, archived]
    have hst : s.step cfg t env .eom =
        some (⟨.continue_, os'.out⟩, some { s with extrapriv := list }.ended) := by
      simp only [Session.step, Session.passing, hp]
      rfl
    refine ⟨[⟨.continue_, os'.out⟩], _, by simp only [Session.deliver, hst]; rfl, filename, hn, ?_⟩
    simp only [List.flatMap_cons, List.flatMap_nil, List.append_nil, hout]
    refine ⟨List.Pairwise.map _ (fun a b hab he => hab (List.append_cancel_right he)) hd,
      fun p => ?_⟩
    simp only [List.mem_map, hmem]
    constructor
    · rintro ⟨d, ⟨a, ha, rfl⟩, rfl⟩
      exact ⟨_, ⟨a, ha, rfl⟩, rfl⟩
    · rintro ⟨d, ⟨a, ha, rfl⟩, rfl⟩
      exact ⟨_, ⟨a, ha, rfl⟩, rfl⟩
  · refine iff_of_false (results_none ?_) hl
    push Not at hl
    have hlong := Slot.Filed.eom_long (s.view cfg t) henv.files hslot hl os1
    simp only [Session.step, Session.passing, hnone hlong, Option.bind_none]

end

/-! ## The first header -/

section
variable {cfg : Config} {m : Mail} {env : Env} {s : Session} {answer : Nat → Str → Nat}
  (hfrom : s.envfrom = some (getAddrpart m.envfrom)) (hto : s.rcptto = m.rcptto.map getAddrpart)
  (hldap : env.ldap = .answering answer)
include hfrom hto hldap

theorem Session.filtered_searchable (h : m.Searchable cfg.toSettings) :
    s.filtered cfg env = .selected (m.selected cfg.toSettings answer) := by
  unfold Session.filtered Mail.selected
  rw [hfrom, hto, hldap, if_pos h]
  exact filtered_answering answer h

theorem Session.filtered_unsearchable (h : ¬ m.Searchable cfg.toSettings) :
    s.filtered cfg env = .undefined := by
  obtain ⟨hnull, hne⟩ := not_or.1 h
  unfold Session.filtered Messasy.filtered
  rw [hfrom, hto, hldap]
  obtain ⟨a, l, hl⟩ := List.exists_cons_of_ne_nil hne
  simp only [hl, lookedUp, not_not.1 hnull]
  rfl

end

/-! ## The whole message -/

section
variable {cfg : Config} {m : Mail} {folder : FolderConfig} {lt : Nat → Tm}
  {answer : Nat → Str → Nat} {I : List Extrapriv → Prop} {Ok : Env → View → Prop}
  (hruns : cfg.Runs maildrop Os.archived I Ok)
  (hconf : findConfig maildrop.mymodule cfg.cfExtraconfig = some (.maildrop folder))
  (hf : folder.Loaded) (hrcptto : m.rcptto ≠ []) {t : Nat} {s : Session} {saveaddr : List Str}
  {calls : List (Env × Callback)}
  (henv : ∀ c ∈ calls, c.1.Succeeds cfg.toSettings m folder lt answer Ok)
include hruns hconf hf hrcptto henv

/-- From the first chunk on. -/
theorem Session.Filing.chunks
    (h : s.Filing m folder t I (m.selected cfg.toSettings answer) saveaddr)
    (hcalls : calls.map Prod.snd = m.chunks.map .body ++ [.eom]) :
    Results (s.deliver cfg t calls) (saveaddr.map (archiveFolder folder (lt t))) ↔
      ∀ a ∈ saveaddr, FitsMailaddr a := by
  obtain ⟨calls2, s2, replies1, hc2, hE2, hJ2, hq, he⟩ := deliver_goes Callback.body
    (J := fun _ s => s.Filing m folder t I (m.selected cfg.toSettings answer) saveaddr)
    (D := fun _ => True)
    (E := Env.Succeeds cfg.toSettings m folder lt answer Ok)
    (Q := fun reply => archived reply.out = [])
    (fun henv _ hJ => hJ.body hruns hconf hrcptto henv _) m.chunks []
    (fun _ _ => trivial) hcalls henv h
  rw [he, results_map hq]
  match calls2, hc2 with
  | [(env, cb)], hc =>
    obtain rfl : cb = .eom := by simpa using hc
    exact hJ2.eom hruns (hE2 _ List.mem_cons_self) hf

/-- From the second header on. -/
theorem Session.Filing.headers (hne : saveaddr ≠ []) {headers : List (Str × Option Str)}
    (hv : ∀ x ∈ headers, x.2 ≠ none)
    (h : s.Filing m folder t I (m.selected cfg.toSettings answer) saveaddr)
    (hcalls : calls.map Prod.snd =
      headers.map (fun x => .header x.1 x.2) ++ (m.chunks.map .body ++ [.eom])) :
    Results (s.deliver cfg t calls) (if headers.any (lineIgnored cfg.toSettings) then [] else
      saveaddr.map (archiveFolder folder (lt t))) ↔
      (headers.any (lineIgnored cfg.toSettings) = false →
        ∀ a ∈ saveaddr, FitsMailaddr a) := by
  induction headers generalizing s calls with
  | nil =>
    simp only [List.any_nil, Bool.false_eq_true, if_false, true_implies]
    exact h.chunks hruns hconf hf hrcptto henv hcalls
  | cons x headers ih =>
    match calls, hcalls with
    | (env, cb) :: calls, hcalls =>
      simp only [List.map_cons, List.cons_append, List.cons.injEq] at hcalls
      obtain ⟨rfl, hcalls⟩ := hcalls
      have henv1 := henv _ List.mem_cons_self
      have hv1 := hv x List.mem_cons_self
      cases hx : lineIgnored cfg.toSettings x with
      | true =>
        obtain ⟨reply, s1, hst, hr, hq⟩ := h.header_ignored hruns henv1 hv1 hx
        rw [results_stops hst (by rw [hr]; decide) hq]
        simp [hx]
      | false =>
        obtain ⟨reply, s1, hst, hr, hq, h1⟩ := h.header hruns hconf hrcptto henv1 hne hv1 hx
        rw [results_goes hst hr hq]
        simp only [List.any_cons, hx, Bool.false_or]
        exact ih (fun c hm => henv c (List.mem_cons_of_mem _ hm))
          (fun y hm => hv y (List.mem_cons_of_mem _ hm)) h1 hcalls

omit hf henv in
/-- The first header, when it is not ignored and the filter selects addresses. -/
theorem Session.Enveloped.header {env : Env}
    (henv : env.Succeeds cfg.toSettings m folder lt answer Ok) (h : s.Enveloped m I m.rcptto)
    (hs : m.Searchable cfg.toSettings) (hne : m.selected cfg.toSettings answer ≠ [])
    {x : Str × Option Str} (hv : x.2 ≠ none) (hx : lineIgnored cfg.toSettings x = false) :
    ∃ reply s1, s.step cfg t env (.header x.1 x.2) = some (reply, some s1) ∧
      reply.stat = .continue_ ∧ archived reply.out = [] ∧
      s1.Filing m folder t I (m.selected cfg.toSettings answer)
        (m.selected cfg.toSettings answer) := by
  have hi : ignoreHeader cfg.toSettings x.1 x.2 = some .success := by
    rw [ignoreHeader_eq hv, hx]
    rfl
  have hsel := filtered_searchable h.envfrom h.rcptto henv.ldap hs
  obtain ⟨a, l, hlist⟩ := List.exists_cons_of_ne_nil hne
  rw [hlist] at hsel ⊢
  obtain ⟨list', os', hp, hq, hI, slot', hown', hslot'⟩ := pass_files (t := t) (s := s.matched (a :: l))
    (c := .header x.1 x.2) hruns henv hconf hrcptto h.envfrom h.rcptto (.inr hlist.symm) h.list
    h.own (.inl rfl) ⟨by simp, by simp⟩
  refine ⟨⟨.continue_, os'.out⟩, { s.matched (a :: l) with extrapriv := list' }, ?_, rfl, hq,
    .inr rfl, h.envfrom, h.rcptto, fun _ => rfl, rfl, hI, slot', hown', hslot'⟩
  simp only [Session.step, hi, h.headerExistence, Bool.false_eq_true, if_false, firstHeader, hsel,
    Session.passing, hp]
  rfl

omit hf henv hconf hrcptto in
/-- The first header, when it is not ignored and the filter selects nothing. -/
theorem Session.Enveloped.header_unmatched {env : Env}
    (henv : env.Succeeds cfg.toSettings m folder lt answer Ok) (h : s.Enveloped m I m.rcptto)
    (hs : m.Searchable cfg.toSettings) (hsel : m.selected cfg.toSettings answer = [])
    {x : Str × Option Str} (hv : x.2 ≠ none) (hx : lineIgnored cfg.toSettings x = false) :
    ∃ reply s1, s.step cfg t env (.header x.1 x.2) = some (reply, some s1) ∧
      reply.stat = .accept ∧ archived reply.out = [] := by
  have hi : ignoreHeader cfg.toSettings x.1 x.2 = some .success := by
    rw [ignoreHeader_eq hv, hx]
    rfl
  have hfilter := filtered_searchable h.envfrom h.rcptto henv.ldap hs
  rw [hsel] at hfilter
  simp only [Session.step, hi, h.headerExistence, Bool.false_eq_true, if_false, firstHeader,
    hfilter]
  exact aborted_files (s := s.matched []) hruns henv h.envfrom h.rcptto (.inl rfl) h.list h.own
    Slot.noConfusion .accept

/-- **From the first header on.** -/
theorem Session.Enveloped.stores_decided (h : s.Enveloped m I m.rcptto)
    (hv : ∀ x ∈ m.headers, x.2 ≠ none) (hcalls : calls.map Prod.snd =
      m.headers.map (fun x => .header x.1 x.2) ++ (m.chunks.map .body ++ [.eom])) :
    Results (s.deliver cfg t calls) (if m.ignored cfg.toSettings then [] else
      (m.selected cfg.toSettings answer).map (archiveFolder folder (lt t))) ↔
      m.Decided cfg.toSettings answer := by
  cases hh : m.headers with
  | nil =>
    rw [hh] at hcalls
    have hi : m.ignored cfg.toSettings = false := by rw [Mail.ignored, hh, List.any_nil]
    have hnil := (h.filing folder t _).chunks hruns hconf hf hrcptto henv hcalls
    have hres := hnil.2 fun a ha => (by cases ha)
    rw [Results.nil hres]
    simp +contextual [Mail.Decided, hh, hi]
  | cons x headers =>
    rw [hh] at hcalls hv
    have hi : m.ignored cfg.toSettings =
        (lineIgnored cfg.toSettings x || headers.any (lineIgnored cfg.toSettings)) := by
      rw [Mail.ignored, hh, List.any_cons]
    match calls, hcalls with
    | (env, cb) :: calls, hcalls =>
      simp only [List.map_cons, List.cons_append, List.cons.injEq] at hcalls
      obtain ⟨rfl, hcalls⟩ := hcalls
      have henv1 := henv _ List.mem_cons_self
      have hv1 := hv x List.mem_cons_self
      cases hx : lineIgnored cfg.toSettings x with
      | true =>
        rw [hx, Bool.true_or] at hi
        obtain ⟨reply, s1, hst, hr, hq⟩ := (h.filing folder t _).header_ignored hruns henv1
          hv1 hx
        rw [results_stops hst (by rw [hr]; decide) hq, hi]
        simp [Mail.Decided, hh, hi, hx]
      | false =>
        rw [hx, Bool.false_or] at hi
        by_cases hs : m.Searchable cfg.toSettings
        · by_cases hsel : m.selected cfg.toSettings answer = []
          · obtain ⟨reply, s1, hst, hr, hq⟩ := h.header_unmatched (t := t) hruns henv1 hs hsel hv1 hx
            rw [results_stops hst (by rw [hr]; decide) hq, hsel]
            simp [Mail.Decided, hs, hsel]
          · obtain ⟨reply, s1, hst, hr, hq, h1⟩ := h.header (t := t) hruns hconf hrcptto henv1 hs hsel
              hv1 hx
            have hrest := h1.headers hruns hconf hf hrcptto
              (fun c hm => henv c (List.mem_cons_of_mem _ hm)) hsel
              (fun y hm => hv y (List.mem_cons_of_mem _ hm)) hcalls
            rw [results_goes hst hr hq, hi, hrest]
            simp [Mail.Decided, hh, hi, hs]
        · have hnone : s.step cfg t env (.header x.1 x.2) = none := by
            have hi : ignoreHeader cfg.toSettings x.1 x.2 = some .success := by
              rw [ignoreHeader_eq hv1, hx]
              rfl
            simp only [Session.step, hi, h.headerExistence, Bool.false_eq_true, if_false,
              firstHeader, filtered_unsearchable h.envfrom h.rcptto henv1.ldap hs]
          exact iff_of_false (results_none hnone) fun hd => hs (hd.2.1 ⟨x, by rw [hh]; rfl, hx⟩)

/-- The whole message, in a session between two messages. -/
theorem Session.stores_iff (htidy : s.Tidy maildrop .idle) (hI : I s.extrapriv)
    (hv : ∀ x ∈ m.headers, x.2 ≠ none) (hcalls : calls.map Prod.snd = m.callbacks ++ [.eom]) :
    Results (s.deliver cfg t calls) (if m.ignored cfg.toSettings then [] else
      (m.selected cfg.toSettings answer).map (archiveFolder folder (lt t))) ↔
      m.Decided cfg.toSettings answer := by
  have h0 : Session.Enveloped m I [] { s with envfrom := some (getAddrpart m.envfrom) } := by
    obtain ⟨slot, hown, habs⟩ := htidy.own
    obtain rfl := habs rfl
    have hs := htidy.ended rfl
    exact ⟨rfl, by rw [hs]; rfl, by rw [hs]; rfl, by rw [hs]; rfl, hI, hown⟩
  match calls, hcalls with
  | (env, cb) :: calls, hcalls =>
    simp only [Mail.callbacks, List.map_cons, List.cons_append, List.append_assoc,
      List.cons.injEq] at hcalls
    obtain ⟨rfl, hcalls⟩ := hcalls
    rw [results_goes (s := s) rfl rfl rfl]
    obtain ⟨calls2, s2, replies1, hc2, hE2, hJ2, hq, he⟩ := deliver_goes Callback.envrcpt
      (J := fun done s => s.Enveloped m I done) (D := fun _ => True)
      (E := Env.Succeeds cfg.toSettings m folder lt answer Ok)
      (Q := fun reply => archived reply.out = [])
      (fun {done x env s} _ _ hJ => ⟨_, { s with rcptto := s.rcptto ++ [getAddrpart x] }, rfl, rfl,
        rfl, hJ.envfrom, by simp [hJ.rcptto], hJ.headerExistence, hJ.addrmatched, hJ.list, hJ.own⟩)
      m.rcptto [] (fun _ _ => trivial) hcalls (fun c hm => henv c (List.mem_cons_of_mem _ hm)) h0
    rw [he, results_map hq]
    exact hJ2.stores_decided hruns hconf hf hrcptto hE2 hv hc2

end

/-- On any connection, with maildrop among the loaded modules: a message is stored in the folders
of the addresses that the filter selects, unless a header is ignored, exactly on the inputs that
are `Decided`. -/
theorem stored_iff {cfg : Config} {m : Mail} {folder : FolderConfig} {lt : Nat → Tm}
    {answer : Nat → Str → Nat} {I : List Extrapriv → Prop} {Ok : Env → View → Prop}
    (hruns : cfg.Runs maildrop Os.archived I Ok)
    (hconf : findConfig maildrop.mymodule cfg.cfExtraconfig = some (.maildrop folder))
    (hf : folder.Loaded) {C : World → Env → Callback → Prop} {w : World}
    (hconn : Connection C cfg .idle w) {priv : MlfiPriv} (hw : w.priv = some priv)
    (hI : I priv.mlfiExtrapriv) (hrcptto : m.rcptto ≠ []) (hv : ∀ x ∈ m.headers, x.2 ≠ none)
    {calls : List (Env × Callback)} (hcalls : calls.map Prod.snd = m.callbacks ++ [.eom])
    (henv : ∀ c ∈ calls, c.1.Succeeds cfg.toSettings m folder lt answer Ok) :
    (∃ replies w', deliver calls w = some (replies, w') ∧
      Stores replies (if m.ignored cfg.toSettings then [] else
        (m.selected cfg.toSettings answer).map
          (archiveFolder folder (lt priv.mlfiRecvtime)))) ↔
      m.Decided cfg.toSettings answer := by
  rcases hconn.tidy hruns.hosts with hnone | ⟨t, s, hsh, htidy⟩
  · rw [hw] at hnone
    cases hnone
  · obtain ⟨priv', R, A, hw', hp⟩ := id hsh
    obtain rfl : priv = priv' := Option.some.inj (hw.symm.trans hw')
    rw [hp.extrapriv] at hI
    rw [hp.recvtime, ← Session.stores_iff (t := t) hruns hconf hf hrcptto henv htidy hI hv hcalls]
    constructor
    · rintro ⟨replies, w', hrun, hs⟩
      rcases deliver_agree calls hsh with ⟨hno, -⟩ | ⟨replies', w2, x, hrun', hx, -⟩
      · rw [hno] at hrun
        cases hrun
      · rw [hrun'] at hrun
        cases hrun
        exact ⟨_, x, hx, hs⟩
    · rintro ⟨replies, x, hx, hs⟩
      rcases deliver_agree calls hsh with ⟨-, hno⟩ | ⟨replies', w2, x', hrun, hx', -⟩
      · rw [hno] at hx
        cases hx
      · rw [hx'] at hx
        cases hx
        exact ⟨_, w2, hrun, hs⟩

/-! ## lda beside maildrop -/

/-- What lda needs of the system and of what it sees: a command that it can build for each address. -/
structure LdaReady (cfLdacommand : Str) (env : Env) (view : View) : Prop where
  mkstemp : ∀ i, 0 ≤ (env.mkstemp i).1
  write : ∀ i n, env.write i n ≠ none
  fopen : ∀ i, env.fopen i = true
  pipe2 : ∀ i, env.pipe2 i ≠ none
  fork : ∀ i, env.fork i = true
  config : findConfig lda.mymodule view.config.cfExtraconfig = some (.lda cfLdacommand)
  rcptto : ∃ rcpts, view.mlfiRcptto = some rcpts ∧ rcpts ≠ []
  addrmatched : ∃ saveaddr, view.mlfiAddrmatched = some saveaddr ∧
    ∀ a ∈ saveaddr, ldaCommand cfLdacommand a ≠ none

section
variable {cfLdacommand : Str} {env : Env} {view : View} {md : Md}

/-- Every pass through the delivery loop starts a command. -/
theorem LdaReady.deliverLoop (h : LdaReady cfLdacommand env view) (md : Md) : ∀ {l : List Str},
    (∀ a ∈ l, ldaCommand cfLdacommand a ≠ none) → ∀ os,
    ∃ os', deliverLoop env cfLdacommand md l os = some (.success, os')
  | [], _, os => ⟨os, rfl⟩
  | a :: l, hl, os => by
    obtain ⟨execCommand, hcmd⟩ := Option.ne_none_iff_exists'.1 (hl a List.mem_cons_self)
    obtain ⟨failures, hpipe⟩ := Option.ne_none_iff_exists'.1 (h.pipe2 os.clock)
    obtain ⟨os', he⟩ := h.deliverLoop md (fun b hb => hl b (List.mem_cons_of_mem a hb))
      ((((os.repeated (.pipe2 false) failures).log (.pipe2 true)).log
        (.sh execCommand md.tempfile)).tick)
    refine ⟨os', ?_⟩
    simp only [Messasy.deliverLoop, hcmd, hpipe, h.fork, if_true]
    exact he

theorem closeTempfile_saveaddr (env : Env) (md : Md) (os : Os) :
    (closeTempfile env md os).1.mdSaveaddr = md.mdSaveaddr := by
  unfold closeTempfile
  split
  · cases md.mdCr with
    | false => rfl
    | true =>
      have hsame := congrArg Md.mdSaveaddr (md.write_kept env [CR] os).core
      exact hsame
  · rfl

/-- **lda** opens, writes and closes its record. -/
theorem lda_succeeds (cfLdacommand : Str) : lda.Succeeds
    (fun md => ∀ a ∈ md.mdSaveaddr, ldaCommand cfLdacommand a ≠ none) (LdaReady cfLdacommand) where
  kept {md md'} hcore hg := by
    have hsame := congrArg Md.mdSaveaddr hcore
    exact fun a ha => hg a (hsame ▸ ha)
  write h := h.write
  opens {env view} h os := by
    obtain ⟨rcpts, hto, hne⟩ := h.rcptto
    obtain ⟨saveaddr, ha, hcmd⟩ := h.addrmatched
    obtain ⟨headerTo, hl⟩ := mdList2str_some hne
    have hfd : ¬ (env.mkstemp os.clock).1 < 0 := Int.not_lt.2 (h.mkstemp os.clock)
    have hopen : ∃ md os', ldaOpen env (.lda cfLdacommand) view os = some (some md, os') ∧
        md.mdSaveaddr = saveaddr := by
      simp only [ldaOpen, mdStructInit, hto, Option.bind_some, hl, ha, Option.map_some,
        RETRY_LIMIT, mkstempRetry, mkstemp, if_neg hfd]
      exact ⟨_, _, rfl, rfl⟩
    obtain ⟨md, os', ho, rfl⟩ := hopen
    exact ⟨_, md, os', h.config, ho, hcmd⟩
  closes {env view} h {md} hg os := by
    have hsame := closeTempfile_saveaddr env md os
    simp only [lda, ldaClose]
    generalize closeTempfile env md os = x at hsame
    obtain ⟨md1, os1⟩ := x
    obtain ⟨os2, he⟩ := h.deliverLoop md1 (l := md1.mdSaveaddr) (by rwa [hsame]) os1.tick
    have hconf : findConfig (bytes "lda") view.config.cfExtraconfig = some (.lda cfLdacommand) :=
      h.config
    refine ⟨md1, os2.log (.unlink md1.mdTempfilepath), ?_⟩
    simp only [hconf, h.fopen, if_true, he]

end

/-! ## Two short messages -/

/-- lda and maildrop, with `SaveIgnoreHeader` set to the one line `X-Spam: yes`. -/
def storingConfig : Config :=
  { exampleConfig with
    cfSaveignoreheaderRegex := some fun line => line = bytes "X-Spam: yes"
    cfExtraconfig := [⟨bytes "lda", .lda (deliverCommand false)⟩,
      ⟨bytes "maildrop", .maildrop exampleFolder⟩] : Settings }.loading [lda, maildrop]

theorem storingConfig_runs : storingConfig.Runs maildrop Os.archived
    (fun list => ∃ slot, Own lda.mymodule slot list ∧
      slot.Holds fun md => ∀ a ∈ md.mdSaveaddr, ldaCommand (deliverCommand false) a ≠ none)
    (LdaReady (deliverCommand false)) :=
  runs_beside _ (by decide) (sibling_keeps (.inr (.inr rfl))) (lda_succeeds _)

/-- A message from another domain to `b@example.com` with these headers. -/
def shortMail (headers : List (Str × Option Str)) : Mail where
  envfrom := bytes "<a@example.org>"
  rcptto := [bytes "<b@example.com>"]
  headers := headers
  chunks := [bytes "x"]

/-- The message under a system in which every call succeeds. -/
def shortCalls (headers : List (Str × Option Str)) : List (Env × Callback) :=
  ((shortMail headers).callbacks ++ [Callback.eom]).map fun cb => (.fine, cb)

/-- The day that `Env.fine` answers. -/
def newYear : Tm := ⟨bytes "2024", bytes "01", bytes "02"⟩

theorem shortCalls_succeed {headers : List (Str × Option Str)} :
    ∀ c ∈ shortCalls headers, c.1.Succeeds storingConfig.toSettings (shortMail headers)
      exampleFolder (fun _ => newYear) (fun _ _ => 1) (LdaReady (deliverCommand false)) := by
  intro c hc
  obtain ⟨cb, -, rfl⟩ := List.mem_map.1 hc
  have hcommands : ∀ a ∈ (shortMail headers).selected storingConfig.toSettings fun _ _ => 1,
      ldaCommand (deliverCommand false) a ≠ none := by
    have hsel : ((shortMail headers).selected storingConfig.toSettings fun _ _ => 1) =
        [bytes "b@example.com"] := by
      show ((shortMail []).selected storingConfig.toSettings fun _ _ => 1) = _
      decide +kernel
    rw [hsel]
    simp only [List.mem_singleton, forall_eq]
    decide +kernel
  refine
    { files := ⟨fun _ => rfl, fun _ => by decide, fun _ => show (0 : Int) ≤ 3 by decide,
        fun _ _ => by simp [Env.fine], fun _ _ => ⟨true, 7, rfl⟩, fun _ => rfl⟩
      ldap := rfl
      modules := fun view ⟨hconf, _, hto, ha⟩ => ?_ }
  refine ⟨fun _ => show (0 : Int) ≤ 3 by decide, fun _ _ => by simp [Env.fine], fun _ => rfl,
    fun _ => by simp [Env.fine], fun _ => rfl, ?_, ⟨_, hto, List.cons_ne_nil _ _⟩, ?_⟩
  · rw [hconf]
    rfl
  · rcases ha with ha | ha
    · exact ⟨[], ha, nofun⟩
    · exact ⟨_, ha, hcommands⟩

/-- A message with a header is stored in the folder of its recipient. -/
theorem stored_iff_short : ∃ replies w',
    deliver (shortCalls [(bytes "Subject", some (bytes "s"))])
      (mlfiConnect storingConfig .fine .start).2 = some (replies, w') ∧
    Stores replies [bytes "/var/lib/messasy/maildrop/Maildir/.2024.01.02"] := by
  have h0 : Connection (fun _ _ _ => True) storingConfig .idle
      (mlfiConnect storingConfig .fine .start).2 :=
    .connect (rfl : mlfiConnect storingConfig .fine .start = (.continue_, _))
  have hdecided : (shortMail [(bytes "Subject", some (bytes "s"))]).Decided
      storingConfig.toSettings fun _ _ => 1 :=
    ⟨fun h => (by cases h), fun _ => .inl (by decide), fun _ => by decide +kernel⟩
  have h := (stored_iff storingConfig_runs rfl ⟨by decide, by decide, by decide⟩ h0 rfl
    ⟨.absent, Own.nil _, trivial⟩ (by decide) (by decide) rfl shortCalls_succeed).2 hdecided
  have hdirs : (if (shortMail [(bytes "Subject", some (bytes "s"))]).ignored
      storingConfig.toSettings then [] else
      ((shortMail [(bytes "Subject", some (bytes "s"))]).selected storingConfig.toSettings
        fun _ _ => 1).map (archiveFolder exampleFolder newYear)) =
      [bytes "/var/lib/messasy/maildrop/Maildir/.2024.01.02"] := by decide +kernel
  rw [hdirs] at h
  exact h

/-- The same message without its header is not stored. -/
theorem not_stored_headerless : Connection (fun _ _ _ => True) storingConfig .idle
      (mlfiConnect storingConfig .fine .start).2 ∧
    ¬ ∃ replies w', deliver (shortCalls []) (mlfiConnect storingConfig .fine .start).2 =
        some (replies, w') ∧
      Stores replies (if (shortMail []).ignored storingConfig.toSettings then [] else
        ((shortMail []).selected storingConfig.toSettings fun _ _ => 1).map
          (archiveFolder exampleFolder newYear)) := by
  refine ⟨.connect (rfl : mlfiConnect storingConfig .fine .start = (.continue_, _)), ?_⟩
  rintro ⟨replies, w', hrun, hs⟩
  have hquiet : ((deliver (shortCalls []) (mlfiConnect storingConfig .fine .start).2).map fun x =>
      x.1.all fun r => archived r.out = []) = some true := by decide +kernel
  have hsel : (if (shortMail []).ignored storingConfig.toSettings then [] else
      ((shortMail []).selected storingConfig.toSettings fun _ _ => 1).map
        (archiveFolder exampleFolder newYear)) ≠ [] := by
    decide +kernel
  rw [hrun] at hquiet
  exact hsel ((stores_nil (by simpa using hquiet)).1 hs)

end Messasy
