import Messasy.Milter.Pass
import Messasy.Module.Archive

/-!
# The archived text

With maildrop among the loaded modules, every archive file of a message holds the two custom
headers, the header lines, an empty line and the body with its CRLF pairs replaced. `Slot.Spools`
says what maildrop has written after some of the headers and chunks; each callback that goes on
keeps it (`Session.Spools.header`, `Session.Spools.body`), whatever the other modules do.
-/

namespace Messasy

open Lib

/-- The text that a message is archived as. -/
def Mail.archiveText (m : Mail) : Str :=
  bytes "X-Messasy-From: " ++ getAddrpart m.envfrom ++ [LF] ++
    bytes "X-Messasy-To: " ++ (bytes ", ").intercalate (m.rcptto.map getAddrpart) ++ [LF] ++
    m.headers.flatMap (fun h => h.1 ++ bytes ": " ++ h.2.getD [] ++ [LF]) ++
    [LF] ++ unixLines m.chunks.flatten

/-- The temporary file is made with a descriptor above 0, and every write stores all it is given. -/
def Env.Spools (env : Env) : Prop := env.Full ∧ ∀ i, 0 < (env.mkstemp i).1

/-- The callback has made no archive file. -/
def Reply.Quiet (reply : Reply) : Prop := archived reply.out = []

/-- maildrop's slot behind these headers and chunks of a message. -/
def Slot.Spools (from_ : Str) (rcpts : List Str) (headers : List (Str × Option Str))
    (chunks : List Str) : Slot → Prop
  | .absent => headers = [] ∧ chunks = []
  | .spooling md => (headers ≠ [] ∨ chunks ≠ []) ∧ ∃ md0 : Md,
      md = md0.spooled headers chunks ∧ md0.mdHeaderFrom = from_ ∧ mdList2str rcpts = some md0.mdHeaderTo ∧ 0 < md0.mdTempfileFd
  | .dangling => False

theorem mdList2str_eq : ∀ {l : List Str} {s : Str}, mdList2str l = some s →
    s = (bytes ", ").intercalate l
  | [], _, h => by cases h
  | [a], _, h => by cases h; simp [List.intercalate]
  | a :: b :: l, s, h => by
    obtain ⟨s', hs', rfl⟩ := Option.map_eq_some_iff.1 h
    rw [mdList2str_eq hs']
    simp [List.intercalate]

/-! ## Writing on the slot -/

section
variable {env : Env} {view : View} {from_ : Str} {rcpts : List Str}
  {headers : List (Str × Option Str)} {chunks : List Str} {slot slot' : Slot} {os os' : Os} {r : Int}

/-- A record that `maildrop_open` has set. -/
theorem maildropOpen_spooled (henv : env.Spools) {config : ModuleConfig} {x : Option Md}
    (hfrom : view.mlfiEnvfrom = some from_) (hto : view.mlfiRcptto = some rcpts)
    (h : maildropOpen env config view os = some (x, os')) :
    ∃ md0 : Md, x = some (md0.spooled [] []) ∧ md0.mdHeaderFrom = from_ ∧
      mdList2str rcpts = some md0.mdHeaderTo ∧ 0 < md0.mdTempfileFd := by
  cases config with
  | maildrop folder =>
    obtain ⟨i, ⟨-, hneg⟩ | ⟨md, rfl, ho, hfd⟩⟩ := folderOpen_cases h
    · have := henv.2 i
      omega
    · refine ⟨md, by rw [ho.progress], by rw [ho.headerFrom, hfrom]; rfl, ?_, ?_⟩
      · rw [← ho.headerTo, hto]
        rfl
      · rw [hfd]
        exact henv.2 i
  | _ => cases h

/-- The record at the start of a writing hook. -/
theorem Slot.Spools.record (henv : env.Spools) (hfrom : view.mlfiEnvfrom = some from_)
    (hto : view.mlfiRcptto = some rcpts) (h : slot.Spools from_ rcpts headers chunks)
    {x : Option Md} (hr : maildrop.slotRecord env view slot os = some (x, os')) :
    ∃ md0 : Md, x = some (md0.spooled headers chunks) ∧ md0.mdHeaderFrom = from_ ∧
      mdList2str rcpts = some md0.mdHeaderTo ∧ 0 < md0.mdTempfileFd := by
  cases slot with
  | absent =>
    obtain ⟨rfl, rfl⟩ := h
    obtain ⟨config, -, ho⟩ := Option.bind_eq_some_iff.1 hr
    exact maildropOpen_spooled henv hfrom hto ho
  | spooling md =>
    obtain ⟨-, md0, rfl, hmd⟩ := h
    cases hr
    exact ⟨md0, rfl, hmd⟩
  | dangling => exact h.elim

theorem Slot.Spools.header (henv : env.Spools) (hfrom : view.mlfiEnvfrom = some from_)
    (hto : view.mlfiRcptto = some rcpts) (h : slot.Spools from_ rcpts headers []) {f : Str}
    {v : Option Str}
    (hr : maildrop.slotCall env view (.header f v) slot os = some (r, slot', os')) :
    slot'.Spools from_ rcpts (headers ++ [(f, v)]) [] := by
  obtain ⟨⟨x, os1⟩, hrec, hx⟩ := Option.map_eq_some_iff.1 hr
  obtain ⟨md0, rfl, hmd⟩ := h.record henv hfrom hto hrec
  obtain ⟨os2, hw⟩ := writeHeader_spooled henv.1 md0 headers os1 f v
  simp only [hw] at hx
  cases hx
  exact ⟨.inl (by simp), md0, rfl, hmd⟩

theorem Slot.Spools.body (henv : env.Spools) (hfrom : view.mlfiEnvfrom = some from_)
    (hto : view.mlfiRcptto = some rcpts) (h : slot.Spools from_ rcpts headers chunks) {b : Str}
    (hr : maildrop.slotCall env view (.body b) slot os = some (r, slot', os')) :
    slot'.Spools from_ rcpts headers (chunks ++ [b]) := by
  obtain ⟨⟨x, os1⟩, hrec, hx⟩ := Option.map_eq_some_iff.1 hr
  obtain ⟨md0, rfl, hmd⟩ := h.record henv hfrom hto hrec
  obtain ⟨os2, hw⟩ := writeBody_spooled henv.1 md0 headers chunks os1 b
  simp only [hw] at hx
  cases hx
  exact ⟨.inr (by simp), md0, rfl, hmd⟩

/-- At the end of the message the archive files hold the whole text. -/
theorem Slot.Spools.eom (henv : env.Spools) (h : slot.Spools from_ rcpts headers chunks)
    (hh : headers ≠ []) (hb : chunks ≠ [])
    (hr : maildrop.slotCall env view .eom slot os = some (r, slot', os')) :
    ∃ made, os'.archived = os.archived ++ made ∧ ∀ p ∈ made,
      p.2 = headerLine CUSTOMHDR_FROM (some from_) ++
        headerLine CUSTOMHDR_TO (some ((bytes ", ").intercalate rcpts)) ++ headerLines headers ++
        LF :: unixLines chunks.flatten := by
  cases slot with
  | absent => exact absurd h.1 hh
  | spooling md =>
    obtain ⟨-, md0, rfl, rfl, hto, hfd⟩ := h
    obtain ⟨⟨rc, md1, os1⟩, hc, hx⟩ := Option.map_eq_some_iff.1 hr
    have hos : os1 = os' := by
      dsimp only at hx
      split at hx <;> cases hx <;> rfl
    subst hos
    obtain ⟨made, he, hmade⟩ := maildropClose_made hc
    refine ⟨made, he, fun p hp => ?_⟩
    rw [hmade p hp, closeTempfile_spooled henv.1 md0 headers chunks os hfd hh hb,
      ← mdList2str_eq hto]
    rfl
  | dangling => exact h.elim

end

/-! ## The session during a message -/

/-- The session behind these callbacks of a message. -/
structure Session.Spools (from_ : Str) (rcpts : List Str) (headers : List (Str × Option Str))
    (chunks : List Str) (s : Session) : Prop where
  envfrom : s.envfrom = some from_
  rcptto : s.rcptto = rcpts
  slot : ∃ slot : Slot, Own maildrop.mymodule slot s.extrapriv ∧
    slot.Spools from_ rcpts headers chunks

section
variable {cfg : Config} (hh : cfg.Hosts maildrop Os.archived) {t : Nat} {env : Env} {s s' : Session}
  {slot : Slot} {os os' : Os} {n : Int}
include hh

/-- Before the end of the message a pass makes no archive file. -/
theorem pass_quiet (hown : Own maildrop.mymodule slot s.extrapriv) {c : HookCall} (hc : c ≠ .eom)
    (h : s.pass cfg t env c os = some (n, s', os')) : os'.archived = os.archived ∧
      ∃ slot', Own maildrop.mymodule slot' s'.extrapriv := by
  rcases Session.pass_hosted hh hown h with
    ⟨-, ho, hg⟩ | ⟨os1, r, slot', os2, hg1, hslot, ho, hg2, -⟩
  · exact ⟨hg, slot, ho⟩
  · have h2 := Os.archived_congr (Module.slotCall_links maildrop_opensQuietly hc hslot)
    exact ⟨hg2.trans (h2.trans hg1), slot', ho⟩

theorem aborted_quiet (hown : Own maildrop.mymodule slot s.extrapriv) {r : Option Sfsistat}
    {reply : Reply} {x : Option Session} (h : s.aborted cfg t env r os = some (reply, x)) :
    archived reply.out = os.archived := by
  obtain ⟨⟨n, s1, os1⟩, hp, hx⟩ := Option.map_eq_some_iff.1 h
  have hq := (pass_quiet hh hown (by simp) hp).1
  dsimp only at hx
  split at hx <;> cases hx <;> exact hq

variable {from_ : Str} {rcpts : List Str} {headers headers' : List (Str × Option Str)}
  {chunks chunks' : List Str}

/-- A callback of the header or the body: no archive file, and the slot goes on when it does. -/
theorem Session.Spools.call (h : s.Spools from_ rcpts headers chunks) {c : HookCall}
    (hc : c ≠ .eom ∧ c ≠ .abort)
    (hcall : ∀ {view : View} {slot slot' : Slot} {os os' : Os} {r : Int},
      view.mlfiEnvfrom = some from_ → view.mlfiRcptto = some rcpts →
      slot.Spools from_ rcpts headers chunks →
      maildrop.slotCall env view c slot os = some (r, slot', os') →
      slot'.Spools from_ rcpts headers' chunks')
    {reply : Reply} {x : Option Session} (hst : s.step cfg t env c.callback = some (reply, x)) :
    reply.Quiet ∧ (reply.stat = .continue_ →
      ∃ s1, x = some s1 ∧ s1.Spools from_ rcpts headers' chunks') := by
  obtain ⟨slot, hown, hslot⟩ := h.slot
  generalize hcb : c.callback = cb at hst
  cases step_cases hst with
  | envfrom a => cases c <;> cases hcb
  | envrcpt a => cases c <;> cases hcb
  | @passed _ c' s1 s2 os hm hp =>
    subst hcb
    obtain ⟨rfl, he, hr, hx⟩ := hm.same
    have hown1 : Own maildrop.mymodule slot s1.extrapriv := by rw [hx]; exact hown
    refine ⟨(pass_quiet hh hown1 hc.1 hp).1, fun _ => ⟨s2, ?_, ?_⟩⟩
    · cases c' with
      | eom => exact absurd rfl hc.1
      | _ => rfl
    · have hsame := pass_extrapriv hp
      rcases pass_hosted hh hown1 hp with ⟨hn, -⟩ | ⟨os1, r, slot', os2, -, hcl, ho, -⟩
      · exact absurd rfl hn
      · refine ⟨by rw [hsame]; exact he.trans h.envfrom, by rw [hsame]; exact hr.trans h.rcptto,
          slot', ho, hcall (he.trans h.envfrom) ?_ hslot hcl⟩
        exact congrArg some (hr.trans h.rcptto)
  | @failed _ c' s1 s2 n os _ _ hm hp hn ha =>
    subst hcb
    obtain ⟨rfl, -, -, hx⟩ := hm.same
    have hown1 : Own maildrop.mymodule slot s1.extrapriv := by rw [hx]; exact hown
    obtain ⟨hq, slot2, hown2⟩ := pass_quiet hh hown1 hc.1 hp
    exact ⟨(aborted_quiet hh hown2 ha).trans hq,
      fun hr => absurd hr (aborted_stat (ErrorAction.sfsistat_ne _) ha)⟩
  | @gaveUp _ s1 r _ _ hs1 hr ha =>
    subst hcb
    have hown1 : Own maildrop.mymodule slot s1.extrapriv := by
      rcases hs1 with rfl | rfl <;> exact hown
    refine ⟨aborted_quiet hh hown1 ha, fun hstat => ?_⟩
    rcases hr with ⟨hab, -⟩ | ⟨-, r', rfl, hne⟩
    · cases c with
      | abort => exact absurd rfl hc.2
      | _ => cases hab
    · exact absurd hstat (aborted_stat hne ha)

theorem Session.Spools.header (henv : env.Spools) {f : Str} {v : Option Str} {reply : Reply}
    {x : Option Session} (h : s.Spools from_ rcpts headers [])
    (hst : s.step cfg t env (.header f v) = some (reply, x)) :
    reply.Quiet ∧ (reply.stat = .continue_ →
      ∃ s1, x = some s1 ∧ s1.Spools from_ rcpts (headers ++ [(f, v)]) []) :=
  h.call hh (c := .header f v) ⟨by simp, by simp⟩
    (fun hfrom hto hslot hcl => hslot.header henv hfrom hto hcl) hst

theorem Session.Spools.body (henv : env.Spools) {b : Str} {reply : Reply} {x : Option Session}
    (h : s.Spools from_ rcpts headers chunks)
    (hst : s.step cfg t env (.body b) = some (reply, x)) :
    reply.Quiet ∧ (reply.stat = .continue_ →
      ∃ s1, x = some s1 ∧ s1.Spools from_ rcpts headers (chunks ++ [b])) :=
  h.call hh (c := .body b) ⟨by simp, by simp⟩
    (fun hfrom hto hslot hcl => hslot.body henv hfrom hto hcl) hst

omit hh in
theorem Session.Spools.envrcpt {a : Str} {reply : Reply} {x : Option Session}
    (h : s.Spools from_ rcpts [] []) (hst : s.step cfg t env (.envrcpt a) = some (reply, x)) :
    reply.Quiet ∧ (reply.stat = .continue_ →
      ∃ s1, x = some s1 ∧ s1.Spools from_ (rcpts ++ [getAddrpart a]) [] []) := by
  obtain ⟨slot, hown, hslot⟩ := h.slot
  cases hst
  refine ⟨rfl, fun _ => ⟨_, rfl, h.envfrom, by rw [h.rcptto], slot, hown, ?_⟩⟩
  cases slot with
  | absent => exact ⟨rfl, rfl⟩
  | spooling md => exact absurd hslot.1 (by simp)
  | dangling => exact hslot.elim

/-- The end of the message: every archive file holds the text. -/
theorem Session.Spools.eom (henv : env.Spools) {reply : Reply} {x : Option Session}
    (h : s.Spools from_ rcpts headers chunks) (hheaders : headers ≠ []) (hchunks : chunks ≠ [])
    (hst : s.step cfg t env .eom = some (reply, x)) : ∀ p ∈ archived reply.out,
      p.2 = headerLine CUSTOMHDR_FROM (some from_) ++
        headerLine CUSTOMHDR_TO (some ((bytes ", ").intercalate rcpts)) ++ headerLines headers ++
        LF :: unixLines chunks.flatten := by
  obtain ⟨slot, hown, hslot⟩ := h.slot
  -- the pass, whether the message then ends well or in an abort
  have hpass : ∀ {n s2 os2}, s.pass cfg t env .eom .start = some (n, s2, os2) →
      ∃ slot2, Own maildrop.mymodule slot2 s2.extrapriv ∧ ∀ p ∈ os2.archived,
        p.2 = headerLine CUSTOMHDR_FROM (some from_) ++
          headerLine CUSTOMHDR_TO (some ((bytes ", ").intercalate rcpts)) ++ headerLines headers ++
          LF :: unixLines chunks.flatten := by
    intro n s2 os2 hp
    rcases pass_hosted hh hown hp with
      ⟨-, ho, hg⟩ | ⟨os1, r, slot', os3, hg1, hcl, ho, hg2, -⟩
    · refine ⟨slot, ho, fun p hp => ?_⟩
      rw [hg] at hp
      cases hp
    · obtain ⟨made, he, hmade⟩ := hslot.eom henv hheaders hchunks hcl
      refine ⟨slot', ho, fun p hp => hmade p ?_⟩
      rw [hg2, he, hg1] at hp
      exact hp
  generalize hcb : Callback.eom = cb at hst
  cases step_cases hst with
  | envfrom a => cases hcb
  | envrcpt a => cases hcb
  | passed hm hp =>
    subst hcb
    obtain ⟨rfl, rfl⟩ := hm
    obtain ⟨-, -, hall⟩ := hpass hp
    exact hall
  | failed hm hp hn ha =>
    subst hcb
    obtain ⟨rfl, rfl⟩ := hm
    obtain ⟨slot2, hown2, hall⟩ := hpass hp
    rw [aborted_quiet hh hown2 ha]
    exact hall
  | gaveUp _ hr _ =>
    subst hcb
    rcases hr with ⟨hab, -⟩ | ⟨⟨f, v, hab⟩, -⟩ <;> cases hab

end

/-! ## The whole message -/

theorem Mail.archiveText_eq (m : Mail) : m.archiveText =
    headerLine CUSTOMHDR_FROM (some (getAddrpart m.envfrom)) ++
      headerLine CUSTOMHDR_TO (some ((bytes ", ").intercalate (m.rcptto.map getAddrpart))) ++
      headerLines m.headers ++ LF :: unixLines m.chunks.flatten := by
  have hfrom : bytes "X-Messasy-From: " = CUSTOMHDR_FROM ++ bytes ": " := by decide
  have hto : bytes "X-Messasy-To: " = CUSTOMHDR_TO ++ bytes ": " := by decide
  simp [archiveText, headerLine, headerLines, hfrom, hto]

/-- A session between two messages archives a message as its text. -/
theorem Session.archives_text {cfg : Config} (hh : cfg.Hosts maildrop Os.archived) {t : Nat}
    {s : Session} (htidy : s.Tidy maildrop .idle) (m : Mail) (hheaders : m.headers ≠ [])
    (hchunks : m.chunks ≠ []) {calls : List (Env × Callback)}
    (hcalls : calls.map Prod.snd = m.callbacks ++ [.eom]) (henv : ∀ c ∈ calls, c.1.Spools)
    {replies : List Reply} {x : Option Session}
    (h : s.deliver cfg t calls = some (replies, x)) :
    ∀ r ∈ replies, ∀ p ∈ archived r.out, p.2 = m.archiveText := by
  have hquiet : ∀ {r : Reply}, r.Quiet → ∀ p ∈ archived r.out, p.2 = m.archiveText := by
    intro r hr p hp
    rw [show archived r.out = [] from hr] at hp
    cases hp
  have h0 : Session.Spools (getAddrpart m.envfrom) (([] : List Str).map getAddrpart) [] []
      { s with envfrom := some (getAddrpart m.envfrom) } := by
    obtain ⟨slot, hown, habs⟩ := htidy.own
    obtain rfl := habs rfl
    exact ⟨rfl, by rw [htidy.ended rfl]; rfl, .absent, hown, rfl, rfl⟩
  cases calls with
  | nil => simp [Mail.callbacks] at hcalls
  | cons c calls =>
    obtain ⟨env, cb⟩ := c
    simp only [Mail.callbacks, List.map_cons, List.cons_append, List.append_assoc,
      List.cons.injEq] at hcalls
    obtain ⟨rfl, hcalls⟩ := hcalls
    obtain ⟨⟨rs, x'⟩, hs, hx⟩ := Option.map_eq_some_iff.1 h
    cases hx
    refine List.forall_mem_cons.2 ⟨hquiet rfl, ?_⟩
    -- the recipients
    rcases deliver_stretch Callback.envrcpt (E := Env.Spools) (Q := Reply.Quiet)
        (J := fun done => Session.Spools (getAddrpart m.envfrom) (done.map getAddrpart) [] [])
        (fun _ hJ hst => by simpa using hJ.envrcpt hst) m.rcptto hcalls
        (fun c hc => henv c (List.mem_cons_of_mem _ hc)) h0 hs with
      hall | ⟨calls1, s1, rs1, rs2, hcalls1, hE1, h1, hs1, rfl, hq1⟩
    · exact fun r hr => hquiet (hall r hr)
    refine List.forall_mem_append.2 ⟨fun r hr => hquiet (hq1 r hr), ?_⟩
    -- the headers
    rcases deliver_stretch (fun h : Str × Option Str => Callback.header h.1 h.2) (E := Env.Spools)
        (Q := Reply.Quiet) (J := fun done => Session.Spools (getAddrpart m.envfrom)
          (m.rcptto.map getAddrpart) done [])
        (fun henv hJ hst => hJ.header hh henv hst) m.headers hcalls1 hE1 (by simpa using h1) hs1 with
      hall | ⟨calls2, s2, rs3, rs4, hcalls2, hE2, h2, hs2, rfl, hq2⟩
    · exact fun r hr => hquiet (hall r hr)
    refine List.forall_mem_append.2 ⟨fun r hr => hquiet (hq2 r hr), ?_⟩
    -- the body
    rcases deliver_stretch Callback.body (E := Env.Spools) (Q := Reply.Quiet)
        (J := fun done => Session.Spools (getAddrpart m.envfrom) (m.rcptto.map getAddrpart)
          m.headers done)
        (fun henv hJ hst => hJ.body hh henv hst) m.chunks hcalls2 hE2 (by simpa using h2) hs2 with
      hall | ⟨calls3, s3, rs5, rs6, hcalls3, hE3, h3, hs3, rfl, hq3⟩
    · exact fun r hr => hquiet (hall r hr)
    refine List.forall_mem_append.2 ⟨fun r hr => hquiet (hq3 r hr), ?_⟩
    -- the end of the message
    obtain ⟨env4, rfl⟩ : ∃ env4, calls3 = [(env4, .eom)] := by
      match calls3, hcalls3 with
      | [(env4, cb)], hc => exact ⟨env4, by simpa using hc⟩
    obtain ⟨reply, y, hst, rfl⟩ := deliver_single hs3
    refine List.forall_mem_singleton.2 ?_
    rw [m.archiveText_eq]
    exact Session.Spools.eom hh (hE3 _ List.mem_cons_self) (by simpa using h3) hheaders hchunks hst

/-- With maildrop loaded, the archive files of a message on any connection hold the message's
text, whatever happened on the connection before and whatever the other modules answer. -/
theorem archived_content {cfg : Config} (hh : cfg.Hosts maildrop Os.archived)
    {C : World → Env → Callback → Prop} {w : World} (hconn : Connection C cfg .idle w) (m : Mail)
    (hheaders : m.headers ≠ []) (hchunks : m.chunks ≠ []) {calls : List (Env × Callback)}
    (hcalls : calls.map Prod.snd = m.callbacks ++ [.eom]) (henv : ∀ c ∈ calls, c.1.Spools)
    {replies : List Reply} {w' : World} (h : deliver calls w = some (replies, w')) :
    ∀ r ∈ replies, ∀ p ∈ archived r.out, p.2 = m.archiveText := by
  rcases hconn.tidy hh with hnone | ⟨t, s, hsh, htidy⟩
  · cases calls with
    | nil => simp [Mail.callbacks] at hcalls
    | cons c calls =>
      obtain ⟨env, cb⟩ := c
      simp only [Mail.callbacks, List.map_cons, List.cons_append, List.cons.injEq] at hcalls
      obtain ⟨rfl, -⟩ := hcalls
      simp [deliver, World.step, World.main, mlfiEnvfrom, hnone] at h
  · rcases deliver_agree calls hsh with ⟨hw, -⟩ | ⟨replies', w2, x, hw, hs, -⟩
    · rw [hw] at h; cases h
    · rw [hw] at h
      cases h
      exact Session.archives_text hh htidy m hheaders hchunks hcalls henv hs

/-- The message to one address whose last CRLF is cut in two, with a lone CR at the very end. -/
def exampleMail : Mail where
  envfrom := bytes "<a@example.com>"
  rcptto := [bytes "<b@example.com>"]
  headers := [(bytes "Subject", some (bytes "s"))]
  chunks := [bytes "x\r", [], bytes "\ny\r"]

/-- gzip and maildrop, in this order. -/
def exampleLoaded : Config :=
  { exampleConfig with
    cfExtraconfig := [⟨bytes "gzip", .gzip (bytes "/bin/gzip") exampleFolder⟩,
      ⟨bytes "maildrop", .maildrop exampleFolder⟩] : Settings }.loading [gzip, maildrop]

theorem exampleLoaded_hosts : exampleLoaded.Hosts maildrop Os.archived :=
  hosts_loading [gzip] [] _ fun m hm c => by
    obtain rfl := List.mem_singleton.1 hm
    exact sibling_keeps (.inl rfl) c

/-- The message under a system in which every call succeeds. -/
def exampleCalls : List (Env × Callback) :=
  (exampleMail.callbacks ++ [Callback.eom]).map fun cb => (.fine, cb)

theorem Env.fine_spools : Env.fine.Spools := ⟨fun _ _ => rfl, fun _ => show (0 : Int) < 3 by decide⟩

/-- Behind gzip, maildrop archives the message of the example. -/
theorem archived_content_cut : ∃ w replies w', deliver exampleCalls w = some (replies, w') ∧
    (∃ r ∈ replies, archived r.out ≠ []) ∧ ∀ r ∈ replies, ∀ p ∈ archived r.out, p.2 =
      bytes "X-Messasy-From: a@example.com\nX-Messasy-To: b@example.com\nSubject: s\n\nx\ny\r" := by
  have h0 : Connection (fun _ _ _ => True) exampleLoaded .idle
      (mlfiConnect exampleLoaded .fine .start).2 :=
    .connect (rfl : mlfiConnect exampleLoaded .fine .start = (.continue_, _))
  have hmade : ((deliver exampleCalls (mlfiConnect exampleLoaded .fine .start).2).map fun x =>
      x.1.any fun r => archived r.out ≠ []) = some true := by decide +kernel
  obtain ⟨⟨replies, w'⟩, hrun, hany⟩ := Option.map_eq_some_iff.1 hmade
  have hall := archived_content exampleLoaded_hosts h0 exampleMail (by decide) (by decide)
    (by rfl) (fun c hc => by
      obtain ⟨cb, -, rfl⟩ := List.mem_map.1 hc
      exact Env.fine_spools) hrun
  have htext : exampleMail.archiveText = bytes
    "X-Messasy-From: a@example.com\nX-Messasy-To: b@example.com\nSubject: s\n\nx\ny\r" := by
    decide +kernel
  rw [htext] at hall
  exact ⟨_, replies, w', hrun, by simpa using hany, hall⟩

end Messasy
