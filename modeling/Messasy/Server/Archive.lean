import Messasy.Milter.Content
import Messasy.Milter.Files
import Messasy.Server.Isolation

/-!
# The archive on the disk

All connections of the server work on one disk. With `maildrop` and `lda` loaded, each connection
keeps the books of its files (`Conn.Booked`), so by `OnDisk.run` no interleaving of the
connections' system calls, and nothing another program does beside them, changes a file that was
archived; it holds the text of its message.
-/

namespace Messasy

open Lib

/-- What the connection's callbacks have done. -/
def Conn.output (c : Conn) : List Event := c.replies.flatMap (·.out)

/-- The modules of the configuration keep their books. -/
def Config.KeepsBooks (cfg : Config) : Prop :=
  ∃ settings : Settings, ∃ mods : List Module, cfg = settings.loading mods ∧
    ∀ m ∈ mods, m = maildrop ∨ m = lda

/-- The calls of the connection, told apart by file, keep the books of its files. -/
def Conn.Booked (settings : Settings) (mods : List Module) (c : Conn) : Prop :=
  ∃ slots : Slots, Slots.Books (fun _ => .absent) c.output slots ∧
    (c.world.priv = none ∨ ∃ t s, c.world.Shows (settings.loading mods) t (some s) ∧
      s.Filed mods slots)

section
variable {settings : Settings} {mods : List Module} {c c' : Conn}

theorem Conn.Booked.start {p : Nat} {env : Env}
    (h : (Conn.start p (settings.loading mods) env).cfg = some p) :
    (Conn.start p (settings.loading mods) env).Booked settings mods := by
  obtain ⟨t, hsh⟩ := connect_shows (Conn.start_continue h)
  exact ⟨_, .refl _, .inr ⟨t, .fresh, hsh, Slotted.nil, fun _ => trivial, fun _ _ => rfl⟩⟩

/-- A callback goes on with the books. -/
theorem Conn.Booked.callback (hmods : ∀ m ∈ mods, m.Books) (h : c.Booked settings mods) {env : Env}
    (hzero : env.ZeroTaken) {cb : Callback} {r : Sfsistat} {w : World} {ph : Option Phase}
    (hst : c.world.step env cb = some (r, w)) :
    Conn.Booked settings mods
      { c with phase := ph, world := w, replies := c.replies ++ [⟨r, w.os.out⟩] } := by
  obtain ⟨slots, hb, hsession⟩ := h
  have hout : ∀ {slots'}, slots.Books w.os.out slots' → Slots.Books (fun _ => .absent)
      (Conn.output { c with phase := ph, world := w, replies := c.replies ++ [⟨r, w.os.out⟩] })
      slots' := by
    intro slots' hb'
    rw [Conn.output, List.flatMap_append, List.flatMap_singleton]
    exact hb.trans hb'
  rcases hsession with hnone | ⟨t, s, hsh, hfiled⟩
  · obtain ⟨hnone', -, ho⟩ := World.step_freed hnone hst
    refine ⟨slots, hout ?_, .inl hnone'⟩
    rw [ho]
    exact .refl slots
  · have ha := step_agree env hsh cb
    rw [hst] at ha
    cases hs : s.step (settings.loading mods) t env cb with
    | none =>
      rw [hs] at ha
      exact ha.elim
    | some x =>
      obtain ⟨reply, s'⟩ := x
      rw [hs] at ha
      obtain ⟨rfl, hsh'⟩ := ha
      obtain ⟨slots', hb', hfiled'⟩ := Session.step_books hmods hzero hfiled hs
      refine ⟨slots', hout hb', ?_⟩
      cases s' with
      | none => exact .inl hsh'
      | some s' => exact .inr ⟨t, s', hsh', hfiled' s' rfl⟩

theorem Conn.Booked.step (hmods : ∀ m ∈ mods, m.Books) (h : c.Booked settings mods) {e : ConnEvent}
    (hzero : ∀ env cb, e = .callback env cb → env.ZeroTaken) (he : c.step e = some c') :
    c'.Booked settings mods := by
  cases e with
  | callback env cb =>
    obtain ⟨ph, -, he⟩ := Option.bind_eq_some_iff.1 he
    split at he
    · obtain ⟨⟨r, w⟩, hst, hx⟩ := Option.map_eq_some_iff.1 he
      cases hx
      exact h.callback hmods (hzero env cb rfl) hst
    · cases he
  | close =>
    obtain ⟨ph, -, hx⟩ := Option.map_eq_some_iff.1 he
    cases hx
    obtain ⟨slots, hb, -⟩ := h
    refine ⟨slots, hb, .inl ?_⟩
    unfold mlfiClose mlfiFreepriv
    cases hw : c.world.priv with
    | none => exact hw
    | some priv => rfl

theorem Conn.Booked.run (hmods : ∀ m ∈ mods, m.Books) : ∀ {events : List ConnEvent} {c c' : Conn},
    c.Booked settings mods → (∀ env cb, .callback env cb ∈ events → env.ZeroTaken) →
    Conn.run events c = some c' → c'.Booked settings mods
  | [], c, c', h, _, hrun => by
    cases hrun
    exact h
  | e :: events, c, c', h, hzero, hrun => by
    obtain ⟨c1, he, hrun⟩ := Option.bind_eq_some_iff.1 hrun
    refine run hmods (h.step hmods (fun env cb hcb => ?_) he) (fun env cb hcb => ?_) hrun
    · exact hzero env cb (List.mem_cons.2 (.inl hcb.symm))
    · exact hzero env cb (List.mem_cons_of_mem _ hcb)

end

/-! ## All connections -/

theorem Server.mem_own {i : Nat} {e : ConnEvent} : ∀ {events : List ServerEvent},
    e ∈ own i events → .conn i e ∈ events
  | [], h => by cases h
  | .conn j e' :: events, h => by
    rw [own] at h
    split at h
    · rename_i hj
      subst hj
      rcases List.mem_cons.1 h with rfl | h
      · exact List.mem_cons_self
      · exact List.mem_cons_of_mem _ (mem_own h)
    · exact List.mem_cons_of_mem _ (mem_own h)
  | .connect _ :: _, h | .accept :: _, h | .accepted _ :: _, h | .line _ _ :: _, h | .go _ :: _, h
  | .reload _ _ :: _, h => List.mem_cons_of_mem _ (mem_own h)

/-- Every configuration that is loaded keeps books, and the system never gives out descriptor 0. -/
structure Booking (first : Loaded) (events : List ServerEvent) : Prop where
  first : first.config.KeepsBooks
  reload : ∀ t cfg, .reload t (some cfg) ∈ events → cfg.config.KeepsBooks
  zero : ∀ i env cb, .conn i (.callback env cb) ∈ events → env.ZeroTaken

/-- A configuration is the first one or was loaded by a reload. -/
theorem Server.run_loaded {first : Loaded} {events : List ServerEvent} {s : Server}
    (h : run events (start first) = some s) :
    ∀ p, s.loaded p = first ∨ ∃ t, .reload t (some (s.loaded p)) ∈ events := by
  refine run_induction (P := fun events s => ∀ p, s.loaded p = first ∨
    ∃ t, .reload t (some (s.loaded p)) ∈ events) (fun _ => .inl rfl) ?_ h
  intro events s e s' hrun ih he p
  have hold : s'.loaded p = s.loaded p → s'.loaded p = first ∨
      ∃ t, .reload t (some (s'.loaded p)) ∈ events ++ [e] := by
    intro hsame
    rw [hsame]
    exact (ih p).imp_right fun ⟨t, ht⟩ => ⟨t, List.mem_append_left _ ht⟩
  cases (Inv.run hrun).step_cases he with
  | @reload t _ _ cfg _ _ _ _ _ _ _ _ =>
    by_cases hp : p = s.store.heap.next
    · subst hp
      refine .inr ⟨t, List.mem_append_right _ (List.mem_singleton.2 ?_)⟩
      simp [setRequest]
    · exact hold (Function.update_of_ne hp _ _)
  | _ => exact hold rfl

/-- The calls of all connections in an order in which they may have been made: those of one
connection in its own order, the last ones perhaps not yet. -/
def Server.Traced (s : Server) (trace : List (Nat × Event)) : Prop :=
  ∀ i, callsOf i trace <+: ((s.conns[i]?).map Conn.output).getD []

section
variable {first : Loaded} {events : List ServerEvent} {s : Server} {trace : List (Nat × Event)}
  {d0 d : Disk Str Byte}

/-- The connections keep their books. -/
theorem Server.books (hrun : Server.run events (.start first) = some s)
    (ha : Booking first events) (i : Nat) :
    ∃ labelled : List (Str × Event),
      labelled.map Prod.snd = ((s.conns[i]?).map Conn.output).getD [] ∧
      ∀ n, ∃ book, Book.run ((callsOf n labelled).map Event.fileOp) none = some book := by
  cases hc : s.conns[i]? with
  | none => exact ⟨[], rfl, fun _ => ⟨none, rfl⟩⟩
  | some c =>
    obtain ⟨before, env, after, s0, p, rfl, -, -, -, hload, hstart, hown, -⟩ := history hrun i c hc
    have hcfg : (s.loaded p).config.KeepsBooks := by
      rcases run_loaded hrun p with hfirst | ⟨t, ht⟩
      · rw [hfirst]
        exact ha.first
      · exact ha.reload t _ ht
    obtain ⟨settings, mods, heq, hmods⟩ := hcfg
    rw [hload] at heq
    rw [heq] at hstart hown
    have hbooks : ∀ m ∈ mods, m.Books := by
      intro m hm
      rcases hmods m hm with rfl | rfl
      · exact maildrop_books
      · exact lda_books
    obtain ⟨slots, ⟨labelled, hmap, hr⟩, -⟩ := Conn.Booked.run hbooks (.start hstart)
      (fun env cb hcb => ha.zero i env cb (List.mem_append_right _
        (List.mem_cons_of_mem _ (mem_own hcb)))) hown
    exact ⟨labelled, hmap, fun n => ⟨_, hr n⟩⟩

/-- The calls of all connections, told apart by file. -/
theorem Server.exists_labelled (hrun : Server.run events (.start first) = some s)
    (ha : Booking first events) (htrace : s.Traced trace) :
    ∃ labelled : List ((Nat × Str) × Event), labelled.map (fun x => (x.1.1, x.2)) = trace ∧
      ∀ a, ∃ book, Book.run ((callsOf a labelled).map Event.fileOp) none = some book := by
  choose own hown hbook using books hrun ha
  obtain ⟨labelled, hmap, hpre⟩ := Lib.exists_labelled trace own fun i => by
    rw [hown]
    exact htrace i
  refine ⟨labelled, hmap, fun a => ?_⟩
  obtain ⟨book, hrun⟩ := hbook a.1 a.2
  exact Book.run_prefix hrun ((hpre a.1 a.2).map Event.fileOp)

/-- The disk behind these calls. -/
theorem onDisk_labelled {labelled : List ((Nat × Str) × Event)} (h0 : d0.Bounded)
    (hbooks : ∀ a, ∃ book, Book.run ((callsOf a labelled).map Event.fileOp) none = some book)
    (hd : d0.Run ((labelled.map fun x => (x.1.1, x.2)).map fun x => x.2.fileOp) d) :
    ∃ books : Nat × Str → Book Str Byte,
      OnDisk d books (labelled.flatMap fun x => x.2.fileOp.links) ∧
      ∀ a, Book.run ((callsOf a labelled).map Event.fileOp) none = some (books a) := by
  obtain ⟨books, hdisk, hends⟩ := (@OnDisk.start _ _ (Nat × Str) _ h0).run
    (labelled.map fun x => (x.1, x.2.fileOp)) (by simpa [Function.comp_def] using hd)
    fun a => by
      rw [callsOf_map]
      exact hbooks a
  refine ⟨books, by simpa [List.flatMap_map] using hdisk, fun a => ?_⟩
  rw [← hends a, callsOf_map]

theorem Server.link_on_disk (hrun : Server.run events (.start first) = some s)
    (ha : Booking first events) (htrace : s.Traced trace) (h0 : d0.Bounded)
    (hd : d0.Run (trace.map fun x => x.2.fileOp) d) {i : Nat} {old new : Str}
    {content : Option Str} (hlink : (i, Event.link old new content true) ∈ trace) :
    ∃ text ino, content = some text ∧ d.names new = some ino ∧ d.text ino = text := by
  obtain ⟨labelled, rfl, hbooks⟩ := Server.exists_labelled hrun ha htrace
  obtain ⟨books, hdisk, -⟩ := onDisk_labelled h0 hbooks hd
  obtain ⟨⟨a, e⟩, hmem, heq⟩ := List.mem_map.1 hlink
  obtain ⟨rfl, rfl⟩ := Prod.mk.inj heq
  obtain ⟨book, hbook⟩ := hbooks a
  obtain ⟨text, rfl⟩ := Book.run_link hbook
    (List.mem_map.2 ⟨_, mem_callsOf.2 hmem, rfl⟩ : FileOp.link old new content ∈ _)
  obtain ⟨-, ⟨ino, hino, htext, -⟩, -⟩ := hdisk.linked new text
    (List.mem_flatMap.2 ⟨_, hmem, List.mem_singleton_self _⟩)
  exact ⟨text, ino, rfl, hino, htext⟩

/-- **Archived files stay.** However the calls of all connections interleave on the disk, a name
that a connection has linked leads to a file with the text that the connection has written, and
nobody has changed or removed it since. -/
theorem archives_stay (hrun : Server.run events (.start first) = some s)
    (ha : Booking first events) (htrace : s.Traced trace) (h0 : d0.Bounded)
    (hd : d0.Run (trace.map fun x => x.2.fileOp) d) :
    ∀ i old new content, (i, Event.link old new content true) ∈ trace →
      ∃ text ino, content = some text ∧ d.names new = some ino ∧ d.text ino = text :=
  fun _ _ _ _ hlink => Server.link_on_disk hrun ha htrace h0 hd hlink

end

/-! ### An example -/

/-- A system in which every call succeeds, with a new descriptor for every file. -/
def sharedEnv : Env := { Env.fine with mkstemp := fun i => (3 + i, bytes "abcdef") }

/-- lda and maildrop. -/
def sharedLoaded : Loaded where
  config :=
    { exampleConfig with
      cfExtraconfig := [⟨bytes "lda", .lda (bytes "/bin/deliver %m")⟩,
        ⟨bytes "maildrop", .maildrop exampleFolder⟩] : Settings }.loading [lda, maildrop]
  cfAdminpassword := []

def sharedCalls : List (Env × Callback) :=
  (exampleMail.callbacks ++ [Callback.eom]).map fun cb => (sharedEnv, cb)

/-- A connection delivers the message of the example. -/
def sharedRun : List ServerEvent :=
  [.connect sharedEnv] ++ (sharedCalls.map fun x => .conn 0 (.callback x.1 x.2)) ++ []

def emptyDisk : Disk Str Byte := ⟨fun _ => none, fun _ => [], fun _ => none, 0, []⟩

theorem emptyDisk_bounded : emptyDisk.Bounded :=
  ⟨fun _ _ h => (by cases h), fun _ _ h => (by cases h)⟩

theorem sharedLoaded_keepsBooks : sharedLoaded.config.KeepsBooks :=
  ⟨_, [lda, maildrop], rfl, fun m hm => by simpa [or_comm] using hm⟩

theorem sharedRun_booking : Booking sharedLoaded sharedRun where
  first := sharedLoaded_keepsBooks
  reload t cfg hmem := by simp [sharedRun] at hmem
  zero i env cb hmem := by
    have hcall : env = sharedEnv := by
      simp only [sharedRun, sharedCalls, List.mem_append, List.mem_map, List.mem_singleton,
        List.not_mem_nil, or_false] at hmem
      rcases hmem with hmem | ⟨_, ⟨_, -, rfl⟩, heq⟩
      · cases hmem
      · cases heq
        rfl
    subst hcall
    intro k
    change (3 + (k : Int)) ≠ 0
    omega

/-- A successful `link`. -/
def Event.isLinked : Event → Bool
  | .link _ _ _ ok => ok
  | _ => false

/-- A command. -/
def Event.isSh : Event → Bool
  | .sh _ _ => true
  | _ => false

/-- What comes of it: the calls can be made on an empty disk, a file is linked, and a command is
run. -/
theorem sharedRun_output : ∃ (s : Server) (c : Conn) (d : Disk Str Byte),
    Server.run sharedRun (.start sharedLoaded) = some s ∧ s.conns = [c] ∧
      (c.output.map Event.fileOp).foldlM Disk.exec emptyDisk = some d ∧
      (∃ old new content, .link old new content true ∈ c.output) ∧
      ∃ command input, .sh command input ∈ c.output := by
  have hcheck : ((Server.run sharedRun (.start sharedLoaded)).bind fun s =>
      s.conns.head?.bind fun c =>
        ((c.output.map Event.fileOp).foldlM Disk.exec emptyDisk).map fun _ =>
          s.conns.tail.isEmpty && c.output.any Event.isLinked && c.output.any Event.isSh) =
      some true := by decide +kernel
  obtain ⟨s, hs, hcheck⟩ := Option.bind_eq_some_iff.1 hcheck
  obtain ⟨c, hc, hcheck⟩ := Option.bind_eq_some_iff.1 hcheck
  obtain ⟨d, hd, hout⟩ := Option.map_eq_some_iff.1 hcheck
  simp only [Bool.and_eq_true, List.any_eq_true, List.isEmpty_iff] at hout
  obtain ⟨⟨htail, e, he, hlink⟩, e', he', hsh⟩ := hout
  obtain ⟨conns, hconns⟩ := List.head?_eq_some_iff.1 hc
  rw [hconns, List.tail_cons] at htail
  refine ⟨s, c, d, hs, by rw [hconns, htail], hd, ?_, ?_⟩
  · cases e with
    | link old new content ok =>
      obtain rfl : ok = true := hlink
      exact ⟨old, new, content, he⟩
    | _ => cases hlink
  · cases e' with
    | sh command input => exact ⟨command, input, he'⟩
    | _ => cases hsh

/-- All calls of a single connection. -/
theorem Server.traced_single {s : Server} {c : Conn} (hc : s.conns = [c]) {evs : List Event}
    (hevs : evs <+: c.output) : s.Traced (evs.map fun e => (0, e)) := by
  intro i
  rw [hc]
  cases i with
  | zero =>
    have hall : callsOf 0 (evs.map fun e => (0, e)) = evs := by simp [callsOf]
    rw [hall]
    exact hevs
  | succ i =>
    have hnone : callsOf (i + 1) (evs.map fun e => (0, e)) = [] := by simp [callsOf]
    rw [hnone]
    exact List.nil_prefix

/-- The file that maildrop has archived is there. -/
theorem archives_stay_shared : ∃ (s : Server) (c : Conn) (d : Disk Str Byte) (new : Str)
    (ino : Nat), Server.run sharedRun (.start sharedLoaded) = some s ∧ s.conns = [c] ∧
      (∃ old content, .link old new content true ∈ c.output) ∧ d.names new = some ino := by
  obtain ⟨s, c, d, hs, hc, hd, ⟨old, new, content, hlink⟩, -⟩ := sharedRun_output
  obtain ⟨-, ino, -, hino, -⟩ := archives_stay hs sharedRun_booking
    (Server.traced_single hc List.prefix_rfl) emptyDisk_bounded
    (by simpa [Function.comp_def] using Disk.exec_run hd) 0 old new content
    (List.mem_map.2 ⟨_, hlink, rfl⟩)
  exact ⟨s, c, d, new, ino, hs, hc, ⟨old, content, hlink⟩, hino⟩

/-- While the callbacks go on, a connection delivers a message. -/
theorem Conn.run_deliver : ∀ {calls : List (Env × Callback)} {c c' : Conn},
    Conn.run (calls.map fun x => .callback x.1 x.2) c = some c' →
    ∃ replies, c'.replies = c.replies ++ replies ∧ replies.length = calls.length ∧
      ((∀ r ∈ replies.dropLast, r.stat = .continue_) →
        deliver calls c.world = some (replies, c'.world))
  | [], c, c', h => by
    cases h
    exact ⟨[], (List.append_nil _).symm, rfl, fun _ => rfl⟩
  | (env, cb) :: calls, c, c', h => by
    obtain ⟨c1, he, h⟩ := Option.bind_eq_some_iff.1 h
    obtain ⟨ph, -, he⟩ := Option.bind_eq_some_iff.1 he
    split at he
    · obtain ⟨⟨r, w⟩, hst, hx⟩ := Option.map_eq_some_iff.1 he
      cases hx
      obtain ⟨replies, hreplies, hlength, hgoes⟩ := run_deliver h
      refine ⟨⟨r, w.os.out⟩ :: replies, ?_, by rw [List.length_cons, hlength]; rfl, fun hall => ?_⟩
      · rw [hreplies, List.append_assoc]
        rfl
      · unfold deliver
        rw [hst]
        dsimp only at hgoes ⊢
        cases replies with
        | nil =>
          obtain rfl := List.length_eq_zero_iff.1 hlength.symm
          cases h
          split <;> rfl
        | cons r' replies =>
          rw [List.dropLast_cons_of_ne_nil (by simp)] at hall
          have hr := hall _ List.mem_cons_self
          dsimp only at hr
          rw [if_pos hr, hgoes fun r hr => hall r (List.mem_cons_of_mem _ hr)]
          rfl
    · cases he

namespace Server

theorem Steps.conns_length {s s' : Server} {e : ServerEvent} (h : s.Steps e s') :
    s.conns.length ≤ s'.conns.length := by
  cases h <;> simp [setRequest]

/-- A connection between two points of a run. -/
theorem run_own {i : Nat} : ∀ {events : List ServerEvent} {s s' : Server} {c c' : Conn},
    s.Inv → Server.run events s = some s' → s.conns[i]? = some c → s'.conns[i]? = some c' →
    Conn.run (own i events) c = some c'
  | [], s, s', c, c', _, h, hc, hc' => by
    cases h
    rw [hc] at hc'
    exact hc'
  | e :: events, s, s', c, c', hs, h, hc, hc' => by
    obtain ⟨s1, he, h⟩ := Option.bind_eq_some_iff.1 h
    have hstep := hs.step_cases he
    have hlt := (List.getElem?_eq_some_iff.1 hc).1
    obtain ⟨c1, hc1⟩ : ∃ c1, s1.conns[i]? = some c1 :=
      ⟨_, List.getElem?_eq_getElem (Nat.lt_of_lt_of_le hlt hstep.conns_length)⟩
    rw [← List.singleton_append, own_append, Conn.run_append]
    rcases hstep.conns hc1 with ⟨c0, hc0, hown⟩ | ⟨env, p, -, hi, -⟩
    · obtain rfl := Option.some.inj (hc.symm.trans hc0)
      rw [hown]
      exact run_own (hs.step hstep) h hc1 hc'
    · omega

end Server

theorem mem_archived {old new text : Str} : ∀ {out : List Event},
    .link old new (some text) true ∈ out → (new, text) ∈ archived out
  | e :: out, h => by
    have hrest : .link old new (some text) true ∈ out → (new, text) ∈ archived (e :: out) := by
      intro h
      rw [← List.singleton_append, archived_append]
      exact List.mem_append_right _ (mem_archived h)
    rcases List.mem_cons.1 h with rfl | h
    · exact List.mem_cons_self
    · exact hrest h

/-- **From the message to the disk.** A connection that is between two messages gets a whole
message, callback by callback, while the other connections, the handlers and other programs go on.
Every archive file that comes of it holds the text of the message, then and later. -/
theorem mail_archived {first : Loaded} {before mid after : List ServerEvent} {s0 s1 s : Server}
    (hbefore : Server.run before (.start first) = some s0) (hmid : Server.run mid s0 = some s1)
    (hafter : Server.run after s1 = some s) (ha : Booking first (before ++ (mid ++ after)))
    {i : Nat} {c0 c1 : Conn} (hc0 : s0.conns[i]? = some c0) (hidle : c0.phase = some .idle)
    (hc1 : s1.conns[i]? = some c1) (hh : (s0.loaded c0.addr).config.Hosts maildrop Os.archived)
    (m : Mail) (hheaders : m.headers ≠ []) (hchunks : m.chunks ≠ [])
    {calls : List (Env × Callback)}
    (hown : Server.own i mid = calls.map fun x => .callback x.1 x.2)
    (hcalls : calls.map Prod.snd = m.callbacks ++ [.eom]) (henv : ∀ c ∈ calls, c.1.Spools)
    (hgoes : ∀ r ∈ (c1.replies.drop c0.replies.length).dropLast, r.stat = .continue_)
    {trace : List (Nat × Event)} {d0 d : Disk Str Byte} (htrace : s.Traced trace)
    (h0 : d0.Bounded) (hd : d0.Run (trace.map fun x => x.2.fileOp) d) :
    ∀ r ∈ c1.replies.drop c0.replies.length, ∀ old new content,
      .link old new content true ∈ r.out → (i, Event.link old new content true) ∈ trace →
      ∃ ino, d.names new = some ino ∧ d.text ino = m.archiveText := by
  intro r hr old new content hout hlink
  have hrun : Server.run (before ++ (mid ++ after)) (.start first) = some s := by
    rw [Server.run_append, hbefore, Option.bind_some, Server.run_append, hmid]
    exact hafter
  obtain ⟨text, ino, rfl, hino, htext⟩ := Server.link_on_disk hrun ha htrace h0 hd hlink
  refine ⟨ino, hino, htext.trans ?_⟩
  -- the connection on its own, under the configuration it has retrieved
  have hconn : Connection (fun _ _ _ => True) (s0.loaded c0.addr).config .idle c0.world := by
    obtain ⟨before', env, after', s2, p, -, -, -, -, hload, hstart, hown', -⟩ :=
      Server.history hbefore i c0 hc0
    obtain rfl : c0.addr = p := Conn.run_addr hown'
    rw [hload]
    refine Conn.run_connection hown' (fun ph hph => ?_) .idle hidle
    cases hph
    exact Conn.start_connection hstart
  have hcrun := Server.run_own (Server.Inv.run hbefore) hmid hc0 hc1
  rw [hown] at hcrun
  obtain ⟨replies, hreplies, -, hdeliver⟩ := Conn.run_deliver hcrun
  rw [hreplies, List.drop_left] at hr hgoes
  replace hdeliver := hdeliver hgoes
  rcases hconn.tidy hh with hnone | ⟨t, session, hsh, htidy⟩
  · cases calls with
    | nil => simp [Mail.callbacks] at hcalls
    | cons x calls =>
      obtain ⟨env, cb⟩ := x
      simp only [Mail.callbacks, List.map_cons, List.cons_append, List.cons.injEq] at hcalls
      obtain ⟨rfl, -⟩ := hcalls
      simp [deliver, World.step, World.main, mlfiEnvfrom, hnone] at hdeliver
  · rcases deliver_agree calls hsh with ⟨hw, -⟩ | ⟨replies', w2, x, hw, hs, -⟩
    · rw [hw] at hdeliver
      cases hdeliver
    · rw [hw] at hdeliver
      cases hdeliver
      refine Session.archives_text hh htidy m hheaders hchunks hcalls henv hs r hr (new, text) ?_
      exact mem_archived hout

/-- The message of the example on an empty disk. -/
theorem mail_archived_shared : ∃ (s : Server) (c : Conn) (d : Disk Str Byte) (new : Str)
    (ino : Nat), Server.run sharedRun (.start sharedLoaded) = some s ∧ s.conns = [c] ∧
      (∃ old content, .link old new content true ∈ c.output) ∧ d.names new = some ino ∧
      d.text ino = exampleMail.archiveText := by
  obtain ⟨s, c, d, hs, hc, hd, ⟨old, new, content, hlink⟩, -⟩ := sharedRun_output
  have hc1 : s.conns[0]? = some c := by rw [hc]; rfl
  obtain ⟨s0, c0, hs0, hmid, hc0, hidle, haddr, hreplies⟩ : ∃ (s0 : Server) (c0 : Conn),
      Server.run [.connect sharedEnv] (.start sharedLoaded) = some s0 ∧
      Server.run (sharedCalls.map fun x => .conn 0 (.callback x.1 x.2)) s0 = some s ∧
      s0.conns[0]? = some c0 ∧ c0.phase = some .idle ∧
      s0.loaded c0.addr = sharedLoaded ∧ c0.replies = [] := by
    rw [sharedRun, List.append_nil, Server.run_append] at hs
    exact ⟨_, _, rfl, hs, rfl, rfl, rfl, rfl⟩
  have hgoes : ∀ r ∈ c.replies, r.stat = .continue_ := by
    have hall : ((Server.run sharedRun (.start sharedLoaded)).bind fun s => (s.conns[0]?).map
        fun c => c.replies.all fun r => r.stat == .continue_) = some true := by decide +kernel
    rw [hs, Option.bind_some, hc1, Option.map_some, Option.some.injEq, List.all_eq_true] at hall
    exact fun r hr => by simpa using hall r hr
  obtain ⟨r, hr, hout⟩ := List.mem_flatMap.1 hlink
  have hhosts : (s0.loaded c0.addr).config.Hosts maildrop Os.archived := by
    rw [haddr]
    exact hosts_loading [lda] [] _ fun m hm k => by
      obtain rfl := List.mem_singleton.1 hm
      exact sibling_keeps (.inr (.inr rfl)) k
  have hafter : Server.run [] s = some s := rfl
  have hown : Server.own 0 (sharedCalls.map fun x => .conn 0 (.callback x.1 x.2)) =
      sharedCalls.map fun x => .callback x.1 x.2 := rfl
  obtain ⟨ino, hino, htext⟩ := mail_archived hs0 hmid hafter sharedRun_booking hc0 hidle hc1
    hhosts exampleMail (by decide) (by decide) hown rfl
    (fun x hx => by
      obtain ⟨cb, -, rfl⟩ := List.mem_map.1 hx
      exact ⟨fun _ _ => rfl, fun k => by
        change 0 < (3 + (k : Int))
        omega⟩)
    (fun r hr => hgoes r (List.mem_of_mem_drop (List.dropLast_subset _ hr)))
    (Server.traced_single hc List.prefix_rfl) emptyDisk_bounded
    (by simpa [Function.comp_def] using Disk.exec_run hd) r
    (by rw [hreplies]; exact hr) old new content hout (List.mem_map.2 ⟨_, hlink, rfl⟩)
  exact ⟨s, c, d, new, ino, hs, hc, ⟨old, content, hlink⟩, hino, htext⟩

end Messasy
