import Messasy.Module.LdaCommand

/-!
# The delivery loop of the lda module

`deliverRound` is one round of the loop of `lda_close`, with the answers it meets: the two
`continue`s stay at the same address, a failed `fork` returns, and a started command is fed from
`mail_file`, which `rewind` sets back afterwards. `deliverRounds_ended` says when the loop is over
after as many rounds as there are addresses, and `deliverLoop_rounds` that `deliverLoop` runs such
rounds.
-/

namespace Messasy

open Lib

/-- The answers that a round meets; that of `waitpid` is only logged. `write` is asked for a number
of bytes, `none` is a failure. -/
structure Round where
  pipe2 : Bool
  fork : Bool
  write : Nat → Nat → Option Nat

/-- A command that was started: `unread` is what `mail_file` had left, `piped` what the parent wrote
into the pipe. -/
structure Started where
  address : Str
  execCommand : Str
  unread : Str
  piped : Str
  deriving DecidableEq

/-- What a command was started for, and what there was to read for it. -/
def Started.request (s : Started) : Str × Str × Str := (s.address, s.execCommand, s.unread)

structure Delivering where
  currentAddr : List Str
  /-- What `fread` has still to read. -/
  mailFile : Str
  started : List Started
  /-- Set by a failed `fork`, which returns `R_ERROR`. -/
  returned : Bool

/-- `sizeof(buffer)`. -/
def BUFFER_SIZE : Nat := 4096

/-- The loop of `fread` and `write`, from the call `i` on: what is written, and what is left to
read. A call reads a byte at least, so the length bounds the rounds. -/
def pipeMail (write : Nat → Nat → Option Nat) : Nat → Nat → Str → Str × Str
  | 0, _, unread => ([], unread)
  | k + 1, i, unread =>
    let buffer := unread.take BUFFER_SIZE
    if buffer = [] then ([], unread)
    else
      match write i buffer.length with
      | none => ([], unread.drop BUFFER_SIZE)
      | some n =>
        if n = buffer.length then
          let (piped, unread) := pipeMail write k (i + 1) (unread.drop BUFFER_SIZE)
          (buffer ++ piped, unread)
        else (buffer.take n, unread.drop BUFFER_SIZE)

/-- The test on `MAX_COMMAND_LENGTH`. -/
def tooLong (cfLdacommand : Str) : Bool :=
  (ldaTemplate cfLdacommand false).2 &&
    decide (MAX_COMMAND_LENGTH - 1 < (ldaTemplate cfLdacommand false).1.length + 256)

section
variable (cfLdacommand : Str) (execCommand : Str → Str) (message : Str)

/-- One round; `execCommand` is the text that is built for an address. -/
def deliverRound (d : Delivering) (r : Round) : Delivering :=
  if d.returned then d
  else
    match d.currentAddr with
    | [] => d
    | address :: next =>
      -- `continue`, twice: `current_addr` is not stepped
      if tooLong cfLdacommand then d
      else if r.pipe2 = false then d
      else if r.fork = false then { d with returned := true }
      else
        let (piped, _) := pipeMail r.write d.mailFile.length 0 d.mailFile
        { currentAddr := next
          mailFile := message
          started := d.started ++ [⟨address, execCommand address, d.mailFile, piped⟩]
          returned := false }

/-- Some rounds of the loop. -/
def deliverRounds (rounds : List Round) (d : Delivering) : Delivering :=
  rounds.foldl (deliverRound cfLdacommand execCommand message) d

end

/-- The loop over the addresses begins. -/
def Delivering.start (message : Str) (saveaddr : List Str) : Delivering :=
  ⟨saveaddr, message, [], false⟩

/-- No further round is run. -/
def Delivering.Ended (d : Delivering) : Prop := d.returned = true ∨ d.currentAddr = []

instance (d : Delivering) : Decidable d.Ended := inferInstanceAs (Decidable (_ ∨ _))

/-! ## What a round keeps -/

theorem pipeMail_prefix (write : Nat → Nat → Option Nat) : ∀ (k i : Nat) (unread : Str),
    (pipeMail write k i unread).1 <+: unread
  | 0, _, unread => List.nil_prefix
  | k + 1, i, unread => by
    have hsplit : unread.take BUFFER_SIZE ++ unread.drop BUFFER_SIZE = unread :=
      List.take_append_drop BUFFER_SIZE unread
    unfold pipeMail
    dsimp only
    split
    · exact List.nil_prefix
    · cases write i (unread.take BUFFER_SIZE).length with
      | none => exact List.nil_prefix
      | some n =>
        dsimp only
        split
        · have ih := pipeMail_prefix write k (i + 1) (unread.drop BUFFER_SIZE)
          have h := (List.prefix_append_right_inj (unread.take BUFFER_SIZE)).2 ih
          rwa [hsplit] at h
        · exact (List.take_prefix n _).trans (List.take_prefix BUFFER_SIZE unread)

/-- The commands of the addresses passed so far were started in order, each with the whole message
to read. -/
structure Underway (execCommand : Str → Str) (message : Str) (saveaddr : List Str)
    (d : Delivering) : Prop where
  passed : ∃ passed, saveaddr = passed ++ d.currentAddr ∧
    d.started.map Started.request = passed.map fun a => (a, execCommand a, message)
  rewound : d.mailFile = message
  fed : ∀ s ∈ d.started, s.piped <+: message

section
variable {cfLdacommand : Str} {execCommand : Str → Str} {message : Str} {saveaddr : List Str}

theorem Underway.start (execCommand : Str → Str) (message : Str) (saveaddr : List Str) :
    Underway execCommand message saveaddr (.start message saveaddr) :=
  ⟨⟨[], rfl, rfl⟩, rfl, fun _ hs => by cases hs⟩

theorem Underway.round {d : Delivering} (h : Underway execCommand message saveaddr d) (r : Round) :
    Underway execCommand message saveaddr
      (deliverRound cfLdacommand execCommand message d r) := by
  unfold deliverRound
  split
  · exact h
  split
  · exact h
  next address next hnext =>
    split
    · exact h
    split
    · exact h
    split
    · exact ⟨h.passed, h.rewound, h.fed⟩
    · obtain ⟨passed, hsplit, hstarted⟩ := h.passed
      have hmessage := h.rewound
      refine ⟨⟨passed ++ [address], ?_, ?_⟩, rfl, fun s hs => ?_⟩
      · rw [hsplit, hnext, List.append_assoc]
        rfl
      · rw [List.map_append, List.map_append, hstarted]
        show _ ++ [(address, execCommand address, d.mailFile)] = _
        rw [hmessage]
        rfl
      · rcases List.mem_append.1 hs with hs | hs
        · exact h.fed s hs
        · obtain rfl := List.mem_singleton.1 hs
          show (pipeMail r.write d.mailFile.length 0 d.mailFile).1 <+: message
          rw [hmessage]
          exact pipeMail_prefix r.write message.length 0 message

theorem Underway.rounds (rounds : List Round) {d : Delivering}
    (h : Underway execCommand message saveaddr d) :
    Underway execCommand message saveaddr
      (deliverRounds cfLdacommand execCommand message rounds d) := by
  induction rounds generalizing d with
  | nil => exact h
  | cons r rounds ih => exact ih (h.round r)

/-! ## When the loop is over -/

theorem deliverRounds_returned (rounds : List Round) {d : Delivering} (h : d.returned = true) :
    deliverRounds cfLdacommand execCommand message rounds d = d := by
  induction rounds with
  | nil => rfl
  | cons r rounds ih =>
    have hround : deliverRound cfLdacommand execCommand message d r = d := if_pos h
    show deliverRounds cfLdacommand execCommand message rounds (deliverRound _ _ _ d r) = d
    rw [hround, ih]

/-- After no more rounds than there are addresses, the loop is over when a `fork` behind a pipe has
failed, or when it has made every pipe and come to the end. -/
theorem deliverRounds_ended (hshort : tooLong cfLdacommand = false) :
    ∀ (rounds : List Round) (d : Delivering), d.returned = false →
      rounds.length ≤ d.currentAddr.length →
      ((deliverRounds cfLdacommand execCommand message rounds d).Ended ↔
        (∃ r ∈ rounds, r.pipe2 = true ∧ r.fork = false) ∨
          d.currentAddr.length = rounds.length ∧ ∀ r ∈ rounds, r.pipe2 = true)
  | [], d, hd, _ => by
    show d.Ended ↔ _
    simp [Delivering.Ended, hd]
  | r :: rounds, d, hd, hlen => by
    show (deliverRounds cfLdacommand execCommand message rounds
      (deliverRound cfLdacommand execCommand message d r)).Ended ↔ _
    cases haddr : d.currentAddr with
    | nil =>
      rw [haddr] at hlen
      exact absurd hlen (Nat.not_succ_le_zero _)
    | cons address next =>
      rw [haddr, List.length_cons, List.length_cons] at hlen
      cases hpipe : r.pipe2 with
      | false =>
        -- the round is lost: the rounds left are too few for the addresses left
        have hround : deliverRound cfLdacommand execCommand message d r = d := by
          simp [deliverRound, hd, haddr, hshort, hpipe]
        rw [hround, deliverRounds_ended hshort rounds d hd (by rw [haddr, List.length_cons]; omega),
          haddr, List.length_cons]
        simp only [List.exists_mem_cons_iff, List.forall_mem_cons, hpipe, Bool.false_eq_true,
          false_and, false_or, and_false, or_false]
        exact or_iff_left fun h => by omega
      | true =>
        cases hfork : r.fork with
        | false =>
          have hround : deliverRound cfLdacommand execCommand message d r =
              { d with returned := true } := by
            simp [deliverRound, hd, haddr, hshort, hpipe, hfork]
          rw [hround, deliverRounds_returned rounds rfl]
          exact iff_of_true (.inl rfl) (.inl ⟨r, List.mem_cons_self, hpipe, hfork⟩)
        | true =>
          obtain ⟨d', hround, hd', hnext⟩ : ∃ d',
              deliverRound cfLdacommand execCommand message d r = d' ∧ d'.returned = false ∧
                d'.currentAddr = next := by
            refine ⟨_, rfl, ?_, ?_⟩ <;> simp [deliverRound, hd, haddr, hshort, hpipe, hfork]
          rw [hround, deliverRounds_ended hshort rounds d' hd' (by rw [hnext]; omega), hnext,
            List.length_cons, List.length_cons]
          simp only [List.exists_mem_cons_iff, List.forall_mem_cons, hpipe, hfork, true_and,
            Bool.true_eq_false, false_or, Nat.add_right_cancel_iff]

theorem LdaAccepted.not_tooLong {env : ConfEnv} (h : LdaAccepted env cfLdacommand) :
    tooLong cfLdacommand = false := by
  have hfit := h.template_fits false
  have hsize : COMMAND_SIZE = 1024 := rfl
  have hmax : MAX_COMMAND_LENGTH = 1280 := rfl
  unfold tooLong
  rw [Bool.and_eq_false_iff]
  right
  rw [decide_eq_false_iff_not]
  omega

end

/-- The loop ends within as many rounds as there are addresses, and when it does not return an error
the command was started for every address in turn, each time with the whole message to read, of
which it was given the beginning. -/
def DeliveredInOrder (cfLdacommand : Str) (execCommand : Str → Str) (message : Str)
    (saveaddr : List Str) (rounds : List Round) : Prop :=
  let d := deliverRounds cfLdacommand execCommand message rounds (.start message saveaddr)
  d.Ended ∧ (d.returned = false → d.currentAddr = [] →
    d.started.map Started.request = saveaddr.map (fun a => (a, execCommand a, message)) ∧
      ∀ s ∈ d.started, s.piped <+: message)

/-- **The delivery loop**, with one round for each address: it is over in time exactly when every
`pipe2` succeeds, or a `fork` behind one that did fails. -/
theorem deliveredInOrder_iff {env : ConfEnv} {cfLdacommand : Str}
    (h : LdaAccepted env cfLdacommand) (execCommand : Str → Str) (message : Str)
    {saveaddr : List Str} {rounds : List Round} (hrounds : rounds.length = saveaddr.length) :
    DeliveredInOrder cfLdacommand execCommand message saveaddr rounds ↔
      (∀ r ∈ rounds, r.pipe2 = true) ∨ ∃ r ∈ rounds, r.pipe2 = true ∧ r.fork = false := by
  have hended : (deliverRounds cfLdacommand execCommand message rounds
      (.start message saveaddr)).Ended ↔ _ :=
    deliverRounds_ended h.not_tooLong rounds (.start message saveaddr) rfl (Nat.le_of_eq hrounds)
  have hprogress : Underway execCommand message saveaddr
      (deliverRounds cfLdacommand execCommand message rounds (.start message saveaddr)) :=
    (Underway.start execCommand message saveaddr).rounds rounds
  have hlen : (Delivering.start message saveaddr).currentAddr.length = rounds.length := hrounds.symm
  rw [and_iff_right hlen, or_comm] at hended
  unfold DeliveredInOrder
  dsimp only
  rw [hended]
  refine and_iff_left fun _ hnil => ⟨?_, hprogress.fed⟩
  obtain ⟨passed, hsplit, hstarted⟩ := hprogress.passed
  rw [hnil, List.append_nil] at hsplit
  rw [hstarted, hsplit]

/-- A round in which every call does all it is asked for. -/
def Round.fine : Round := ⟨true, true, fun _ n => some n⟩

/-- A round without a descriptor left for a pipe. -/
def Round.noPipe : Round := ⟨false, true, fun _ n => some n⟩

theorem deliveredInOrder_two : DeliveredInOrder (deliverCommand false) id (bytes "mail")
    [bytes "a@example.com", bytes "b@example.com"] [.fine, .fine] :=
  (deliveredInOrder_iff (deliverCommand_accepted false) id (bytes "mail") rfl).2
    (.inl (by simp [Round.fine]))

/-- One failed `pipe2`, and the one address takes a second round. -/
theorem not_deliveredInOrder_noPipe : LdaAccepted permissive (deliverCommand false) ∧
    ¬ DeliveredInOrder (deliverCommand false) id (bytes "mail") [bytes "b@example.com"]
      [.noPipe] := by
  refine ⟨deliverCommand_accepted false, fun h => ?_⟩
  have hopen : ¬ (deliverRounds (deliverCommand false) id (bytes "mail") [.noPipe]
      (.start (bytes "mail") [bytes "b@example.com"])).Ended := by decide +kernel
  exact hopen h.1

/-! ## The loop of `lda_close` -/

/-- The commands started, each with its input. -/
def commands (out : List Event) : List (Str × Str) :=
  out.filterMap fun
    | .sh command input => some (command, input)
    | _ => none

section
variable {env : Env} {cfLdacommand : Str} {execCommand : Str → Str} {md : Md}

theorem commands_append (a b : List Event) : commands (a ++ b) = commands a ++ commands b :=
  List.filterMap_append ..

theorem commands_repeated (n : Nat) : ∀ os : Os,
    commands (os.repeated (.pipe2 false) n).out = commands os.out := by
  induction n with
  | zero => exact fun _ => rfl
  | succ n ih =>
    intro os
    rw [Os.repeated, ih]
    exact (commands_append os.out [.pipe2 false]).trans (List.append_nil _)

theorem deliverRounds_noPipe (n : Nat) (rounds : List Round) (d : Delivering)
    (message : Str) :
    deliverRounds cfLdacommand execCommand message (List.replicate n .noPipe ++ rounds) d =
      deliverRounds cfLdacommand execCommand message rounds d := by
  have hlost : deliverRound cfLdacommand execCommand message d .noPipe = d := by
    unfold deliverRound
    split
    · rfl
    split
    · rfl
    split <;> rfl
  induction n with
  | zero => rfl
  | succ n ih =>
    show deliverRounds cfLdacommand execCommand message (List.replicate n .noPipe ++ rounds)
      (deliverRound cfLdacommand execCommand message d .noPipe) = _
    rw [hlost, ih]

/-- Each run of `deliverLoop` is one of rounds: it returns when they have ended, with the result and
the commands that they come to. -/
theorem deliverLoop_rounds (hshort : tooLong cfLdacommand = false) :
    ∀ (l : List Str) (started : List Started) {os os' : Os} {rc : Rc},
      (∀ a ∈ l, ldaCommand cfLdacommand a = some (execCommand a)) →
      deliverLoop env cfLdacommand md l os = some (rc, os') →
      ∃ rounds, ∃ d, deliverRounds cfLdacommand execCommand md.tempfile rounds
          ⟨l, md.tempfile, started, false⟩ = d ∧ d.Ended ∧
        rc = (if d.returned then .error else .success) ∧
        ∃ more, d.started = started ++ more ∧ commands os'.out =
          commands os.out ++ more.map fun s => (s.execCommand, s.unread)
  | [], started, os, os', rc, _, h => by
    cases h
    exact ⟨[], _, rfl, .inr rfl, rfl, [], (List.append_nil _).symm, (List.append_nil _).symm⟩
  | address :: l, started, os, os', rc, htext, h => by
    have haddress := htext address List.mem_cons_self
    unfold deliverLoop at h
    rw [haddress] at h
    cases hpipe : env.pipe2 os.clock with
    | none =>
      rw [hpipe] at h
      cases h
    | some failures =>
      simp only [hpipe] at h
      generalize hos1 : (os.repeated (.pipe2 false) failures).log (.pipe2 true) = os1 at h
      have hcommands : commands os1.out = commands os.out := by
        rw [← hos1]
        exact (commands_append _ [.pipe2 true]).trans
          ((List.append_nil _).trans (commands_repeated failures os))
      cases hfork : env.fork os1.clock with
      | false =>
        simp only [hfork, Bool.false_eq_true, if_false] at h
        cases h
        refine ⟨List.replicate failures .noPipe ++ [⟨true, false, fun _ n => some n⟩], _, rfl, ?_⟩
        rw [deliverRounds_noPipe]
        have hd : deliverRounds cfLdacommand execCommand md.tempfile
            [⟨true, false, fun _ n => some n⟩] ⟨address :: l, md.tempfile, started, false⟩ =
            ⟨address :: l, md.tempfile, started, true⟩ := by
          simp [deliverRounds, deliverRound, hshort]
        rw [hd]
        exact ⟨.inl rfl, rfl, [], (List.append_nil _).symm,
          hcommands.trans (List.append_nil _).symm⟩
      | true =>
        simp only [hfork, if_true] at h
        obtain ⟨s, hs, hunread, hd⟩ : ∃ s : Started,
            s.execCommand = execCommand address ∧ s.unread = md.tempfile ∧
            deliverRound cfLdacommand execCommand md.tempfile
              ⟨address :: l, md.tempfile, started, false⟩ .fine =
              ⟨l, md.tempfile, started ++ [s], false⟩ :=
          ⟨⟨address, execCommand address, md.tempfile, _⟩, rfl, rfl, by
            simp [deliverRound, hshort, Round.fine]; rfl⟩
        obtain ⟨rounds, d, hrun, hended, hrc, more, hstarted, hmore⟩ := deliverLoop_rounds hshort l
          (started ++ [s]) (fun a ha => htext a (List.mem_cons_of_mem _ ha)) h
        refine ⟨List.replicate failures .noPipe ++ .fine :: rounds, d, ?_, hended, hrc, s :: more,
          by rw [hstarted, List.append_assoc]; rfl, ?_⟩
        · rw [deliverRounds_noPipe]
          show deliverRounds _ _ _ rounds (deliverRound _ _ _ _ .fine) = d
          rw [hd]
          exact hrun
        · rw [hmore]
          show commands (os1.out ++ [.sh (execCommand address) md.tempfile]) ++ _ = _
          rw [commands_append, hcommands, List.append_assoc, List.map_cons, hs, hunread]
          rfl

end

end Messasy
