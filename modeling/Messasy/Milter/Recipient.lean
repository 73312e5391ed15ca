import Messasy.Mail.Mailbox
import Messasy.Milter.Pass

/-!
# Archivable recipients

`cfg.Saves m`: in every message with the recipient `<m>`, the save list has the mailbox `m`. For a
mailbox of a saved domain, `saves_iff` says when this is so: `get_addrpart` has to find the end of
the local part, and the filter the domain behind it.
-/

namespace Messasy

open Lib

/-! ## The first `@` -/

theorem tolower_eq_at : ∀ c, tolower c = ch '@' ↔ c = ch '@' := forall_byte (by decide +kernel)

theorem mem_lower_at {s : Str} : ch '@' ∈ lower s ↔ ch '@' ∈ s := by
  simp [lower, tolower_eq_at]

theorem atTail_append {s t : Str} (h : ch '@' ∉ s) : atTail (s ++ ch '@' :: t) = ch '@' :: t := by
  have hat : ch '@' ∈ s ++ ch '@' :: t := by simp
  have hs := strchr_atTail hat
  rw [strchr_append_of_notMem t h] at hs
  exact (Option.some.inj hs).symm

theorem Mailbox.mem_lower_text (m : Mailbox) : ch '@' ∈ lower m.text :=
  mem_lower_at.2 (by simp [Mailbox.text])

/-- Without an `@` of its own in the local part, a mailbox of a saved domain is a direct match. -/
theorem Mailbox.route_save {cfg : Settings} {m : Mailbox}
    (hd : ∃ d ∈ pieces cfg.cfMydomain, lower d = lower m.domain)
    (hs : ∃ p ∈ pieces cfg.cfSavemailaddress, lower p = lower (ch '@' :: m.domain))
    (hat : ch '@' ∉ m.localPart.text) : route cfg (lower m.text) = .save := by
  have htail : atTail (lower m.text) = ch '@' :: lower m.domain := by
    have h1 : lower m.text = lower m.localPart.text ++ ch '@' :: lower m.domain := by
      rw [Mailbox.text, lower_append, lower_cons, (tolower_eq_at _).2 rfl]
    rw [h1, atTail_append (fun h => hat (mem_lower_at.1 h))]
  have hcons : Considered cfg (lower m.text) := by
    obtain ⟨d, hmem, he⟩ := hd
    exact ⟨d, hmem, by rw [he, htail, List.tail_cons, lower_lower]⟩
  have hdirect : Direct cfg (lower m.text) := by
    obtain ⟨p, hmem, he⟩ := hs
    rw [lower_cons, (tolower_eq_at _).2 rfl] at he
    have hp : p ≠ [] := by
      rintro rfl
      cases he
    obtain ⟨c, t, rfl⟩ := List.exists_cons_of_ne_nil hp
    have hc : c = ch '@' := (tolower_eq_at c).1 (List.cons.inj he).1
    refine ⟨_, hmem, hp, ?_⟩
    rw [Matches, if_neg (not_not.2 (by simp [hc])), if_pos (by simp [hc]), he, htail, lower_cons,
      (tolower_eq_at _).2 rfl, lower_lower]
  rw [route, if_pos hcons, if_pos hdirect]

/-- The argument with its brackets is no mailbox: a mailbox does not start with `<` or `@`. -/
theorem Mailbox.lower_head (m : Mailbox) :
    ∃ c t, lower m.text = c :: t ∧ c ≠ ch '<' ∧ c ≠ ch '@' := by
  have hdot : ∀ c, isDotText c = true → tolower c ≠ ch '<' ∧ tolower c ≠ ch '@' :=
    forall_byte (by decide +kernel)
  obtain ⟨l, d, hdom⟩ := m
  cases l with
  | dotString s hne h =>
    obtain ⟨c, t, rfl⟩ := List.exists_cons_of_ne_nil hne
    exact ⟨_, _, rfl, hdot c (h c List.mem_cons_self)⟩
  | quotedString q => exact ⟨_, _, rfl, by decide, by decide⟩

/-! ## The filter on an envelope -/

section
variable {cfg : Settings} {from_ a : Str} {rcpts : List Str} {ldap : Ldap}

/-- A direct match is on every list that the filter returns. -/
theorem mem_of_filtered (ha : a ∈ candidates cfg from_ rcpts) (hr : route cfg a = .save)
    {list : List Str} (h : filtered cfg ldap from_ rcpts = .selected list) : a ∈ list := by
  have hsave : a ∈ routed cfg .save (candidates cfg from_ rcpts) :=
    List.mem_filter.2 ⟨ha, by simpa using hr⟩
  unfold filtered lookedUp at h
  dsimp only at h
  split at h
  · cases h
    exact hsave
  · split at h
    · split at h
      · cases h
      · split at h
        · cases h
          exact List.mem_append_left _ hsave
        · cases h
        · cases h
    · cases h

/-- When the directory knows nobody, only direct matches are selected. -/
theorem selection_unknown (cfg : Settings) (from_ : Str) (rcpts : List Str) :
    selection cfg (fun _ _ => 0) from_ rcpts = routed cfg .save (candidates cfg from_ rcpts) := by
  have hnone : ∀ (template : Str) (l : List Str) (i : Nat), known template (fun _ _ => 0) i l = [] := by
    intro template l
    induction l with
    | nil => exact fun _ => rfl
    | cons a l ih => exact fun i => by simp [known, ih]
  simp only [selection, hnone, List.append_nil]

/-- A recipient is a candidate when the policy asks for recipients. -/
theorem mem_candidates_of_rcpt (from_ : Str) (hp : TO &&& cfg.cfSavepolicyConv.conv ≠ 0)
    (ha : a ∈ rcpts) :
    complementAddress a cfg ∈ candidates cfg from_ rcpts := by
  unfold candidates
  rw [if_pos hp]
  exact List.mem_map_of_mem (List.mem_append_right _ ha)

/-- Candidates come from the sender and the recipients. -/
theorem candidates_subset {c : Str} (h : c ∈ candidates cfg from_ rcpts) :
    ∃ a ∈ from_ :: rcpts, c = complementAddress a cfg := by
  obtain ⟨a, ha, rfl⟩ := List.mem_map.1 h
  refine ⟨a, ?_, rfl⟩
  rcases List.mem_append.1 ha with h | h
  · split at h
    · simpa using Or.inl (List.mem_singleton.1 h)
    · cases h
  · split at h
    · exact List.mem_cons_of_mem _ h
    · cases h

end

/-! ## The envelope of a message -/

/-- The callbacks of an envelope. -/
def envelope (from_ : Str) (rcpts : List Str) : List Callback :=
  .envfrom from_ :: rcpts.map .envrcpt

/-- Every message with the recipient `<m>`: behind its envelope, every list that `make_savelist`
returns has the mailbox, and it returns one when the directory answers. -/
def Config.Saves (cfg : Config) (m : Mailbox) : Prop :=
  ∀ w, Connection (fun _ _ _ => True) cfg .idle w → w.priv ≠ none →
  ∀ from_ rcpts, bracket m.text ∈ rcpts →
  ∀ calls : List (Env × Callback), calls.map Prod.snd = envelope from_ rcpts →
  ∃ replies w' priv, deliver calls w = some (replies, w') ∧ w'.priv = some priv ∧
    (∀ ldap st, makeSavelist priv.mlfiEnvfrom priv.mlfiRcpttoH w'.heap priv.mlfiAddrmatchedH
        priv.mlfiAddrmatchedT priv.config.toSettings ldap = some (.success, st) →
      ∃ list, contents st.heap.next st.heap st.savelistH = some list ∧ lower m.text ∈ list) ∧
    ∀ answer, ∃ st, makeSavelist priv.mlfiEnvfrom priv.mlfiRcpttoH w'.heap priv.mlfiAddrmatchedH
        priv.mlfiAddrmatchedT priv.config.toSettings (.answering answer) = some (.success, st)

section
variable {cfg : Config} {t : Nat}

theorem Session.deliver_envrcpt (cfg : Config) (t : Nat) :
    ∀ (rcpts : List Str) {calls : List (Env × Callback)} (s : Session),
    calls.map Prod.snd = rcpts.map .envrcpt →
    ∃ replies, s.deliver cfg t calls =
      some (replies, some { s with rcptto := s.rcptto ++ rcpts.map getAddrpart })
  | [], [], s, _ => ⟨[], by simp [deliver]⟩
  | a :: rcpts, (env, cb) :: calls, s, h => by
    simp only [List.map_cons, List.cons.injEq] at h
    obtain ⟨rfl, h⟩ := h
    obtain ⟨replies, he⟩ :=
      deliver_envrcpt cfg t rcpts { s with rcptto := s.rcptto ++ [getAddrpart a] } h
    refine ⟨⟨.continue_, []⟩ :: replies, ?_⟩
    simp only [deliver, step, if_true, he, Option.map_some, List.map_cons, List.append_assoc]
    rfl

/-- The record behind the envelope, and what the filter makes of it. -/
theorem deliver_envelope {w : World} (hconn : Connection (fun _ _ _ => True) cfg .idle w)
    (hw : w.priv ≠ none) {from_ : Str} {rcpts : List Str} {calls : List (Env × Callback)}
    (hcalls : calls.map Prod.snd = envelope from_ rcpts) :
    ∃ replies w' priv, deliver calls w = some (replies, w') ∧ w'.priv = some priv ∧
      ∀ ldap, (filtered cfg.toSettings ldap (getAddrpart from_) (rcpts.map getAddrpart)).Meets
        w'.heap (makeSavelist priv.mlfiEnvfrom priv.mlfiRcpttoH w'.heap priv.mlfiAddrmatchedH
          priv.mlfiAddrmatchedT priv.config.toSettings ldap) := by
  have hsession := hconn.session (J := fun _ ph s => ph = .idle → s = s.ended) (fun _ _ => rfl)
    fun _ _ hst => Session.step_ended hst
  rcases hsession with hnone | ⟨t, s, hsh, hs⟩
  · exact absurd hnone hw
  · match calls, hcalls with
    | (env, cb) :: calls, hcalls =>
      simp only [envelope, List.map_cons, List.cons.injEq] at hcalls
      obtain ⟨rfl, hcalls⟩ := hcalls
      have hs := hs rfl
      have hnil : s.rcptto = [] := by rw [hs]; rfl
      obtain ⟨replies, he⟩ := Session.deliver_envrcpt cfg t rcpts
        { s with envfrom := some (getAddrpart from_) } hcalls
      have hrun : s.deliver cfg t ((env, .envfrom from_) :: calls) =
          some (⟨.continue_, []⟩ :: replies, some { s with
            envfrom := some (getAddrpart from_), rcptto := s.rcptto ++ rcpts.map getAddrpart }) := by
        simp only [Session.deliver, Session.step, if_true, he, Option.map_some]
      rcases deliver_agree ((env, .envfrom from_) :: calls) hsh with
        ⟨-, hno⟩ | ⟨replies', w', x, hw', hx, hsh'⟩
      · rw [hrun] at hno
        cases hno
      · rw [hrun] at hx
        cases hx
        obtain ⟨priv, R, A, hpriv, hp⟩ := hsh'
        refine ⟨_, w', priv, hw', hpriv, fun ldap => ?_⟩
        have hA : priv.mlfiAddrmatchedH = none := by
          have hc := hp.addrmatched
          have hv : vals A = [] := hp.addrmatchedVals.trans (by rw [hs]; rfl)
          rw [List.map_eq_nil_iff.1 hv] at hc
          exact hc
        have hmeets := makeSavelist_session { Env.fine with ldap } hp hA
        simpa only [Session.filtered, hnil, List.nil_append] using hmeets

end

/-! ## Saved recipients -/

/-- A connection that has just been made. -/
theorem connected (cfg : Config) : Connection (fun _ _ _ => True) cfg .idle
    (mlfiConnect cfg .fine .start).2 :=
  .connect (rfl : mlfiConnect cfg .fine .start = (.continue_, _))

section
variable {cfg : Config} {m : Mailbox}

/-- What the first message of a connection shows of a saved mailbox. -/
theorem Config.Saves.selected (h : cfg.Saves m) (from_ : Str) (rcpts : List Str)
    (hmem : bracket m.text ∈ rcpts) (answer : Nat → Str → Nat) :
    ∃ list, filtered cfg.toSettings (.answering answer) (getAddrpart from_)
      (rcpts.map getAddrpart) = .selected list ∧ lower m.text ∈ list := by
  have hcalls : ((envelope from_ rcpts).map fun cb => (Env.fine, cb)).map Prod.snd =
      envelope from_ rcpts := by
    simp [List.map_map, Function.comp_def]
  obtain ⟨replies, w', priv, hrun, hpriv, hlist, hsucc⟩ :=
    h _ (connected cfg) (Option.some_ne_none _) from_ rcpts hmem _ hcalls
  obtain ⟨replies', w2, priv', hrun', hpriv', hmeets⟩ :=
    deliver_envelope (connected cfg) (Option.some_ne_none _) hcalls
  rw [hrun] at hrun'
  cases hrun'
  rw [hpriv] at hpriv'
  cases hpriv'
  obtain ⟨st, he⟩ := hsucc answer
  obtain ⟨list, hcont, hin⟩ := hlist _ st he
  have hm := hmeets (.answering answer)
  rw [he] at hm
  cases hf : filtered cfg.toSettings (.answering answer) (getAddrpart from_)
    (rcpts.map getAddrpart) with
  | undefined => rw [hf] at hm; cases hm
  | failed =>
    rw [hf] at hm
    obtain ⟨st', he', -⟩ := hm
    cases he'
  | selected list' =>
    rw [hf] at hm
    obtain ⟨st', S, he', hs, rfl⟩ := hm
    cases he'
    have hS := hs.save.chain.contents_eq hs.save.chain.length_le
    refine ⟨vals S, rfl, ?_⟩
    rw [show contents st.heap.next st.heap st.savelistH = some (vals S) from hS] at hcont
    cases hcont
    exact hin

/-- A filter text is loaded, unless nothing is ever looked up. -/
theorem Config.Saves.searchable (hp : TO &&& cfg.cfSavepolicyConv.conv ≠ 0) (h : cfg.Saves m)
    (raw : Str)
    (hr : route cfg.toSettings (complementAddress (getAddrpart raw) cfg.toSettings) = .ldap) :
    cfg.cfLdapmailfilter ≠ none := by
  intro hnull
  obtain ⟨list, hsel, -⟩ := h.selected [] [bracket m.text, raw] List.mem_cons_self
    fun _ _ => 0
  have hcand : complementAddress (getAddrpart raw) cfg.toSettings ∈ routed cfg.toSettings .ldap
      (candidates cfg.toSettings (getAddrpart []) ([bracket m.text, raw].map getAddrpart)) :=
    List.mem_filter.2 ⟨mem_candidates_of_rcpt _ hp (by simp), by simpa using hr⟩
  obtain ⟨a, l, hl⟩ := List.exists_cons_of_ne_nil (List.ne_nil_of_mem hcand)
  have hundef : filtered cfg.toSettings (.answering fun _ _ => 0) (getAddrpart [])
      ([bracket m.text, raw].map getAddrpart) = .undefined := by
    simp only [filtered, hl, lookedUp, hnull]
    rfl
  rw [hundef] at hsel
  cases hsel

/-- The mailbox is read and matched. -/
theorem Config.Saves.matched (h : cfg.Saves m) :
    m.localPart.closes = true ∧ route cfg.toSettings (lower m.text) = .save := by
  obtain ⟨list, hsel, hin⟩ := h.selected [] [bracket m.text] List.mem_cons_self
    fun _ _ => 0
  have hsave : lower m.text ∈ routed cfg.toSettings .save
      (candidates cfg.toSettings [] [getAddrpart (bracket m.text)]) := by
    by_cases hs : cfg.cfLdapmailfilter ≠ none ∨ routed cfg.toSettings .ldap
        (candidates cfg.toSettings [] [getAddrpart (bracket m.text)]) = []
    · have he := filtered_answering (fun _ _ => 0) hs
      rw [selection_unknown] at he
      have hsel' : filtered cfg.toSettings (.answering fun _ _ => 0) []
        [getAddrpart (bracket m.text)] = .selected list := hsel
      rw [he] at hsel'
      cases hsel'
      exact hin
    · obtain ⟨hnull, hne⟩ := not_or.1 hs
      obtain ⟨a, l, hl⟩ := List.exists_cons_of_ne_nil hne
      have hundef : filtered cfg.toSettings (.answering fun _ _ => 0) []
          [getAddrpart (bracket m.text)] = .undefined := by
        simp only [filtered, hl, lookedUp, not_not.1 hnull]
        rfl
      have hsel' : filtered cfg.toSettings (.answering fun _ _ => 0) []
        [getAddrpart (bracket m.text)] = .selected list := hsel
      rw [hundef] at hsel'
      cases hsel'
  obtain ⟨hcand, hroute⟩ := List.mem_filter.1 hsave
  refine ⟨?_, by simpa using hroute⟩
  obtain ⟨c, t, htext, hlt, hat⟩ := m.lower_head
  obtain ⟨a, ha, he⟩ := candidates_subset hcand
  rcases List.mem_cons.1 ha with rfl | ha
  -- an empty sender is completed to `@` and the default domain
  · have hnil : complementAddress [] cfg.toSettings = ch '@' :: cfg.cfDefaultdomain := rfl
    rw [hnil, htext] at he
    exact absurd (List.cons.inj he).1 hat
  · obtain rfl := List.mem_singleton.1 ha
    by_contra hc
    have hmem : ch '@' ∈ lower (bracket m.text) :=
      mem_lower_at.2 (by simp [bracket, Mailbox.text])
    rw [getAddrpart_bracket, if_neg hc, complementAddress_of_mem _ hmem, htext] at he
    exact hlt (List.cons.inj he).1

/-- A mailbox that is read and matched is saved. -/
theorem saves_of_matched (hp : TO &&& cfg.cfSavepolicyConv.conv ≠ 0)
    (hf : cfg.cfLdapmailfilter ≠ none ∨
      ∀ raw, route cfg.toSettings (complementAddress (getAddrpart raw) cfg.toSettings) ≠ .ldap)
    (hc : m.localPart.closes = true) (hr : route cfg.toSettings (lower m.text) = .save) :
    cfg.Saves m := by
  intro w hconn hw from_ rcpts hmem calls hcalls
  obtain ⟨replies, w', priv, hrun, hpriv, hmeets⟩ := deliver_envelope hconn hw hcalls
  refine ⟨replies, w', priv, hrun, hpriv, fun ldap st he => ?_, fun answer => ?_⟩
  · have h := hmeets ldap
    rw [he] at h
    cases hfil : filtered cfg.toSettings ldap (getAddrpart from_) (rcpts.map getAddrpart) with
    | undefined => rw [hfil] at h; cases h
    | failed => rw [hfil] at h; obtain ⟨st', he', -⟩ := h; cases he'
    | selected list =>
      rw [hfil] at h
      obtain ⟨st', S, he', hs, rfl⟩ := h
      cases he'
      refine ⟨vals S, hs.save.chain.contents_eq hs.save.chain.length_le,
        mem_of_filtered ?_ hr hfil⟩
      have hcand := mem_candidates_of_rcpt (getAddrpart from_) hp
        (List.mem_map_of_mem (f := getAddrpart) hmem)
      rwa [getAddrpart_bracket, if_pos hc, complementAddress_of_mem _ m.mem_lower_text] at hcand
  · have h := hmeets (.answering answer)
    rw [filtered_answering answer] at h
    · obtain ⟨st, -, he, -⟩ := h
      exact ⟨st, he⟩
    · refine hf.imp id fun hno => ?_
      refine List.filter_eq_nil_iff.2 fun c hc => ?_
      obtain ⟨a, ha, rfl⟩ := candidates_subset hc
      rw [← List.map_cons] at ha
      obtain ⟨raw, -, rfl⟩ := List.mem_map.1 ha
      simpa using hno raw

end

/-- A mailbox of a saved domain is saved exactly when the scan finds the end of its local part and
the filter does not take an `@` of the local part for the beginning of another domain; besides,
`make_savelist` must not come to search without a filter text. -/
theorem saves_iff (cfg : Config) (m : Mailbox) (hp : TO &&& cfg.cfSavepolicyConv.conv ≠ 0)
    (hd : ∃ d ∈ pieces cfg.cfMydomain, lower d = lower m.domain)
    (hs : ∃ p ∈ pieces cfg.cfSavemailaddress, lower p = lower (ch '@' :: m.domain)) :
    cfg.Saves m ↔
      (cfg.cfLdapmailfilter ≠ none ∨
        ∀ raw, route cfg.toSettings (complementAddress (getAddrpart raw) cfg.toSettings) ≠ .ldap) ∧
      m.localPart.closes = true ∧
      (ch '@' ∉ m.localPart.text ∨ route cfg.toSettings (lower m.text) = .save) := by
  constructor
  · intro h
    obtain ⟨hc, hr⟩ := h.matched
    refine ⟨?_, hc, .inr hr⟩
    by_cases hall : ∀ raw, route cfg.toSettings
        (complementAddress (getAddrpart raw) cfg.toSettings) ≠ .ldap
    · exact .inr hall
    · push Not at hall
      obtain ⟨raw, hraw⟩ := hall
      exact .inl (h.searchable hp raw hraw)
  · rintro ⟨hf, hc, hr⟩
    exact saves_of_matched hp hf hc (hr.elim (Mailbox.route_save hd hs) id)

/-- `example/messasy.conf` without modules. -/
def plainConfig : Config := exampleConfig.loading []

/-- A quoted local part. -/
def quotedMailbox (q : List Qcontent) : Mailbox where
  localPart := .quotedString q
  domain := bytes "Example.com"
  hdomain := by decide +kernel

/-- `"a\"@Example.com`, whose local part ends in a quoted backslash, is saved. -/
theorem saves_iff_backslash : plainConfig.Saves (quotedMailbox
    [.qtext (ch 'a') (by decide), .quotedPair (ch '\\') (by decide)]) :=
  (saves_iff plainConfig _ (by decide) ⟨bytes "example.com", by decide, by decide⟩
    ⟨bytes "@example.com", by decide, by decide⟩).2
    ⟨.inl (by decide), by decide, .inl (by decide)⟩

/-- `"a\b"@Example.com` is not saved: the scan leaves the quotes at the second backslash. -/
theorem not_saves_backslash : TO &&& plainConfig.cfSavepolicyConv.conv ≠ 0 ∧
    (∃ d ∈ pieces plainConfig.cfMydomain, lower d = lower (bytes "Example.com")) ∧
    (∃ p ∈ pieces plainConfig.cfSavemailaddress, lower p = lower (bytes "@Example.com")) ∧
    ¬ plainConfig.Saves (quotedMailbox [.qtext (ch 'a') (by decide),
      .quotedPair (ch '\\') (by decide), .qtext (ch 'b') (by decide)]) := by
  refine ⟨by decide, ⟨bytes "example.com", by decide, by decide⟩,
    ⟨bytes "@example.com", by decide, by decide⟩, fun h => ?_⟩
  have hc := h.matched.1
  revert hc
  decide

end Messasy
