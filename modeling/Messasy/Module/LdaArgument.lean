import Messasy.Lib.ShellWord
import Messasy.Mail.Addrpart
import Messasy.Module.LdaCommand

/-!
# The address as an argument of the command

The shell reads the text that `lda_close` hands it, and the address stands in that text as it came
with the envelope. Where the `%m` is a word of its own (`WordPlace`), the address is the argument in
its place exactly when the shell gives no byte of it a meaning, and `sprintf` leaves the words
around it alone (`argumentIsData_iff`).
-/

namespace Messasy

open Lib

/-- The text around a single `%m` that stands unquoted, as a word of its own. -/
structure WordPlace (pre post : Str) : Prop where
  pre_single : ¬ bytes "%m" <:+: pre
  post_single : ¬ bytes "%m" <:+: post
  between : (Shell.Scan.start.run pre).Between
  delimited : Shell.Delimited post

/-- The command for the address has the words and operators of the template
(`WordPlace.tokens_eq`), with one word in the place of the `%m` that has the address for its
argument. -/
def ArgumentIsData (pre post address : Str) : Prop :=
  ∃ text word, ldaCommand (pre ++ bytes "%m" ++ post) address = some text ∧
    Shell.tokens text = Shell.tokens pre ++ .word word :: Shell.tokens post ∧
    Shell.argument word = some address

section
variable {env : ConfEnv} {pre post address before after : Str}

theorem ldaText_append : ∀ {pre : Str}, ¬ bytes "%m" <:+: pre → ∀ address post,
    ldaText address (pre ++ bytes "%m" ++ post) false = pre ++ address ++ ldaText address post true
  | [], _, _, _ => rfl
  | [c], _, address, post => by
    have hm : ¬ (c = ch '%' ∧ ch '%' = ch 'm') := fun h => absurd h.2 (by decide)
    show ldaText address (c :: ch '%' :: ch 'm' :: post) false = _
    rw [ldaText, if_neg hm]
    rfl
  | c :: d :: pre, h, address, post => by
    have hm : ¬ (c = ch '%' ∧ d = ch 'm') := by
      rintro ⟨rfl, rfl⟩
      exact h ⟨[], pre, rfl⟩
    have ih := ldaText_append (fun hin : bytes "%m" <:+: d :: pre => h (List.infix_cons hin))
      address post
    show ldaText address (c :: d :: (pre ++ bytes "%m" ++ post)) false = _
    rw [ldaText, if_neg hm]
    exact congrArg (c :: ·) ih

theorem undoubled_head {text t : Str} (h : undoubled text = some t) : t.head? = text.head? := by
  fun_induction undoubled text with
  | case1 =>
    cases h
    rfl
  | case2 => cases h
  | case3 c hc =>
    cases h
    rfl
  | case4 text =>
    obtain ⟨u, -, rfl⟩ := Option.map_eq_some_iff.1 h
    rfl
  | case5 => cases h
  | case6 c d text =>
    obtain ⟨u, -, rfl⟩ := Option.map_eq_some_iff.1 h
    rfl

/-- To the shell a pair of `%` in a word is as good as one. -/
theorem run_undoubled {text t : Str} (h : undoubled text = some t) (s : Shell.Scan) :
    (s.run text).Alike (s.run t) := by
  have hpercent : Shell.ordinary (ch '%') = true := by decide
  fun_induction undoubled text generalizing t s with
  | case1 =>
    cases h
    exact .refl s
  | case2 => cases h
  | case3 c hc =>
    cases h
    exact .refl _
  | case4 text ih =>
    obtain ⟨u, hu, rfl⟩ := Option.map_eq_some_iff.1 h
    exact ((Shell.Scan.step_twice hpercent s).run text).trans (ih hu (s.step (ch '%')))
  | case5 => cases h
  | case6 c d text hc ih =>
    obtain ⟨u, hu, rfl⟩ := Option.map_eq_some_iff.1 h
    exact ih hu (s.step c)

namespace WordPlace

/-- `lda_close` has a command for the address, unless `sprintf` has none or the array is too
short. -/
theorem ldaCommand_eq_some (hv : LdaAccepted env (pre ++ bytes "%m" ++ post))
    (hp : WordPlace pre post) {text : Str} :
    ldaCommand (pre ++ bytes "%m" ++ post) address = some text ↔
      ∃ before after, undoubled pre = some before ∧ undoubled post = some after ∧
        text = before ++ address ++ after ∧ text.length < COMMAND_SIZE := by
  have hlast : pre.getLast? ≠ some (ch '%') := hp.between.not_ordinary (by decide)
  rw [ldaCommand_eq (hv.template_fits false), ldaBuilt_found ⟨pre, post, rfl⟩,
    ldaText_append hp.pre_single, ldaText_absent _ hp.post_single, Option.bind_eq_some_iff]
  constructor
  · rintro ⟨built, hbuilt, hfits⟩
    obtain ⟨before, after, hbefore, hafter, rfl⟩ := (sprintf_eq_some_iff hlast).1 hbuilt
    unfold fits at hfits
    obtain ⟨hlen, htext⟩ := Option.ite_none_right_eq_some.1 hfits
    cases htext
    exact ⟨before, after, hbefore, hafter, rfl, hlen⟩
  · rintro ⟨before, after, hbefore, hafter, rfl, hlen⟩
    exact ⟨_, (sprintf_eq_some_iff hlast).2 ⟨before, after, hbefore, hafter, rfl⟩,
      fits_eq_some.2 hlen⟩

/-- What `sprintf` makes of the text around the address has a place for it, too. -/
theorem of_undoubled (hp : WordPlace pre post) (hbefore : undoubled pre = some before)
    (hafter : undoubled post = some after) :
    (Shell.Scan.start.run before).Between ∧ Shell.Delimited after ∧
      (Shell.tokens before).length = (Shell.tokens pre).length := by
  have halike := run_undoubled hbefore Shell.Scan.start
  have hbetween := hp.between.of_alike halike
  refine ⟨hbetween, ?_, ?_⟩
  · intro c hc
    rw [undoubled_head hafter] at hc
    exact hp.delimited c hc
  · unfold Shell.tokens
    rw [hbetween.finish_eq, hp.between.finish_eq]
    exact halike.count.symm

/-- The words of the template. -/
theorem tokens_eq (hp : WordPlace pre post) : Shell.tokens (pre ++ bytes "%m" ++ post) =
    Shell.tokens pre ++ .word (bytes "%m") :: Shell.tokens post := by
  have hliteral : Shell.Literal (bytes "%m") := by decide
  rw [List.append_assoc, Shell.tokens_append hp.between,
    hliteral.tokens_append (by decide) hp.delimited]

end WordPlace

/-- **The address as an argument.** For an accepted template with a place for a word, and a saved
address, the command has the template's words and operators with the address as one literal argument
exactly when the address is literal, what `sprintf` makes of the text around the `%m` has the words
and operators of that text, and all of it fits the array. -/
theorem argumentIsData_iff (hv : LdaAccepted env (pre ++ bytes "%m" ++ post))
    (hp : WordPlace pre post) (ha : SavedAddress address) :
    ArgumentIsData pre post address ↔ Shell.Literal address ∧
      ∃ before after, undoubled pre = some before ∧ undoubled post = some after ∧
        Shell.tokens before = Shell.tokens pre ∧ Shell.tokens after = Shell.tokens post ∧
        before.length + address.length + after.length < COMMAND_SIZE := by
  have hdigits : ¬ address.all isdigit = true := by
    intro hall
    exact absurd (List.all_eq_true.1 hall _ ha.at_mem) (by decide)
  constructor
  · rintro ⟨text, word, htext, htokens, hword⟩
    obtain ⟨before, after, hbefore, hafter, rfl, hlen⟩ :=
      (WordPlace.ldaCommand_eq_some hv hp).1 htext
    obtain ⟨hbetween, hdelimited, hcount⟩ := hp.of_undoubled hbefore hafter
    rw [List.append_assoc, Shell.tokens_append hbetween] at htokens
    obtain ⟨hpre, hrest⟩ := List.append_inj htokens hcount
    have hliteral := (Shell.argument_iff ha.at_mem (by decide) (by decide) (by decide)
      hdelimited).1 ⟨word, _, hrest, hword⟩
    rw [hliteral.tokens_append hdigits hdelimited] at hrest
    refine ⟨hliteral, before, after, hbefore, hafter, hpre, (List.cons.inj hrest).2, ?_⟩
    rwa [List.length_append, List.length_append] at hlen
  · rintro ⟨hliteral, before, after, hbefore, hafter, hpre, hpost, hlen⟩
    obtain ⟨hbetween, hdelimited, -⟩ := hp.of_undoubled hbefore hafter
    refine ⟨before ++ address ++ after, address, ?_, ?_, hliteral.argument_eq⟩
    · refine (WordPlace.ldaCommand_eq_some hv hp).2
        ⟨before, after, hbefore, hafter, rfl, ?_⟩
      rwa [List.length_append, List.length_append]
    · rw [List.append_assoc, Shell.tokens_append hbetween,
        hliteral.tokens_append hdigits hdelimited, hpre, hpost]

/-- The text before the `%m` of the example configuration's command. -/
def deliverTo : Str := bytes "/usr/libexec/dovecot/deliver -d "

theorem deliverTo_place : WordPlace deliverTo [] := by
  have hrun : Shell.Scan.start.run deliverTo =
      ⟨[.word (bytes "/usr/libexec/dovecot/deliver"), .word (bytes "-d")], .between, [], false,
        false⟩ := by
    decide +kernel
  have hpercent : ch '%' ∉ deliverTo := by decide
  refine ⟨fun h => hpercent (h.subset List.mem_cons_self), by decide, ?_, nofun⟩
  unfold Shell.Scan.Between
  rw [hrun]

theorem deliverTo_accepted : LdaAccepted permissive (deliverTo ++ bytes "%m" ++ []) :=
  deliverCommand_accepted false

theorem argumentIsData_deliver : ArgumentIsData deliverTo [] (bytes "b@example.com") :=
  (argumentIsData_iff deliverTo_accepted deliverTo_place
    (savedAddress_example (u := bytes "b") (by decide))).2
      ⟨by decide, deliverTo, [], by decide, rfl, rfl, rfl, by decide⟩

/-- A local part with a vertical bar, which the envelope may have without quotes, is a pipeline. -/
theorem not_argumentIsData_pipe : LdaAccepted permissive (deliverTo ++ bytes "%m" ++ []) ∧
    WordPlace deliverTo [] ∧
    getAddrpart (bytes "<a|reboot|b@example.com>") = bytes "a|reboot|b@example.com" ∧
    SavedAddress (bytes "a|reboot|b@example.com") ∧
    (ldaCommand (deliverTo ++ bytes "%m" ++ []) (bytes "a|reboot|b@example.com")).map
        Shell.tokens =
      some (Shell.tokens deliverTo ++ [.word (bytes "a"), .operator (bytes "|"),
        .word (bytes "reboot"), .operator (bytes "|"), .word (bytes "b@example.com")]) ∧
    ¬ ArgumentIsData deliverTo [] (bytes "a|reboot|b@example.com") := by
  have htokens : (ldaCommand (deliverTo ++ bytes "%m" ++ []) (bytes "a|reboot|b@example.com")).map
      Shell.tokens = some (Shell.tokens deliverTo ++ [.word (bytes "a"), .operator (bytes "|"),
        .word (bytes "reboot"), .operator (bytes "|"), .word (bytes "b@example.com")]) := by
    decide +kernel
  refine ⟨deliverTo_accepted, deliverTo_place, by decide,
    savedAddress_example (u := bytes "a|reboot|b") (by decide), htokens, ?_⟩
  rintro ⟨text, word, htext, hwords, -⟩
  rw [htext, Option.map_some, hwords, Option.some.injEq] at htokens
  have hrest := List.append_cancel_left htokens
  cases hrest

end

end Messasy
