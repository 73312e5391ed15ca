import Messasy.Config.Read
import Messasy.Filter.Directory
import Messasy.Module.Lda

/-!
# The command text of the lda module

`ldaText` is what `LDACommand` stands for: the first `%m` is the address, the other ones are
dropped, and everything else is copied. The text that `lda_close` runs goes through `sprintf`, which
reads every `%` of the command once more: the two agree exactly when there is no `%m`, or no other
`%` besides (`ldaCommand_text_iff`), and the text fits its array exactly when `sprintf` has a result
that is short enough (`buffersSuffice_iff`).
-/

namespace Messasy

open Lib

/-- A value of `LDACommand` that `read_config` stores: it stands behind the name on a line of the
file, and `is_executable_file_size` has accepted it. -/
def LdaAccepted (env : ConfEnv) (value : Str) : Prop :=
  ∃ text, ∃ line ∈ (configLines [] text).1, keyValue (bytes "LDACommand") line = some value ∧
    readString env (some .isExecutableFileSize) value = .stored (.string value)

/-- What the value stands for; `mFound` is set behind the first `%m`. -/
def ldaText (address : Str) : Str → Bool → Str
  | [], _ => []
  | [c], _ => [c]
  | c :: d :: value, mFound =>
    if c = ch '%' ∧ d = ch 'm' then
      (if mFound then [] else address) ++ ldaText address value true
    else c :: ldaText address (d :: value) mFound

/-- The value without its `%m`. -/
def ldaRest (value : Str) : Str := ldaText [] value false

/-! ## The template -/

section
variable {address value : Str}

/-- Behind the first `%m` the address does not matter. -/
theorem ldaTemplate_found (address : Str) : ∀ value : Str,
    ldaTemplate value true = (ldaText address value true, true)
  | [] => rfl
  | [_] => rfl
  | c :: d :: value => by
    by_cases hm : c = ch '%' ∧ d = ch 'm'
    · simp only [ldaTemplate, ldaText, if_pos hm, if_true, ldaTemplate_found address value,
        List.nil_append]
    · simp only [ldaTemplate, ldaText, if_neg hm, ldaTemplate_found address (d :: value)]

/-- The rewriting loop puts `%s` where the address belongs. -/
theorem ldaTemplate_fst : ∀ value : Str,
    (ldaTemplate value false).1 = ldaText (bytes "%s") value false
  | [] => rfl
  | [_] => rfl
  | c :: d :: value => by
    by_cases hm : c = ch '%' ∧ d = ch 'm'
    · simp only [ldaTemplate, ldaText, if_pos hm, Bool.false_eq_true, if_false,
        ldaTemplate_found (bytes "%s") value]
      rfl
    · simp only [ldaTemplate, ldaText, if_neg hm, ldaTemplate_fst (d :: value)]

theorem ldaTemplate_snd : ∀ value : Str,
    (ldaTemplate value false).2 = true ↔ bytes "%m" <:+: value
  | [] => by decide
  | [c] => by
    refine iff_of_false (by simp [ldaTemplate]) fun h => ?_
    exact absurd h.length_le (Nat.not_succ_le_self 1)
  | c :: d :: value => by
    have hcons : bytes "%m" <:+: c :: d :: value ↔
        (c = ch '%' ∧ d = ch 'm') ∨ bytes "%m" <:+: d :: value := by
      rw [List.infix_cons_iff]
      refine or_congr_left ?_
      have htwo : bytes "%m" = [ch '%', ch 'm'] := rfl
      rw [htwo, List.cons_prefix_cons, List.cons_prefix_cons]
      simp [eq_comm]
    rw [hcons]
    by_cases hm : c = ch '%' ∧ d = ch 'm'
    · simp only [ldaTemplate, if_pos hm, Bool.false_eq_true, if_false, ldaTemplate_found [] value]
      exact iff_of_true trivial (.inl hm)
    · rw [or_iff_right hm]
      simp only [ldaTemplate, if_neg hm]
      exact ldaTemplate_snd (d :: value)

/-- Without `%m` the value is its own text. -/
theorem ldaText_absent (address : Str) {mFound : Bool} : ∀ {value : Str},
    ¬ bytes "%m" <:+: value → ldaText address value mFound = value
  | [], _ => rfl
  | [_], _ => rfl
  | c :: d :: value, h => by
    have hm : ¬ (c = ch '%' ∧ d = ch 'm') := by
      rintro ⟨rfl, rfl⟩
      exact h ⟨[], value, rfl⟩
    have hin : ¬ bytes "%m" <:+: d :: value := fun hin => h (List.infix_cons hin)
    have ih := @ldaText_absent address mFound (d :: value) hin
    simp only [ldaText, if_neg hm, ih]

/-- The text around the address. -/
theorem ldaText_split : ∀ {value : Str}, bytes "%m" <:+: value →
    ∃ pre post, ∀ address, ldaText address value false = pre ++ address ++ post
  | [], h => absurd h (by decide)
  | [_], h => absurd h.length_le (Nat.not_succ_le_self 1)
  | c :: d :: value, h => by
    by_cases hm : c = ch '%' ∧ d = ch 'm'
    · refine ⟨[], ldaText [] value true, fun address => ?_⟩
      have hsame : ldaText address value true = ldaText [] value true := by
        have h1 := ldaTemplate_found address value
        rw [ldaTemplate_found [] value] at h1
        exact (congrArg Prod.fst h1).symm
      simp only [ldaText, if_pos hm, Bool.false_eq_true, if_false, hsame, List.nil_append]
    · have htwo : bytes "%m" = [ch '%', ch 'm'] := rfl
      have hin : bytes "%m" <:+: d :: value := by
        rcases List.infix_cons_iff.1 h with hpre | hin
        · rw [htwo, List.cons_prefix_cons, List.cons_prefix_cons] at hpre
          exact absurd ⟨hpre.1.symm, hpre.2.1.symm⟩ hm
        · exact hin
      obtain ⟨pre, post, hsplit⟩ := ldaText_split hin
      refine ⟨c :: pre, post, fun address => ?_⟩
      simp only [ldaText, if_neg hm, hsplit, List.cons_append]

/-- The loop writes no more than it reads. -/
theorem ldaTemplate_length : ∀ (value : Str) (mFound : Bool),
    (ldaTemplate value mFound).1.length ≤ value.length
  | [], _ => Nat.le_refl 0
  | [_], _ => Nat.le_refl 1
  | c :: d :: value, mFound => by
    by_cases hm : c = ch '%' ∧ d = ch 'm'
    · cases mFound with
      | true =>
        have ih := ldaTemplate_length value true
        simp only [ldaTemplate, if_pos hm, if_true, List.length_cons]
        omega
      | false =>
        have ih := ldaTemplate_length value true
        simp only [ldaTemplate, if_pos hm, Bool.false_eq_true, if_false, List.length_cons]
        omega
    · have ih := ldaTemplate_length (d :: value) mFound
      simp only [ldaTemplate, if_neg hm, List.length_cons] at ih ⊢
      omega

/-- A value fits its line behind the name. -/
theorem LdaAccepted.length_le {env : ConfEnv} (h : LdaAccepted env value) :
    value.length ≤ 1012 := by
  obtain ⟨text, line, hline, hkey, -⟩ := h
  have hlen := configLines_length text [] (by decide) line hline
  obtain ⟨w, rfl, hw, -⟩ := keyValue_eq_some.1 hkey
  have hname : w.length = 10 := by
    rw [← length_lower w, hw, length_lower]
    rfl
  have hmax : MAX_CONFIG_LINE = 1024 := rfl
  rw [List.length_append, List.length_cons] at hlen
  omega

/-- The template of an accepted value fits its array. -/
theorem LdaAccepted.template_fits {env : ConfEnv} (h : LdaAccepted env value) (mFound : Bool) :
    (ldaTemplate value mFound).1.length < COMMAND_SIZE := by
  have hvalue := h.length_le
  have htemplate := ldaTemplate_length value mFound
  have hsize : COMMAND_SIZE = 1024 := rfl
  omega

end

/-! ## The text -/

/-- What `lda_close` builds for the address, wherever it fits. -/
def ldaBuilt (value address : Str) : Option Str :=
  if (ldaTemplate value false).2 then sprintf (ldaTemplate value false).1 address
  else some (ldaTemplate value false).1

section
variable {env : ConfEnv} {address value : Str}

/-- The test on `MAX_COMMAND_LENGTH` lets every template pass that fits the array. -/
theorem ldaCommand_eq (hfit : (ldaTemplate value false).1.length < COMMAND_SIZE) :
    ldaCommand value address = (ldaBuilt value address).bind (fits COMMAND_SIZE) := by
  unfold ldaCommand ldaBuilt
  generalize ldaTemplate value false = template at hfit
  obtain ⟨command, mFound⟩ := template
  have hpass : ¬ MAX_COMMAND_LENGTH - 1 < command.length + 256 := by
    have hsize : COMMAND_SIZE = 1024 := rfl
    have hmax : MAX_COMMAND_LENGTH = 1280 := rfl
    dsimp only at hfit
    omega
  have hcommand : fits COMMAND_SIZE command = some command := if_pos hfit
  cases mFound with
  | false => simp [hcommand]
  | true => simp [hcommand, hpass]

theorem ldaBuilt_found (hm : bytes "%m" <:+: value) (address : Str) :
    ldaBuilt value address = sprintf (ldaText (bytes "%s") value false) address := by
  unfold ldaBuilt
  rw [if_pos ((ldaTemplate_snd value).2 hm), ldaTemplate_fst]

theorem ldaBuilt_absent (hm : ¬ bytes "%m" <:+: value) (address : Str) :
    ldaBuilt value address = some value := by
  unfold ldaBuilt
  rw [if_neg fun h => hm ((ldaTemplate_snd value).1 h), ldaTemplate_fst, ldaText_absent _ hm]

/-- `sprintf` puts the text around the address only when no `%` is left for it to read: whatever
else it reads as a conversion costs bytes that nothing makes up for. -/
theorem sprintf_eq_iff {pre post : Str} (ha : ch '@' ∈ address) :
    sprintf (pre ++ bytes "%s" ++ post) address = some (pre ++ address ++ post) ↔
      ch '%' ∉ pre ∧ ch '%' ∉ post := by
  constructor
  · intro h
    obtain ⟨ps, hps, htext⟩ := Option.map_eq_some_iff.1 h
    obtain ⟨hread, hone⟩ := stringFormat_eq_some.1 hps
    have hcount : ∀ P : Byte → Bool, P (ch ' ') = false → _ := fun P hP =>
      pieces_countP_le hP hread address
    rw [htext] at hcount
    rcases Nat.le_one_iff_eq_zero_or_eq_one.1 hone with hnone | hone
    -- no argument is shown, so the address's `@` is missing
    · have hat := hcount (· == ch '@') (by decide)
      have hs : (bytes "%s").countP (· == ch '@') = 0 := by decide
      have hpos : 0 < address.countP (· == ch '@') :=
        List.countP_pos_iff.2 ⟨ch '@', ha, beq_self_eq_true (ch '@')⟩
      have hp : (ch '%' == ch '@') = false := by decide
      simp only [List.countP_append, hs, hnone, hp, Bool.false_eq_true, and_false, if_false,
        Nat.zero_mul] at hat
      omega
    -- the bytes that are not blanks: a field adds none of them
    · have hblank := hcount (· != ch ' ') (by decide)
      have hs : (bytes "%s").countP (· != ch ' ') = 2 := by decide
      have hp : (ch '%' != ch ' ') = true := by decide
      have hp' : (ch 's' != ch ' ') = true := by decide
      simp only [List.countP_append, hs, hone, hp, hp', Option.isSome_none, Bool.false_eq_true,
        false_and, if_false, if_true, Nat.one_mul] at hblank
      have hpercent := pieces_count_percent hread
      have hs' : (bytes "%s").count (ch '%') = 1 := by decide
      simp only [List.count_append, hs', hone, Option.isSome_none, Bool.false_eq_true,
        if_false] at hpercent
      constructor <;> rw [← List.count_eq_zero] <;> omega
  · rintro ⟨hpre, hpost⟩
    exact sprintf_plain hpre hpost address

/-- What is built is the value's text exactly when there is no `%` besides the `%m`. -/
theorem ldaBuilt_eq_iff (ha : ch '@' ∈ address) :
    ldaBuilt value address = some (ldaText address value false) ↔
      ¬ bytes "%m" <:+: value ∨ ch '%' ∉ ldaRest value := by
  by_cases hm : bytes "%m" <:+: value
  · obtain ⟨pre, post, hsplit⟩ := ldaText_split hm
    unfold ldaRest
    rw [ldaBuilt_found hm, hsplit, hsplit, hsplit, sprintf_eq_iff ha, or_iff_right (not_not.2 hm),
      List.append_nil, List.mem_append, not_or]
  · rw [ldaBuilt_absent hm, ldaText_absent address hm]
    exact iff_of_true rfl (.inl hm)

theorem fits_eq_some {size : Nat} {text : Str} : fits size text = some text ↔ text.length < size := by
  unfold fits
  rw [Option.ite_none_right_eq_some]
  exact and_iff_left rfl

/-- **The command text.** For an accepted `LDACommand` and a saved address whose text fits its
array, `lda_close` runs the value with its first `%m` replaced exactly when there is no `%m`, or no
`%` besides the `%m`. -/
theorem ldaCommand_text_iff (hv : LdaAccepted env value) (ha : SavedAddress address)
    (htext : (ldaText address value false).length < COMMAND_SIZE) :
    ldaCommand value address = some (ldaText address value false) ↔
      ¬ bytes "%m" <:+: value ∨ ch '%' ∉ ldaRest value := by
  rw [ldaCommand_eq (hv.template_fits false), ← ldaBuilt_eq_iff ha.at_mem]
  constructor
  · intro h
    obtain ⟨text, hbuilt, hfits⟩ := Option.bind_eq_some_iff.1 h
    unfold fits at hfits
    split at hfits
    · cases hfits
      exact hbuilt
    · cases hfits
  · intro h
    rw [h]
    exact fits_eq_some.2 htext

/-- A system on which every file can be run. -/
def permissive : ConfEnv := ⟨fun _ => true, fun _ => .ok true, [], fun _ => .ok (), fun _ => true⟩

/-- Two commands for Dovecot's `deliver`, one with a quota option. -/
def deliverCommand (quota : Bool) : Str :=
  bytes "/usr/libexec/dovecot/deliver -d %m" ++ if quota then bytes " -o quota=90%%" else []

theorem deliverCommand_accepted (quota : Bool) : LdaAccepted permissive (deliverCommand quota) := by
  refine ⟨bytes "LDACommand=" ++ deliverCommand quota ++ [LF],
    bytes "LDACommand=" ++ deliverCommand quota, ?_⟩
  cases quota <;> decide +kernel

theorem ldaCommand_text_deliver : ldaCommand (deliverCommand false) (bytes "b@example.com") =
    some (bytes "/usr/libexec/dovecot/deliver -d b@example.com") :=
  (ldaCommand_text_iff (deliverCommand_accepted false)
    (savedAddress_example (u := bytes "b") (by decide)) (by decide)).2 (.inr (by decide))

/-- `%%` behind the `%m` loses a percent sign. -/
theorem ldaCommand_loses_percent : LdaAccepted permissive (deliverCommand true) ∧
    SavedAddress (bytes "b@example.com") ∧
    ldaText (bytes "b@example.com") (deliverCommand true) false =
      bytes "/usr/libexec/dovecot/deliver -d b@example.com -o quota=90%%" ∧
    ldaCommand (deliverCommand true) (bytes "b@example.com") =
      some (bytes "/usr/libexec/dovecot/deliver -d b@example.com -o quota=90%") :=
  ⟨deliverCommand_accepted true, savedAddress_example (u := bytes "b") (by decide), by decide,
    by decide +kernel⟩

/-! ## The arrays -/

/-- Everything that `lda_close` stores lies inside its arrays: the template with its NUL in
`command`, and the text for the address, which `sprintf` has to have, with its NUL in
`exec_command`. -/
def BuffersSuffice (value address : Str) : Prop :=
  (ldaTemplate value false).1.length < COMMAND_SIZE ∧
    ∃ text, ldaBuilt value address = some text ∧ text.length < COMMAND_SIZE

/-- **The arrays.** For an accepted `LDACommand`, they suffice exactly when there is no `%m`, or the
value with `%s` for its first `%m` is a format for one string whose pieces, with the address in its
field, are shorter than an array. -/
theorem buffersSuffice_iff (hv : LdaAccepted env value) (address : Str) :
    BuffersSuffice value address ↔ (bytes "%m" <:+: value →
      ∃ ps, stringFormat (ldaText (bytes "%s") value false) = some ps ∧
        (ps.map (Piece.size address.length)).sum < COMMAND_SIZE) := by
  unfold BuffersSuffice
  rw [and_iff_right (hv.template_fits false)]
  by_cases hm : bytes "%m" <:+: value
  · rw [ldaBuilt_found hm, imp_iff_right hm]
    unfold sprintf
    constructor
    · rintro ⟨text, h, hlen⟩
      obtain ⟨ps, hps, rfl⟩ := Option.map_eq_some_iff.1 h
      exact ⟨ps, hps, length_flatMap_text address ps ▸ hlen⟩
    · rintro ⟨ps, hps, hlen⟩
      exact ⟨_, Option.map_eq_some_iff.2 ⟨ps, hps, rfl⟩, (length_flatMap_text address ps).symm ▸ hlen⟩
  · refine iff_of_true ⟨value, ldaBuilt_absent hm address, ?_⟩ fun h => absurd h hm
    have hlen := hv.length_le
    have hsize : COMMAND_SIZE = 1024 := rfl
    omega

theorem buffersSuffice_deliver :
    BuffersSuffice (deliverCommand false) (bytes "b@example.com") :=
  (buffersSuffice_iff (deliverCommand_accepted false) (bytes "b@example.com")).2 fun _ =>
    ⟨((deliverCommand false).take 32).map .byte ++ [.string .plain], by decide +kernel,
      by decide +kernel⟩

/-- Without another `%` it is the two lengths that have to fit. -/
theorem buffersSuffice_plain (hv : LdaAccepted env value) (hm : bytes "%m" <:+: value)
    (hp : ch '%' ∉ ldaRest value) (address : Str) :
    BuffersSuffice value address ↔ (ldaRest value).length + address.length < COMMAND_SIZE := by
  obtain ⟨pre, post, hsplit⟩ := ldaText_split hm
  unfold ldaRest at hp ⊢
  rw [hsplit, List.append_nil, List.mem_append, not_or] at hp
  unfold BuffersSuffice
  rw [and_iff_right (hv.template_fits false), ldaBuilt_found hm, hsplit, hsplit,
    sprintf_plain hp.1 hp.2]
  have hlen : (pre ++ address ++ post).length = (pre ++ [] ++ post).length + address.length := by
    simp only [List.length_append, List.length_nil]
    omega
  rw [← hlen]
  constructor
  · rintro ⟨text, h, htext⟩
    rwa [Option.some.inj h]
  · exact fun h => ⟨_, rfl, h⟩

/-- A long local part runs over the end of `exec_command`. -/
theorem not_buffersSuffice_long : LdaAccepted permissive (deliverCommand false) ∧
    SavedAddress (List.replicate 1000 (ch 'a') ++ bytes "@example.com") ∧
    ¬ BuffersSuffice (deliverCommand false)
      (List.replicate 1000 (ch 'a') ++ bytes "@example.com") := by
  have haccepted := deliverCommand_accepted false
  refine ⟨haccepted, savedAddress_example ?_, ?_⟩
  · rw [List.mem_replicate]
    exact fun h => absurd h.2 (by decide)
  · have hm : bytes "%m" <:+: deliverCommand false :=
      ⟨bytes "/usr/libexec/dovecot/deliver -d ", [], by decide⟩
    rw [buffersSuffice_plain haccepted hm (by decide), List.length_append, List.length_replicate]
    have hrest : (ldaRest (deliverCommand false)).length = 32 := by decide
    have hdomain : (bytes "@example.com").length = 12 := by decide
    have hsize : COMMAND_SIZE = 1024 := rfl
    omega

end

end Messasy
