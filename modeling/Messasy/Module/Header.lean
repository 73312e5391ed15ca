import Mathlib.Data.List.TakeDrop
import Messasy.Module.Spool

/-!
# Short writes of a header line

The loop of `*_write_header` compares what the last `write` stored with what is left, instead of
testing whether anything is left. It always ends (`headerLoop_ends`), but a `write` that stores half
of what it is asked for, or more but not all, is the last one: the line is complete exactly when
every short write stores less than half (`writeHeader_complete_iff`).
-/

namespace Messasy

open Lib

/-- The write loop as the source has it, without a bound on its rounds. -/
inductive HeaderLoop (env : Env) : Str → Nat → Md → Os → Rc × Md × Os → Prop
  | done {p : Str} {writtenLen : Nat} {md : Md} {os : Os} : ¬ writtenLen < p.length →
      HeaderLoop env p writtenLen md os (.success, md, os)
  | failed {p : Str} {writtenLen : Nat} {md md' : Md} {os os' : Os} : writtenLen < p.length →
      md.write env p os = (none, md', os') → HeaderLoop env p writtenLen md os (.error, md', os')
  | round {p : Str} {writtenLen n : Nat} {md md' : Md} {os os' : Os} {r : Rc × Md × Os} :
      writtenLen < p.length → md.write env p os = (some n, md', os') →
      HeaderLoop env (p.drop n) n md' os' r → HeaderLoop env p writtenLen md os r

/-- Each `write` stores some number of bytes, up to the number that it is asked to store. -/
def Env.Stores (env : Env) : Prop :=
  ∀ i len, 0 < len → ∃ n, env.write i len = some n ∧ 1 ≤ n ∧ n ≤ len

/-- From the call `i` on, with `len` bytes left: a `write` stores them all, or less than half of
them and the rest goes on like this. -/
inductive ShortOfHalf (env : Env) : Nat → Nat → Prop
  | whole {i len : Nat} : env.write i len = some len → ShortOfHalf env i len
  | short {i len n : Nat} : env.write i len = some n → 2 * n < len →
      ShortOfHalf env (i + 1) (len - n) → ShortOfHalf env i len

section
variable {env : Env}

/-- What a `write` stores lies between one byte and the whole text. -/
theorem Md.write_bounds {md md' : Md} {text : Str} {os os' : Os} {n : Nat}
    (h : md.write env text os = (some n, md', os')) (htext : 0 < text.length) :
    1 ≤ n ∧ n ≤ text.length := by
  unfold Md.write at h
  cases hw : env.write os.clock text.length with
  | none =>
    rw [hw] at h
    cases h
  | some m =>
    rw [hw] at h
    cases h
    omega

/-- **The loop ends**, whatever the calls answer: the text left gets shorter in every round. -/
theorem headerLoop_ends : ∀ (k : Nat) (p : Str) (writtenLen : Nat) (md : Md) (os : Os),
    p.length ≤ k → HeaderLoop env p writtenLen md os (writeHeaderLoop env k p writtenLen md os)
  | 0, p, writtenLen, md, os, hk => .done (by omega)
  | k + 1, p, writtenLen, md, os, hk => by
    unfold writeHeaderLoop
    by_cases hlt : writtenLen < p.length
    · rw [if_pos hlt]
      rcases hw : md.write env p os with ⟨_ | n, md', os'⟩
      · exact .failed hlt hw
      · obtain ⟨hone, -⟩ := Md.write_bounds hw (Nat.zero_lt_of_lt hlt)
        have hshort : (p.drop n).length ≤ k := by
          rw [List.length_drop]
          omega
        exact .round hlt hw (headerLoop_ends k (p.drop n) n md' os' hshort)
    · rw [if_neg hlt]
      exact .done hlt

variable (henv : env.Stores)
include henv

theorem Md.write_stores (md : Md) {text : Str} (htext : 0 < text.length) (os : Os) :
    ∃ n md' os', md.write env text os = (some n, md', os') ∧
      env.write os.clock text.length = some n ∧ 1 ≤ n ∧ n ≤ text.length ∧
      md'.tempfile = md.tempfile ++ text.take n ∧ os'.clock = os.clock + 1 := by
  obtain ⟨n, hn, hone, hle⟩ := henv os.clock text.length htext
  have hclamp : max 1 (min n text.length) = n := by omega
  unfold Md.write
  rw [hn]
  dsimp only
  rw [hclamp]
  exact ⟨n, _, _, rfl, rfl, hone, hle, rfl, rfl⟩

/-- The text left is written to its end exactly when every short write stores less than half. -/
theorem writeHeaderLoop_complete : ∀ (k : Nat) (p : Str) (writtenLen : Nat) (md : Md) (os : Os),
    p.length ≤ k → writtenLen < p.length →
    (writeHeaderLoop env k p writtenLen md os).1 = .success ∧
      ((writeHeaderLoop env k p writtenLen md os).2.1.tempfile = md.tempfile ++ p ↔
        ShortOfHalf env os.clock p.length)
  | 0, p, writtenLen, md, os, hk, hlt => by omega
  | k + 1, p, writtenLen, md, os, hk, hlt => by
    obtain ⟨n, md', os', hw, hn, hone, hle, htemp, hclock⟩ :=
      md.write_stores henv (Nat.zero_lt_of_lt hlt) os
    have hleft : (p.drop n).length = p.length - n := List.length_drop
    unfold writeHeaderLoop
    rw [if_pos hlt, hw]
    dsimp only
    by_cases hmore : n < (p.drop n).length
    · -- less than half: the loop goes on
      obtain ⟨hrc, ih⟩ := writeHeaderLoop_complete k (p.drop n) n md' os' (by omega) hmore
      refine ⟨hrc, ?_⟩
      rw [htemp, List.append_assoc, List.take_append_drop, hclock, hleft] at ih
      rw [ih]
      constructor
      · exact fun h => .short hn (by omega) h
      · intro h
        cases h with
        | whole hall =>
          rw [hn] at hall
          cases hall
          omega
        | short hn' _ h =>
          rw [hn] at hn'
          cases hn'
          exact h
    · -- half or more: this was the last round
      have hend : writeHeaderLoop env k (p.drop n) n md' os' = (.success, md', os') := by
        cases k with
        | zero => rfl
        | succ k => exact if_neg hmore
      rw [hend]
      refine ⟨rfl, ?_⟩
      rw [htemp, List.append_cancel_left_eq, List.take_eq_self_iff]
      constructor
      · intro hall
        have heq : n = p.length := Nat.le_antisymm hle hall
        rw [heq] at hn
        exact .whole hn
      · intro h
        cases h with
        | whole hall =>
          rw [hn] at hall
          cases hall
          exact Nat.le_refl _
        | short hn' hhalf _ =>
          rw [hn] at hn'
          cases hn'
          omega

/-- **A header line under short writes**, behind the custom headers: `*_write_header` ends, and what
it reports as written is the whole line exactly when every short write stores less than half of
what it is asked for. -/
theorem writeHeader_complete_iff {md : Md} (hmd : md.mdWritingHeader = true) (headerf : Str)
    (headerv : Option Str) (os : Os) :
    (HeaderLoop env (headerLine headerf headerv) 0 md os (writeHeader env md headerf headerv os) ∧
      ((writeHeader env md headerf headerv os).1 = .success →
        (writeHeader env md headerf headerv os).2.1.tempfile =
          md.tempfile ++ headerLine headerf headerv)) ↔
      ShortOfHalf env os.clock (headerLine headerf headerv).length := by
  have hline : 0 < (headerLine headerf headerv).length := by
    unfold headerLine
    simp only [List.length_append, List.length_singleton]
    omega
  unfold writeHeader
  rw [if_pos hmd]
  unfold writeHeaderLine
  dsimp only
  obtain ⟨hrc, hiff⟩ := writeHeaderLoop_complete henv _ (headerLine headerf headerv) 0 md os
    (Nat.le_refl _) hline
  rw [and_iff_right (headerLoop_ends _ _ 0 md os (Nat.le_refl _)), imp_iff_right hrc]
  exact hiff

end

/-- A record behind its custom headers. -/
def headerMd : Md where
  mdRecvtime := 0
  mdMaildir := bytes "/var/mail"
  mdMailfolder := bytes ".%D"
  mdDotdelimiter := ch '_'
  mdSlashdelimiter := ch '_'
  mdTempfilepath := bytes "/var/mail/tmp/abcdef"
  mdTempfileFd := 3
  mdWritingHeader := true
  mdWritingBody := false
  mdCr := false
  mdHeaderFrom := bytes "a@example.com"
  mdHeaderTo := bytes "b@example.com"
  mdSaveaddr := [bytes "b@example.com"]
  tempfile := []

/-- The first `write` stores `k + 1` bytes, every other one all that it is asked for. -/
def Env.slow (k : Nat) : Env :=
  { Env.fine with write := fun i len => some (if i = 0 then min (k + 1) len else len) }

theorem Env.slow_stores (k : Nat) : (Env.slow k).Stores := by
  intro i len hlen
  refine ⟨_, rfl, ?_⟩
  split <;> omega

/-- Five bytes of twelve, and then the others. -/
theorem writeHeader_complete_five :
    (writeHeader (.slow 4) headerMd (bytes "Subject") (some (bytes "hi")) .start).2.1.tempfile =
      bytes "Subject: hi" ++ [LF] := by
  have hshort : ShortOfHalf (.slow 4) Os.start.clock
      (headerLine (bytes "Subject") (some (bytes "hi"))).length :=
    .short (n := 5) rfl (by decide) (.whole rfl)
  have hwriting : headerMd.mdWritingHeader = true := rfl
  exact ((writeHeader_complete_iff (Env.slow_stores 4) hwriting _ _ .start).2 hshort).2 rfl

/-- Six bytes of twelve, and the line ends there. -/
theorem writeHeader_cuts : (Env.slow 5).Stores ∧
    (writeHeader (.slow 5) headerMd (bytes "Subject") (some (bytes "hi")) .start).1 = .success ∧
    (writeHeader (.slow 5) headerMd (bytes "Subject") (some (bytes "hi")) .start).2.1.tempfile =
      bytes "Subjec" ∧
    headerLine (bytes "Subject") (some (bytes "hi")) = bytes "Subject: hi" ++ [LF] :=
  ⟨Env.slow_stores 5, by decide, by decide, by decide⟩

end Messasy
