import Messasy.Filter.Filter

/-!
# What the save filter selects

The filter's purpose, without its lists: each candidate address goes one of three ways (`route`),
and a message is saved for the direct matches followed by the addresses that LDAP knows
(`selection`). `checkDomain_eq` and `checkMailaddress_eq` connect the source's two tests to it.
-/

namespace Messasy

open Lib

/-- The text from the first `@` on. -/
def atTail (address : Str) : Str := address.dropWhile (· != ch '@')

/-- The pieces of a comma-separated option. -/
def pieces (option : Str) : List Str := option.splitOn (ch ',')

/-- The text after the first `@` is one of my domains. -/
def Considered (cfg : Settings) (address : Str) : Prop :=
  ∃ d ∈ pieces cfg.cfMydomain, lower d = lower (atTail address).tail

/-- One piece of `SaveMailAddress` against an address: a suffix, a whole domain part or a whole
address. -/
def Matches (p address : Str) : Prop :=
  if ch '@' ∉ p then lower p <:+ lower address
  else if p.head? = some (ch '@') then lower p = lower (atTail address)
  else lower p = lower address

def Direct (cfg : Settings) (address : Str) : Prop :=
  ∃ p ∈ pieces cfg.cfSavemailaddress, p ≠ [] ∧ Matches p address

instance (p address : Str) : Decidable (Matches p address) :=
  inferInstanceAs (Decidable (if ch '@' ∉ p then _ else if p.head? = some (ch '@') then _ else _))

instance (cfg : Settings) (address : Str) : Decidable (Considered cfg address) :=
  inferInstanceAs (Decidable (∃ d ∈ pieces cfg.cfMydomain, _))

instance (cfg : Settings) (address : Str) : Decidable (Direct cfg address) :=
  inferInstanceAs (Decidable (∃ p ∈ pieces cfg.cfSavemailaddress, _))

/-- Where a candidate goes. -/
inductive Route
  | out
  | save
  | ldap
  deriving DecidableEq, Repr

def route (cfg : Settings) (address : Str) : Route :=
  if Considered cfg address then
    if Direct cfg address then .save else if cfg.cfLdapcheck = 1 then .ldap else .out
  else .out

/-- The candidates under the save policy, completed. -/
def candidates (cfg : Settings) (from_ : Str) (rcpts : List Str) : List Str :=
  ((if FROM &&& cfg.cfSavepolicyConv.conv ≠ 0 then [from_] else []) ++
    (if TO &&& cfg.cfSavepolicyConv.conv ≠ 0 then rcpts else [])).map (complementAddress · cfg)

/-- The candidates that go the way `r`. -/
def routed (cfg : Settings) (r : Route) (cands : List Str) : List Str :=
  cands.filter (route cfg · = r)

/-- The addresses that the directory knows: the `i`-th search has `answer i` entries for its
filter text. -/
def known (template : Str) (answer : Nat → Str → Nat) : Nat → List Str → List Str
  | _, [] => []
  | i, a :: l =>
    if answer i (ldapFilter template a) ≠ 0 then a :: known template answer (i + 1) l
    else known template answer (i + 1) l

/-- The searches of a directory that may fail: the addresses found, when none does. -/
def searched (template : Str) (search : Nat → Str → Option Nat) : Nat → List Str → Option (List Str)
  | _, [] => some []
  | i, a :: l =>
    match search i (ldapFilter template a) with
    | none => none
    | some count =>
      (searched template search (i + 1) l).map fun found =>
        if count ≠ 0 then a :: found else found

/-- **The save list of a message**: the direct matches, then the LDAP matches. -/
def selection (cfg : Settings) (answer : Nat → Str → Nat) (from_ : Str) (rcpts : List Str) :
    List Str :=
  let cands := candidates cfg from_ rcpts
  routed cfg .save cands ++
    known (cfg.cfLdapmailfilter.getD []) answer 0 (routed cfg .ldap cands)

theorem searched_answering (template : Str) (answer : Nat → Str → Nat) : ∀ (i : Nat) (l : List Str),
    searched template (fun i filter => some (answer i filter)) i l =
      some (known template answer i l)
  | _, [] => rfl
  | i, a :: l => by
    have ih := searched_answering template answer (i + 1) l
    by_cases h : answer i (ldapFilter template a) ≠ 0 <;> simp only [searched, known, ih, h] <;> rfl

/-- Some search of the list fails. -/
theorem searched_eq_none {template : Str} {search : Nat → Str → Option Nat} :
    ∀ {i : Nat} {l : List Str}, searched template search i l = none ↔
      ∃ j a, l[j]? = some a ∧ search (i + j) (ldapFilter template a) = none
  | i, [] => by simp [searched]
  | i, a :: l => by
    unfold searched
    cases hs : search i (ldapFilter template a) with
    | none => exact iff_of_true rfl ⟨0, a, rfl, hs⟩
    | some count =>
      simp only [Option.map_eq_none_iff]
      rw [searched_eq_none]
      constructor
      · rintro ⟨j, b, hb, hf⟩
        exact ⟨j + 1, b, by simpa using hb, by rwa [show i + (j + 1) = i + 1 + j by omega]⟩
      · rintro ⟨j, b, hb, hf⟩
        cases j with
        | zero =>
          cases hb
          rw [Nat.add_zero, hs] at hf
          cases hf
        | succ j => exact ⟨j, b, by simpa using hb, by rwa [show i + 1 + j = i + (j + 1) by omega]⟩

/-! ## Addresses with an `@` -/

theorem strchr_atTail {address : Str} (h : ch '@' ∈ address) :
    strchr address (ch '@') = some (atTail address) := by
  obtain ⟨r, hr⟩ := strchr_isSome h
  rw [hr]
  unfold strchr at hr
  unfold atTail
  split at hr
  · cases hr
  · rw [← hr]

theorem complementAddress_of_mem {a : Str} (cfg : Settings) (h : ch '@' ∈ a) :
    complementAddress a cfg = a := by
  obtain ⟨r, hr⟩ := strchr_isSome h
  simp only [complementAddress, hr]

theorem mem_complementAddress (a : Str) (cfg : Settings) : ch '@' ∈ complementAddress a cfg := by
  unfold complementAddress
  split
  · simp
  · rename_i t h
    obtain ⟨r, rfl, hs⟩ := strchr_eq_some h
    rw [hs]; simp

theorem mem_candidates {cfg : Settings} {from_ : Str} {rcpts : List Str} {a : Str}
    (h : a ∈ candidates cfg from_ rcpts) : ch '@' ∈ a := by
  obtain ⟨b, -, rfl⟩ := List.mem_map.1 h
  exact mem_complementAddress b cfg

/-! ## The source's two tests -/

theorem checkDomain_eq {address : Str} (cfg : Settings) (h : ch '@' ∈ address) :
    checkDomain address cfg = some (if Considered cfg address then .success else .error) := by
  have hiff : ((cfg.cfMydomainList.any fun check => caseEq check (atTail address).tail) = true) ↔
      Considered cfg address := by
    simp only [List.any_eq_true, caseEq_iff, Settings.cfMydomainList, mem_splitComma]
    rfl
  simp only [checkDomain, strchr_atTail h, hiff]
  split <;> rfl

/-- The suffix test of `check_mailaddress`, with its length arithmetic. -/
theorem suffix_iff (str address : Str) :
    caseEq str (address.drop (address.length - str.length)) = true ↔
      lower str <:+ lower address := by
  rw [caseEq_iff, List.suffix_iff_eq_drop, length_lower, length_lower]
  simp [lower, List.map_drop]

theorem checkMailaddressLoop_eq {address : Str} (h : ch '@' ∈ address) : ∀ list : List Str,
    checkMailaddressLoop address list =
      some (if ∃ p ∈ list, p ≠ [] ∧ Matches p address then .success else .error)
  | [] => by simp [checkMailaddressLoop]
  | p :: list => by
    have ih := checkMailaddressLoop_eq h list
    have hstep : checkMailaddressLoop address (p :: list) =
        if p ≠ [] ∧ Matches p address then some .success
        else checkMailaddressLoop address list := by
      by_cases hp : p = []
      · simp [checkMailaddressLoop, hp]
      by_cases ha : ch '@' ∈ p
      · obtain ⟨r, hr⟩ := strchr_isSome ha
        simp only [checkMailaddressLoop, hp, hr, strchr_atTail h, Matches, ha, caseEq_iff,
          not_true, not_false_eq_true, true_and, if_false, ne_eq]
        by_cases hh : p.head? = some (ch '@') <;> simp only [hh, if_true, if_false]
      · simp only [checkMailaddressLoop, hp, strchr_eq_none.2 ha, Matches, ha, not_false_eq_true,
          true_and, if_true, if_false, ne_eq]
        by_cases hlen : address.length < p.length
        · have : ¬ lower p <:+ lower address := fun hs => by
            have := hs.length_le
            simp only [length_lower] at this
            omega
          rw [if_pos hlen, if_neg this]
        · rw [if_neg hlen]
          simp only [suffix_iff]
    rw [hstep, ih]
    by_cases hm : p ≠ [] ∧ Matches p address
    · simp [hm]
    · simp only [hm, if_false, List.mem_cons, exists_eq_or_imp, false_or]

theorem checkMailaddress_eq {address : Str} (cfg : Settings) (h : ch '@' ∈ address) :
    checkMailaddress address cfg = some (if Direct cfg address then .success else .error) := by
  have hiff : (∃ p ∈ cfg.cfSavemailaddressList, p ≠ [] ∧ Matches p address) ↔
      Direct cfg address := by
    simp only [Settings.cfSavemailaddressList, mem_splitComma, Direct, pieces]
  rw [checkMailaddress, checkMailaddressLoop_eq h, if_congr hiff rfl rfl]

end Messasy
