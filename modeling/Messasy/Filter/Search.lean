import Messasy.Filter.Spec
import Messasy.Lib.LdapFilter

/-!
# The filter text of a search

`check_ldap` puts the address into `LdapMailFilter` as it is. Where `%M` is the value of an equality
item, the search asks for this address if and only if the address is plain
(`ldapFilter_intact_iff`); `md_makedirlist` replaces the characters that mean something in its
template's place, and `check_ldap` does not.
-/

namespace Messasy

open Lib

/-- A template in which every `%M` is the whole value of an equality item. -/
structure LdapTemplate (template : Str) where
  filter : LdapFilter
  valid : filter.Valid
  text : filter.text = places (ch 'M') template
  placeholder : none ∈ places (ch 'M') template

section
variable {template : Str}

/-- The text for the address is a filter, the template's one but for the value at `%M`, and there
it has an encoding of the address. -/
def LdapTemplate.Intact (t : LdapTemplate template) (address : Str) : Prop :=
  ∃ f : LdapFilter, f.Valid ∧ f.text = literal (ldapFilter template address) ∧
    LdapFilter.Fills (Encodes address) t.filter f

/-- The expansion puts the address in the places of `%M`. -/
theorem literal_ldapFilter (template address : Str) :
    literal (ldapFilter template address) = fillText address (places (ch 'M') template) := by
  have hsub : ∀ d, searchFormat [⟨ch 'M', address⟩] d =
      if d = ch 'M' then some address else none := fun d => by
    rw [searchFormat_cons, searchFormat_nil]
  rw [ldapFilter, strReplaceFormat_eq, expand_places hsub, literal, List.map_flatMap, fillText]
  congr 1
  funext x
  cases x <;> rfl

/-- **A search asks for the address** if and only if the address is UTF-8 without NUL, parentheses,
asterisks and backslashes. -/
theorem ldapFilter_intact_iff (t : LdapTemplate template) (address : Str) :
    t.Intact address ↔ PlainValue address := by
  have hhole : none ∈ t.filter.text := t.text ▸ t.placeholder
  rw [← LdapFilter.fills_self_iff t.valid hhole address, LdapTemplate.Intact, literal_ldapFilter,
    ← t.text]

/-- The default of `LdapMailFilter`. -/
def defaultTemplate : LdapTemplate (bytes "(mail=%M)") where
  filter := .item (.simple (bytes "mail") .equal none)
  valid := ⟨by decide, rfl⟩
  text := by decide
  placeholder := by decide

/-- An ordinary address is asked for. -/
theorem ldapFilter_intact_plain : defaultTemplate.Intact (bytes "a@example.com") :=
  (ldapFilter_intact_iff defaultTemplate _).2 (plainValue_of_ascii (by decide +kernel))

/-- The example configuration with a directory for the addresses that it does not save itself. -/
def directoryConfig : Settings :=
  { exampleConfig with cfLdapcheck := 1, cfSavemailaddress := bytes "a@example.com" }

/-- A search for any address at the domain. -/
def domainFilter : LdapFilter := .item (.substring (bytes "mail") [] [] (bytes "@example.com"))

/-- An asterisk makes the default template ask for every address that ends like this one. -/
theorem ldapFilter_asterisk :
    directoryConfig.cfLdapmailfilter = some (bytes "(mail=%M)") ∧
    route directoryConfig (bytes "*@example.com") = .ldap ∧
    ¬ defaultTemplate.Intact (bytes "*@example.com") ∧
    domainFilter.Valid ∧ domainFilter.text =
      literal (ldapFilter (bytes "(mail=%M)") (bytes "*@example.com")) := by
  refine ⟨rfl, by decide, ?_, ⟨by decide, fun s hs => ?_, by decide⟩, by decide⟩
  · rintro ⟨f, hf, htext, hfills⟩
    rw [literal_ldapFilter] at htext
    obtain ⟨-, hplain⟩ := (LdapFilter.fills_self_iff defaultTemplate.valid (by decide) _).1
      ⟨f, hf, htext, hfills⟩
    exact absurd (hplain (ch '*') (by decide)) (by decide)
  · refine ⟨s, encodes_self_iff.2 (plainValue_of_ascii ?_)⟩
    rcases List.mem_cons.1 hs with rfl | hs
    · rfl
    · rw [List.mem_singleton.1 hs]
      decide

end

end Messasy
