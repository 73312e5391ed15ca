import Messasy.Config.Config
import Messasy.Utils.Format

/-!
# The save filter (`filter.c`)

`make_savelist` sorts the envelope's addresses into the save list and the LDAP list and then moves
the addresses that LDAP finds to the save list. The two lists live in one arena with the recipient
list; `none` is undefined behaviour (a NULL or a released node is read, or one is released twice).
-/

namespace Messasy

open Lib

/-- What the LDAP library answers during one call of `check_ldap`: the handle, the option, the
bind, and for the `i`-th search with a filter text an error or the number of entries. -/
structure Ldap where
  open_ : Bool
  setOption : Bool
  bind : Bool
  search : Nat → Str → Option Nat

/-- `check_header_regex`: the line `headerf: headerv` against the pattern; an absent value is a
NULL that `strset_catstr` reads. -/
def checkHeaderRegex (headerf : Str) (headerv : Option Str) (preg : Str → Bool) : Option Rc :=
  match headerv with
  | none => none
  | some v => if preg (headerf ++ bytes ": " ++ v) then some .positive else some .success

/-- `check_domain`. -/
def checkDomain (address : Str) (cfg : Settings) : Option Rc :=
  match strchr address (ch '@') with
  | none => none
  | some ptr =>
    if cfg.cfMydomainList.any fun check => caseEq check ptr.tail then some .success
    else some .error

/-- The loop of `check_mailaddress`. -/
def checkMailaddressLoop (address : Str) : List Str → Option Rc
  | [] => some .error
  | str :: list =>
    if str = [] then checkMailaddressLoop address list
    else
      match strchr str (ch '@') with
      | none =>
        if address.length < str.length then checkMailaddressLoop address list
        else if caseEq str (address.drop (address.length - str.length)) then some .success
        else checkMailaddressLoop address list
      | some _ =>
        if str.head? = some (ch '@') then
          match strchr address (ch '@') with
          | none => none
          | some ptr =>
            if caseEq str ptr then some .success else checkMailaddressLoop address list
        else if caseEq str address then some .success
        else checkMailaddressLoop address list

/-- `check_mailaddress`. -/
def checkMailaddress (address : Str) (cfg : Settings) : Option Rc :=
  checkMailaddressLoop address cfg.cfSavemailaddressList

/-- The lists `make_savelist` works on: the arena, `savelist_h`, `savelist_t`, `ldaplist_h` and
`ldaplist_t`. -/
structure Lists where
  heap : StrHeap
  savelistH : Option Nat
  savelistT : Option Nat
  ldaplistH : Option Nat
  ldaplistT : Option Nat

/-- `judge_mail`. -/
def judgeMail (checkaddress : Str) (st : Lists) (cfg : Settings) : Option (Rc × Lists) :=
  match checkDomain checkaddress cfg with
  | none => none
  | some .success =>
    match checkMailaddress checkaddress cfg with
    | none => none
    | some .success =>
      (pushStrlist st.heap st.savelistH st.savelistT checkaddress).map fun (heap, hd, tl) =>
        (.success, { st with heap, savelistH := hd, savelistT := tl })
    | some _ =>
      if cfg.cfLdapcheck = 1 then
        (pushStrlist st.heap st.ldaplistH st.ldaplistT checkaddress).map fun (heap, hd, tl) =>
          (.success, { st with heap, ldaplistH := hd, ldaplistT := tl })
      else some (.success, st)
  | some _ => some (.success, st)

/-- `complement_address`. -/
def complementAddress (address : Str) (cfg : Settings) : Str :=
  match strchr address (ch '@') with
  | none => address ++ [ch '@'] ++ cfg.cfDefaultdomain
  | some _ => address

/-- The filter text of one search: `%M` is the address. -/
def ldapFilter (template address : Str) : Str := strReplaceFormat template [⟨ch 'M', address⟩]

/-- The search loop of `check_ldap`: `list` is the node to look up, `i` the number of searches
made. A node that is found is moved to the save list, any other is freed. -/
def checkLdapLoop (cfg : Settings) (ldap : Ldap) :
    Nat → Nat → Option Nat → Lists → Option (Rc × Lists)
  | _, _, none, st => some (.success, st)
  | 0, _, some _, _ => none
  | k + 1, i, some now, st =>
    match cfg.cfLdapmailfilter, st.heap.cell now with
    | some template, some n =>
      match ldap.search i (ldapFilter template n.data) with
      | none => some (.error, st)
      | some count =>
        if count ≠ 0 then
          match attachStrlist st.heap st.savelistH st.savelistT now with
          | none => none
          | some (heap, hd, tl) =>
            checkLdapLoop cfg ldap k (i + 1) n.next { st with heap, savelistH := hd, savelistT := tl }
        else
          match st.heap.free now with
          | none => none
          | some heap => checkLdapLoop cfg ldap k (i + 1) n.next { st with heap }
    | _, _ => none

/-- `check_ldap`. -/
def checkLdap (st : Lists) (cfg : Settings) (ldap : Ldap) : Option (Rc × Lists) :=
  if ldap.open_ && ldap.setOption && ldap.bind then
    checkLdapLoop cfg ldap st.heap.next 0 st.ldaplistH st
  else some (.error, st)

/-- The clean-up of `make_savelist` after a failure: both lists are released. -/
def dropLists (st : Lists) : Option (Rc × Lists) :=
  match freeStrlist st.heap st.ldaplistH with
  | none => none
  | some heap =>
    (freeStrlist heap st.savelistH).map fun heap =>
      (.error, { st with heap, savelistH := none, savelistT := none })

/-- The recipient loop of `make_savelist`. -/
def judgeRcpts (cfg : Settings) : Nat → Option Nat → Lists → Option (Rc × Lists)
  | _, none, st => some (.success, st)
  | 0, some _, _ => none
  | k + 1, some p, st =>
    match st.heap.cell p with
    | none => none
    | some n =>
      match judgeMail (complementAddress n.data cfg) st cfg with
      | none => none
      | some (.success, st) => (st.heap.cell p).bind fun n => judgeRcpts cfg k n.next st
      | some (_, st) => dropLists st

/-- The sender stage of `make_savelist`; `from_` is the sender's `ss_str`. -/
def fromStage (from_ : Option Str) (st : Lists) (cfg : Settings) : Option (Rc × Lists) :=
  if FROM &&& cfg.cfSavepolicyConv.conv ≠ 0 then
    match from_ with
    | none => none
    | some a =>
      match judgeMail (complementAddress a cfg) st cfg with
      | none => none
      | some (.success, st) => some (.success, st)
      | some (_, st) => dropLists st
  else some (.success, st)

/-- The recipient stage of `make_savelist`. -/
def toStage (rcptlist : Option Nat) (st : Lists) (cfg : Settings) : Option (Rc × Lists) :=
  if TO &&& cfg.cfSavepolicyConv.conv ≠ 0 then judgeRcpts cfg st.heap.next rcptlist st
  else some (.success, st)

/-- The LDAP stage of `make_savelist`. -/
def ldapStage (st : Lists) (cfg : Settings) (ldap : Ldap) : Option (Rc × Lists) :=
  if st.ldaplistH = none then some (.success, st)
  else
    match checkLdap st cfg ldap with
    | none => none
    | some (.success, st) => some (.success, st)
    | some (_, st) => dropLists st

/-- `make_savelist`; the save list starts at the caller's two pointers. -/
def makeSavelist (from_ : Option Str) (rcptlist : Option Nat) (heap : StrHeap)
    (savelistH savelistT : Option Nat) (cfg : Settings) (ldap : Ldap) : Option (Rc × Lists) :=
  match fromStage from_ ⟨heap, savelistH, savelistT, none, none⟩ cfg with
  | none => none
  | some (.success, st) =>
    match toStage rcptlist st cfg with
    | none => none
    | some (.success, st) => ldapStage st cfg ldap
    | some r => some r
  | some r => some r

end Messasy
