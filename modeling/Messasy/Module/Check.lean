import Messasy.Module.Folder

/-!
# The checks of the folder settings

`is_mailfolder`, `is_dotdelimiter` and `is_slashdelimiter`, which `maildrop`, `gzip` and `enczip`
have in common. A check yields the text of its error, or `none`.
-/

namespace Messasy

open Lib

def CHAR_MAILDROP_MAILFOLDER : Str :=
  bytes "abcdefghijklmnopqrstuvwxyzABCDEFGHIJKLMNOPQRSTUVWXYZ0123456789.%,_&-+ "

def CHAR_MAILDROP_DOT_DELIMITER : Str :=
  bytes "abcdefghijklmnopqrstuvwxyzABCDEFGHIJKLMNOPQRSTUVWXYZ0123456789,-_ "

def CHAR_MAILDROP_SLASH_DELIMITER : Str :=
  bytes "abcdefghijklmnopqrstuvwxyzABCDEFGHIJKLMNOPQRSTUVWXYZ0123456789,-_ "

def ERR_MAILDROP_MAILFOLDER : Str := bytes "invalid maildrop mailfolder value"

def ERR_MAILDROP_DOTDELIMITER : Str := bytes "invalid maildrop dotdelimiter value"

def ERR_MAILDROP_SLASHDELIMITER : Str := bytes "invalid maildrop slashdelimiter value"

/-- The loop of `is_mailfolder`: no two dots in a row, and only the characters of the set. -/
def mailfolderLoop : Str → Bool
  | [] => true
  | c :: rest =>
    if c = DOT ∧ rest.head? = some DOT then false
    else if c ∈ CHAR_MAILDROP_MAILFOLDER then mailfolderLoop rest
    else false

/-- `is_mailfolder`. -/
def isMailfolder (str : Str) : Option Str :=
  if str.head? ≠ some DOT then some ERR_MAILDROP_MAILFOLDER
  else if mailfolderLoop str = false then some ERR_MAILDROP_MAILFOLDER
  else if str.getLast? = some DOT then some ERR_MAILDROP_MAILFOLDER
  else none

/-- The two delimiter checks: one character of the set. The empty text is refused whatever the
byte behind its NUL is. -/
def isDelimiter (string err : Str) : Str → Option Str
  | [c] => if c ∈ string then none else some err
  | _ => some err

/-- `is_dotdelimiter`. -/
def isDotdelimiter (str : Str) : Option Str :=
  isDelimiter CHAR_MAILDROP_DOT_DELIMITER ERR_MAILDROP_DOTDELIMITER str

/-- `is_slashdelimiter`. -/
def isSlashdelimiter (str : Str) : Option Str :=
  isDelimiter CHAR_MAILDROP_SLASH_DELIMITER ERR_MAILDROP_SLASHDELIMITER str

/-! ## What is accepted -/

theorem mem_mailfolderLoop : ∀ {str : Str}, mailfolderLoop str = true → ∀ c ∈ str,
    c ∈ CHAR_MAILDROP_MAILFOLDER
  | [], _, _, hc => by cases hc
  | d :: rest, h, c, hc => by
    unfold mailfolderLoop at h
    split at h
    · cases h
    · split at h
      · rename_i hd
        rcases List.mem_cons.1 hc with rfl | hc
        · exact hd
        · exact mem_mailfolderLoop h c hc
      · cases h

/-- An accepted `MailFolder` has characters of the set only. -/
theorem isMailfolder_mem {str : Str} (h : isMailfolder str = none) {c : Byte} (hc : c ∈ str) :
    c ∈ CHAR_MAILDROP_MAILFOLDER := by
  unfold isMailfolder at h
  split at h
  · cases h
  · split at h
    · cases h
    · rename_i hloop
      exact mem_mailfolderLoop (Bool.not_eq_false _ ▸ hloop) c hc

/-- An accepted delimiter is one character of the set. -/
theorem isDelimiter_mem {string err str : Str} (h : isDelimiter string err str = none) :
    ∃ c ∈ string, str = [c] := by
  unfold isDelimiter at h
  split at h
  · rename_i c
    split at h
    · rename_i hc
      exact ⟨c, hc, rfl⟩
    · cases h
  · cases h

end Messasy
