import Messasy.Lib.Bytes

/-!
# Search filters (RFC 4515)

The string representation of LDAP search filters: `LdapFilter` follows the productions of the
grammar, `text` is the string of a filter, and `Encodes v s` says that the value encoding `s` stands
for the value `v`. An equality item may have a placeholder (`none`) for its value. A value in the
place of the placeholders stands for itself, and leaves the filter what it is, if and only if it is
UTF-8 without the characters that the encoding gives a meaning (`LdapFilter.fills_self_iff`).
-/

namespace Lib

/-! ## Values -/

/-- `UTF0`: a continuation byte. -/
def utf0 (b : Byte) : Bool := 0x80 ≤ b && b ≤ 0xBF

/-- `UTFMB`: the bytes of a character beyond ASCII. -/
def utfmb : Str → Bool
  | [a, b] => 0xC2 ≤ a && a ≤ 0xDF && utf0 b
  | [a, b, c] =>
    (a == 0xE0 && 0xA0 ≤ b && b ≤ 0xBF || 0xE1 ≤ a && a ≤ 0xEC && utf0 b ||
      a == 0xED && 0x80 ≤ b && b ≤ 0x9F || 0xEE ≤ a && a ≤ 0xEF && utf0 b) && utf0 c
  | [a, b, c, d] =>
    (a == 0xF0 && 0x90 ≤ b && b ≤ 0xBF || 0xF1 ≤ a && a ≤ 0xF3 && utf0 b ||
      a == 0xF4 && 0x80 ≤ b && b ≤ 0x8F) && utf0 c && utf0 d
  | _ => false

/-- Well-formed UTF-8. -/
inductive Utf8 : Str → Prop
  | nil : Utf8 []
  | ascii {b : Byte} {s : Str} : b < 0x80 → Utf8 s → Utf8 (b :: s)
  | multi {u s : Str} : utfmb u = true → Utf8 s → Utf8 (u ++ s)

/-- The characters that a value cannot have as they are: NUL, the parentheses, the asterisk and the
backslash. -/
def filterSpecial (b : Byte) : Bool :=
  b == 0 || b == ch '(' || b == ch ')' || b == ch '*' || b == ch '\\'

/-- `HEX`. -/
def hexValue (b : Byte) : Option Byte :=
  if ch '0' ≤ b ∧ b ≤ ch '9' then some (b - ch '0')
  else if ch 'A' ≤ b ∧ b ≤ ch 'F' then some (b - ch 'A' + 10)
  else if ch 'a' ≤ b ∧ b ≤ ch 'f' then some (b - ch 'a' + 10)
  else none

/-- `valueencoding`: the text stands for the value. -/
inductive Encodes : Str → Str → Prop
  | nil : Encodes [] []
  | normal {b : Byte} {v s : Str} : b < 0x80 → filterSpecial b = false → Encodes v s →
      Encodes (b :: v) (b :: s)
  | multi {u v s : Str} : utfmb u = true → Encodes v s → Encodes (u ++ v) (u ++ s)
  | escaped {h l x y : Byte} {v s : Str} : hexValue h = some x → hexValue l = some y →
      Encodes v s → Encodes ((16 * x + y) :: v) (ch '\\' :: h :: l :: s)

/-- A value of which every byte stands for itself. -/
def PlainValue (v : Str) : Prop := Utf8 v ∧ ∀ b ∈ v, filterSpecial b = false

/-! ## Filters -/

def isalpha (c : Byte) : Bool := ch 'A' ≤ c && c ≤ ch 'Z' || ch 'a' ≤ c && c ≤ ch 'z'

/-- `keychar`. -/
def keychar (c : Byte) : Bool := isalpha c || isdigit c || c == ch '-'

/-- `keystring`. -/
def keystring : Str → Bool
  | [] => false
  | c :: s => isalpha c && s.all keychar

/-- `number`. -/
def oidNumber (s : Str) : Bool :=
  s != [] && s.all isdigit && (s.length == 1 || s.head? != some (ch '0'))

/-- `numericoid`. -/
def numericoid (s : Str) : Bool :=
  2 ≤ (s.splitOn (ch '.')).length && (s.splitOn (ch '.')).all oidNumber

/-- `oid`. -/
def oid (s : Str) : Bool := keystring s || numericoid s

/-- `attributedescription`. -/
def attributedescription (s : Str) : Bool :=
  match s.splitOn (ch ';') with
  | [] => false
  | attributetype :: options => oid attributetype && options.all fun o => o != [] && o.all keychar

/-- `filtertype`. -/
inductive FilterType
  | equal
  | approx
  | greaterorequal
  | lessorequal
  deriving DecidableEq

def FilterType.text : FilterType → Str
  | .equal => bytes "="
  | .approx => bytes "~="
  | .greaterorequal => bytes ">="
  | .lessorequal => bytes "<="

/-- `item`; the value of a simple item is `none` for the placeholder. -/
inductive FilterItem
  | simple (attr : Str) (filtertype : FilterType) (value : Option Str)
  | present (attr : Str)
  | substring (attr initial : Str) (any : List Str) (final : Str)
  | extensible (attr : Option Str) (dnattrs : Bool) (matchingrule : Option Str) (value : Str)

mutual

/-- `filter`. -/
inductive LdapFilter
  | and (l : LdapFilterList)
  | or (l : LdapFilterList)
  | not (f : LdapFilter)
  | item (i : FilterItem)

/-- `filterlist`: one filter or more. -/
inductive LdapFilterList
  | one (f : LdapFilter)
  | cons (f : LdapFilter) (l : LdapFilterList)

end

/-- The text is the encoding of some value. -/
def AssertionValue (s : Str) : Prop := ∃ v, Encodes v s

/-- What the grammar asks of the parts of an item. Only an equality item has a placeholder, and an
asterisk alone is a test for presence. -/
def FilterItem.Valid : FilterItem → Prop
  | .simple attr filtertype none => attributedescription attr = true ∧ filtertype = .equal
  | .simple attr _ (some value) => attributedescription attr = true ∧ AssertionValue value
  | .present attr => attributedescription attr = true
  | .substring attr initial any final => attributedescription attr = true ∧
      (∀ s ∈ initial :: final :: any, AssertionValue s) ∧ (initial, any, final) ≠ ([], [], [])
  | .extensible attr _ matchingrule value => (∀ s ∈ attr, attributedescription s = true) ∧
      (∀ s ∈ matchingrule, oid s = true) ∧ (attr ≠ none ∨ matchingrule ≠ none) ∧
      AssertionValue value

mutual

def LdapFilter.Valid : LdapFilter → Prop
  | .and l => l.Valid
  | .or l => l.Valid
  | .not f => f.Valid
  | .item i => i.Valid

def LdapFilterList.Valid : LdapFilterList → Prop
  | .one f => f.Valid
  | .cons f l => f.Valid ∧ l.Valid

end

/-- A text without placeholders. -/
def literal (s : Str) : List (Option Byte) := s.map some

def FilterItem.text : FilterItem → List (Option Byte)
  | .simple attr filtertype none => literal (attr ++ filtertype.text) ++ [none]
  | .simple attr filtertype (some value) => literal (attr ++ filtertype.text) ++ literal value
  | .present attr => literal (attr ++ bytes "=*")
  | .substring attr initial any final =>
    literal (attr ++ bytes "=" ++ initial ++ bytes "*" ++ any.flatMap (· ++ bytes "*") ++ final)
  | .extensible attr dnattrs matchingrule value =>
    literal (attr.getD [] ++ (if dnattrs then bytes ":dn" else []) ++
      (matchingrule.map (bytes ":" ++ ·)).getD [] ++ bytes ":=" ++ value)

mutual

def LdapFilter.text : LdapFilter → List (Option Byte)
  | .and l => literal (bytes "(&") ++ (l.text ++ literal (bytes ")"))
  | .or l => literal (bytes "(|") ++ (l.text ++ literal (bytes ")"))
  | .not f => literal (bytes "(!") ++ (f.text ++ literal (bytes ")"))
  | .item i => literal (bytes "(") ++ (i.text ++ literal (bytes ")"))

def LdapFilterList.text : LdapFilterList → List (Option Byte)
  | .one f => f.text
  | .cons f l => f.text ++ l.text

end

/-! ## Placeholders -/

/-- Another text for the placeholders. -/
def fillText (v : Str) (l : List (Option Byte)) : List (Option Byte) :=
  l.flatMap fun
    | none => literal v
    | some b => [some b]

/-- The same item, with a text that `P` holds of in the place of the placeholder. -/
inductive FilterItem.Fills (P : Str → Prop) : FilterItem → FilterItem → Prop
  | placeholder {attr : Str} {filtertype : FilterType} {v : Str} : P v →
      Fills P (.simple attr filtertype none) (.simple attr filtertype (some v))
  | same {i : FilterItem} : none ∉ i.text → Fills P i i

mutual

/-- The same filter, with texts that `P` holds of in the places of the placeholders. -/
inductive LdapFilter.Fills (P : Str → Prop) : LdapFilter → LdapFilter → Prop
  | and {l l' : LdapFilterList} : LdapFilterList.Fills P l l' → LdapFilter.Fills P (.and l) (.and l')
  | or {l l' : LdapFilterList} : LdapFilterList.Fills P l l' → LdapFilter.Fills P (.or l) (.or l')
  | not {f f' : LdapFilter} : LdapFilter.Fills P f f' → LdapFilter.Fills P (.not f) (.not f')
  | item {i i' : FilterItem} : FilterItem.Fills P i i' →
      LdapFilter.Fills P (.item i) (.item i')

inductive LdapFilterList.Fills (P : Str → Prop) : LdapFilterList → LdapFilterList → Prop
  | one {f f' : LdapFilter} : LdapFilter.Fills P f f' →
      LdapFilterList.Fills P (.one f) (.one f')
  | cons {f f' : LdapFilter} {l l' : LdapFilterList} : LdapFilter.Fills P f f' →
      LdapFilterList.Fills P l l' → LdapFilterList.Fills P (.cons f l) (.cons f' l')

end

/-! ## Encodings -/

section
variable {v s u : Str} {b : Byte}

theorem Encodes.length_le (h : Encodes v s) : v.length ≤ s.length := by
  induction h with
  | nil => exact Nat.le_refl _
  | normal _ _ _ ih => exact Nat.succ_le_succ ih
  | multi _ _ ih =>
    rw [List.length_append, List.length_append]
    exact Nat.add_le_add_left ih _
  | escaped _ _ _ ih =>
    simp only [List.length_cons]
    omega

/-- A text as long as its value is the value. -/
theorem Encodes.eq_of_length (h : Encodes v s) (hl : s.length = v.length) : s = v := by
  induction h with
  | nil => rfl
  | normal _ _ _ ih => rw [ih (Nat.succ.inj hl)]
  | multi _ _ ih =>
    rw [List.length_append, List.length_append] at hl
    rw [ih (Nat.add_left_cancel hl)]
  | escaped _ _ h _ =>
    have := h.length_le
    simp only [List.length_cons] at hl
    omega

theorem utf0_not_special : ∀ b : Byte, 0x80 ≤ b → filterSpecial b = false :=
  forall_byte (by decide +kernel)

/-- The bytes of a character beyond ASCII have the high bit. -/
theorem utfmb_high (h : utfmb u = true) : ∀ b ∈ u, 0x80 ≤ b := by
  unfold utfmb at h
  split at h
  · simp only [utf0, Bool.and_eq_true, decide_eq_true_eq] at h
    grind
  · simp only [utf0, Bool.and_eq_true, Bool.or_eq_true, decide_eq_true_eq, beq_iff_eq] at h
    grind
  · simp only [utf0, Bool.and_eq_true, Bool.or_eq_true, decide_eq_true_eq, beq_iff_eq] at h
    grind
  · cases h

theorem Encodes.plain (h : Encodes v s) (he : s = v) : PlainValue v := by
  induction h with
  | nil => exact ⟨.nil, fun b hb => by cases hb⟩
  | normal hb hspecial _ ih =>
    obtain ⟨hu, hs⟩ := ih (List.cons.inj he).2
    exact ⟨.ascii hb hu, List.forall_mem_cons.2 ⟨hspecial, hs⟩⟩
  | multi hu _ ih =>
    obtain ⟨hv, hs⟩ := ih (List.append_cancel_left he)
    refine ⟨.multi hu hv, fun b hb => ?_⟩
    rcases List.mem_append.1 hb with hb | hb
    · exact utf0_not_special b (utfmb_high hu b hb)
    · exact hs b hb
  | escaped _ _ h _ =>
    have hlen := h.length_le
    have := congrArg List.length he
    simp only [List.length_cons] at this
    omega

/-- **A value encodes itself** if and only if it is plain. -/
theorem encodes_self_iff : Encodes v v ↔ PlainValue v := by
  refine ⟨fun h => h.plain rfl, fun h => ?_⟩
  obtain ⟨hu, hs⟩ := h
  induction hu with
  | nil => exact .nil
  | ascii hb _ ih =>
    obtain ⟨hspecial, hs⟩ := List.forall_mem_cons.1 hs
    exact .normal hb hspecial (ih hs)
  | multi hu _ ih => exact .multi hu (ih fun b hb => hs b (List.mem_append_right _ hb))

end

theorem plainValue_of_ascii {s : Str} (h : s.all fun b => b < 0x80 && !filterSpecial b) :
    PlainValue s := by
  induction s with
  | nil => exact ⟨.nil, fun b hb => by cases hb⟩
  | cons b s ih =>
    simp only [List.all_cons, Bool.and_eq_true, decide_eq_true_eq, Bool.not_eq_true'] at h
    obtain ⟨hu, hs⟩ := ih h.2
    exact ⟨.ascii h.1.1 hu, List.forall_mem_cons.2 ⟨h.1.2, hs⟩⟩

/-! ## Texts -/

section
variable {v : Str} {l l' : List (Option Byte)}

theorem notMem_literal (s : Str) : none ∉ literal s := by
  intro h
  obtain ⟨b, -, hb⟩ := List.mem_map.1 h
  cases hb

theorem fillText_append (v : Str) (l l' : List (Option Byte)) :
    fillText v (l ++ l') = fillText v l ++ fillText v l' := List.flatMap_append

theorem fillText_of_notMem (h : none ∉ l) : fillText v l = l := by
  induction l with
  | nil => rfl
  | cons x l ih =>
    rw [List.mem_cons, not_or] at h
    cases x with
    | none => exact absurd rfl h.1
    | some b => exact congrArg (some b :: ·) (ih h.2)

theorem fillText_literal (v s : Str) : fillText v (literal s) = literal s :=
  fillText_of_notMem (notMem_literal s)

theorem fillText_none (v : Str) : fillText v [none] = literal v := List.append_nil _

/-- Around a text, the brackets of a filter stay. -/
theorem fillText_bracket (v s t : Str) (l : List (Option Byte)) :
    fillText v (literal s ++ (l ++ literal t)) = literal s ++ (fillText v l ++ literal t) := by
  rw [fillText_append, fillText_append, fillText_literal, fillText_literal]

end

/-! ## Filters with other texts for the placeholders -/

section
variable {P Q : Str → Prop} {v : Str}

theorem FilterItem.Fills.text_eq {i i' : FilterItem} (hv : ∀ w, P w → w = v)
    (h : FilterItem.Fills P i i') : i'.text = fillText v i.text := by
  cases h with
  | placeholder hw =>
    obtain rfl := hv _ hw
    rw [FilterItem.text, FilterItem.text, fillText_append, fillText_literal, fillText_none]
  | same hno => rw [fillText_of_notMem hno]

mutual

theorem LdapFilter.Fills.text_eq {f f' : LdapFilter} (hv : ∀ w, P w → w = v) :
    LdapFilter.Fills P f f' → f'.text = fillText v f.text
  | .and h => by rw [LdapFilter.text, LdapFilter.text, fillText_bracket, h.text_eq hv]
  | .or h => by rw [LdapFilter.text, LdapFilter.text, fillText_bracket, h.text_eq hv]
  | .not h => by rw [LdapFilter.text, LdapFilter.text, fillText_bracket, h.text_eq hv]
  | .item h => by rw [LdapFilter.text, LdapFilter.text, fillText_bracket, h.text_eq hv]

theorem LdapFilterList.Fills.text_eq {l l' : LdapFilterList} (hv : ∀ w, P w → w = v) :
    LdapFilterList.Fills P l l' → l'.text = fillText v l.text
  | .one h => by rw [LdapFilterList.text, LdapFilterList.text, h.text_eq hv]
  | .cons h hl => by
    rw [LdapFilterList.text, LdapFilterList.text, fillText_append, h.text_eq hv, hl.text_eq hv]

end

/-- A filter with longer texts in it than `v` is longer than with `v`. -/
def Longer (v : Str) (l l' : List (Option Byte)) : Prop :=
  (fillText v l).length + l.count none ≤ l'.length

theorem Longer.append {l l' k k' : List (Option Byte)} (h : Longer v l l') (hk : Longer v k k') :
    Longer v (l ++ k) (l' ++ k') := by
  unfold Longer at *
  rw [fillText_append, List.count_append, List.length_append, List.length_append]
  omega

theorem Longer.refl {l : List (Option Byte)} (h : none ∉ l) : Longer v l l := by
  unfold Longer
  rw [fillText_of_notMem h, List.count_eq_zero_of_not_mem h]
  exact Nat.le_refl _

theorem Longer.bracket {l l' : List (Option Byte)} (s t : Str) (h : Longer v l l') :
    Longer v (literal s ++ (l ++ literal t)) (literal s ++ (l' ++ literal t)) :=
  (Longer.refl (notMem_literal s)).append (h.append (.refl (notMem_literal t)))

theorem FilterItem.Fills.longer {i i' : FilterItem} (hv : ∀ w, P w → v.length < w.length)
    (h : FilterItem.Fills P i i') : Longer v i.text i'.text := by
  cases h with
  | placeholder hw =>
    refine (Longer.refl (notMem_literal _)).append ?_
    unfold Longer
    rw [fillText_none, literal, literal, List.length_map, List.length_map]
    exact hv _ hw
  | same hno => exact .refl hno

mutual

theorem LdapFilter.Fills.longer {f f' : LdapFilter} (hv : ∀ w, P w → v.length < w.length) :
    LdapFilter.Fills P f f' → Longer v f.text f'.text
  | .and h => (h.longer hv).bracket _ _
  | .or h => (h.longer hv).bracket _ _
  | .not h => (h.longer hv).bracket _ _
  | .item h => (h.longer hv).bracket _ _

theorem LdapFilterList.Fills.longer {l l' : LdapFilterList}
    (hv : ∀ w, P w → v.length < w.length) :
    LdapFilterList.Fills P l l' → Longer v l.text l'.text
  | .one h => h.longer hv
  | .cons h hl => (h.longer hv).append (hl.longer hv)

end

theorem FilterItem.Fills.valid {i i' : FilterItem} (hv : ∀ w, P w → AssertionValue w)
    (h : FilterItem.Fills P i i') (hi : i.Valid) : i'.Valid := by
  cases h with
  | placeholder hw => exact ⟨hi.1, hv _ hw⟩
  | same => exact hi

mutual

theorem LdapFilter.Fills.valid {f f' : LdapFilter} (hv : ∀ w, P w → AssertionValue w) :
    LdapFilter.Fills P f f' → f.Valid → f'.Valid
  | .and h, hf => h.valid hv hf
  | .or h, hf => h.valid hv hf
  | .not h, hf => by
    unfold LdapFilter.Valid at hf ⊢
    exact h.valid hv hf
  | .item h, hf => h.valid hv hf

theorem LdapFilterList.Fills.valid {l l' : LdapFilterList} (hv : ∀ w, P w → AssertionValue w) :
    LdapFilterList.Fills P l l' → l.Valid → l'.Valid
  | .one h, hl => h.valid hv hl
  | .cons h hrest, hl => ⟨h.valid hv hl.1, hrest.valid hv hl.2⟩

end

theorem FilterItem.Fills.mono {i i' : FilterItem} (hv : ∀ w, P w → Q w)
    (h : FilterItem.Fills P i i') : FilterItem.Fills Q i i' := by
  cases h with
  | placeholder hw => exact .placeholder (hv _ hw)
  | same hno => exact .same hno

mutual

theorem LdapFilter.Fills.mono {f f' : LdapFilter} (hv : ∀ w, P w → Q w) :
    LdapFilter.Fills P f f' → LdapFilter.Fills Q f f'
  | .and h => .and (h.mono hv)
  | .or h => .or (h.mono hv)
  | .not h => .not (h.mono hv)
  | .item h => .item (h.mono hv)

theorem LdapFilterList.Fills.mono {l l' : LdapFilterList} (hv : ∀ w, P w → Q w) :
    LdapFilterList.Fills P l l' → LdapFilterList.Fills Q l l'
  | .one h => .one (h.mono hv)
  | .cons h hl => .cons (h.mono hv) (hl.mono hv)

end

theorem FilterItem.exists_fills (hv : P v) (i : FilterItem) : ∃ i', FilterItem.Fills P i i' := by
  cases i with
  | simple attr filtertype value =>
    cases value with
    | none => exact ⟨_, .placeholder hv⟩
    | some value =>
      refine ⟨_, .same fun h => ?_⟩
      rw [FilterItem.text, List.mem_append] at h
      exact h.elim (notMem_literal _) (notMem_literal _)
  | present attr => exact ⟨_, .same (notMem_literal _)⟩
  | substring attr initial any final => exact ⟨_, .same (notMem_literal _)⟩
  | extensible attr dnattrs matchingrule value => exact ⟨_, .same (notMem_literal _)⟩

mutual

theorem LdapFilter.exists_fills (hv : P v) : ∀ f : LdapFilter, ∃ f', LdapFilter.Fills P f f'
  | .and l => let ⟨_, h⟩ := LdapFilterList.exists_fills hv l; ⟨_, .and h⟩
  | .or l => let ⟨_, h⟩ := LdapFilterList.exists_fills hv l; ⟨_, .or h⟩
  | .not f => let ⟨_, h⟩ := LdapFilter.exists_fills hv f; ⟨_, .not h⟩
  | .item i => let ⟨_, h⟩ := FilterItem.exists_fills hv i; ⟨_, .item h⟩

theorem LdapFilterList.exists_fills (hv : P v) :
    ∀ l : LdapFilterList, ∃ l', LdapFilterList.Fills P l l'
  | .one f => let ⟨_, h⟩ := LdapFilter.exists_fills hv f; ⟨_, .one h⟩
  | .cons f l =>
    let ⟨_, h⟩ := LdapFilter.exists_fills hv f
    let ⟨_, hl⟩ := LdapFilterList.exists_fills hv l
    ⟨_, .cons h hl⟩

end

/-- **A value in the place of the placeholders** gives the filter with its own encoding there, if
and only if it is plain. -/
theorem LdapFilter.fills_self_iff {f : LdapFilter} (hf : f.Valid) (hhole : none ∈ f.text)
    (v : Str) : (∃ f' : LdapFilter, f'.Valid ∧ f'.text = fillText v f.text ∧
      LdapFilter.Fills (Encodes v) f f') ↔ PlainValue v := by
  rw [← encodes_self_iff]
  constructor
  · rintro ⟨f', -, htext, hfills⟩
    by_contra hself
    have hlonger := hfills.longer (v := v) fun w hw => by
      have hle := hw.length_le
      have hne : w.length ≠ v.length := fun he => hself (hw.eq_of_length he ▸ hw)
      omega
    unfold Longer at hlonger
    have hcount : 0 < f.text.count none := List.count_pos_iff.2 hhole
    rw [htext] at hlonger
    omega
  · intro hself
    obtain ⟨f', hfills⟩ := LdapFilter.exists_fills (P := (· = v)) rfl f
    have hencodes : ∀ w, w = v → Encodes v w := fun w hw => hw ▸ hself
    exact ⟨f', hfills.valid (fun w hw => ⟨v, hencodes w hw⟩) hf, hfills.text_eq fun _ hw => hw,
      hfills.mono hencodes⟩

end

end Lib
