import Messasy.Mail.Addrpart
import Messasy.Mail.Field

/-!
# Address lists (`libdgmail.c`)

`divide_address_list` cuts a value at its commas, but for those in quoted text and behind `\`, and
collects the address of each piece in an array that it allocates anew for every comma. The array
never has an access outside or to a cell that was not set, and ends with the one null pointer
(`divideAddressList_eq`).
-/

namespace Messasy

open Lib

/-- The `MODE_*` constants of the list: normal, behind `\`, in quoted text, behind `\` in it. -/
inductive ListMode
  | n
  | q
  | d
  | dq
  deriving DecidableEq

namespace ListMode

/-- The `default` case: any character but `"` and `\`. -/
def plain : ListMode → ListMode
  | .n => .n
  | .q => .n
  | .d => .d
  | .dq => .d

/-- The mode behind a character. The case of the comma goes on into the `default` case. -/
def next (c : Byte) (mode : ListMode) : ListMode :=
  if c = ch '"' then
    match mode with
    | .n => .d
    | .q => .n
    | .d => .n
    | .dq => .d
  else if c = ch '\\' then
    match mode with
    | .n => .q
    | .q => .n
    | .d => .dq
    | .dq => .d
  else if c = ch ',' then mode.plain.plain
  else mode.plain

end ListMode

/-- A cell of an array of addresses: not set, null, or an address. -/
abbrev Cell := Option (Option Str)

def storeCell (a : List Cell) (i : Nat) (x : Option Str) : Option (List Cell) :=
  if i < a.length then some (a.set i (some x)) else none

/-- Copy up to the null pointer: where it stands, and the new array. -/
def copyCells : List Cell → Nat → List Cell → Option (Nat × List Cell)
  | [], _, _ => none
  | none :: _, _, _ => none
  | some none :: _, i, tmp => some (i, tmp)
  | some (some a) :: old, i, tmp => (storeCell tmp i (some a)).bind (copyCells old (i + 1))

/-- The variables of `divide_address_list`; `start` is the text from `to_start` on so far. -/
structure Divide where
  toArray : List Cell
  addr : Nat
  num : Nat
  mode : ListMode
  start : Str

/-- A comma in normal mode: the address is stored, and the array made one longer. -/
def Divide.comma (st : Divide) : Option Divide :=
  (storeCell st.toArray st.addr (some (getAddrpart st.start))).bind fun toArray =>
  (copyCells toArray 0 (List.replicate (st.num + 2) none)).bind fun (addr, tmp) =>
  (storeCell tmp (addr + 1) none).map fun tmp => ⟨tmp, addr, st.num + 1, st.mode.plain, []⟩

/-- The loop, and the last address behind it. -/
def divideLoop : Str → Divide → Option (List Cell)
  | [], st => (storeCell st.toArray st.addr (some (getAddrpart st.start))).bind fun toArray =>
    storeCell toArray (st.addr + 1) none
  | c :: str, st =>
    if c = ch ',' ∧ st.mode = .n then st.comma.bind (divideLoop str)
    else divideLoop str { st with mode := st.mode.next c, start := st.start ++ [c] }

/-- `divide_address_list`: the array. -/
def divideAddressList (str : Str) : Option (List Cell) :=
  divideLoop str ⟨[some none, some none], 0, 1, .n, []⟩

/-- `get_to`: the array, and the next field. -/
def getTo (buftop : Str) : Option (List Cell × Option Str) :=
  (getField buftop).bind fun (rstr, nadr) => (divideAddressList rstr).map fun a => (a, nadr)

/-- `get_from`: the address, and the next field. -/
def getFrom (buftop : Str) : Option (Str × Option Str) :=
  (getField buftop).map fun (rstr, nadr) => (getAddrpart rstr, nadr)

/-! ## The pieces -/

/-- The text between two quotes. -/
inductive Quoted : Str → Prop
  | nil : Quoted []
  | plain {c : Byte} {s : Str} : c ≠ ch '"' → c ≠ ch '\\' → Quoted s → Quoted (c :: s)
  | pair {c : Byte} {s : Str} : Quoted s → Quoted (ch '\\' :: c :: s)

/-- A piece whose quotes and escapes are complete; a comma stands inside them only. -/
inductive Closed : Str → Prop
  | nil : Closed []
  | plain {c : Byte} {s : Str} : c ≠ ch '"' → c ≠ ch '\\' → c ≠ ch ',' → Closed s → Closed (c :: s)
  | pair {c : Byte} {s : Str} : Closed s → Closed (ch '\\' :: c :: s)
  | quoted {q s : Str} : Quoted q → Closed s → Closed (ch '"' :: (q ++ ch '"' :: s))

/-- The mode behind a text without a comma in normal mode. -/
def listModeRun : Str → ListMode → Option ListMode
  | [], mode => some mode
  | c :: s, mode => if c = ch ',' ∧ mode = .n then none else listModeRun s (mode.next c)

theorem listModeRun_cons {c : Byte} {mode : ListMode} (h : c ≠ ch ',' ∨ mode ≠ .n) (s : Str) :
    listModeRun (c :: s) mode = listModeRun s (mode.next c) := by
  rw [listModeRun, if_neg (by tauto)]

theorem ListMode.next_pair (c : Byte) : ListMode.next c .q = .n ∧ ListMode.next c .dq = .d := by
  unfold next
  split
  · exact ⟨rfl, rfl⟩
  · split
    · exact ⟨rfl, rfl⟩
    · split <;> exact ⟨rfl, rfl⟩

theorem ListMode.next_plain {c : Byte} (h : c ≠ ch '"') (h' : c ≠ ch '\\') (mode : ListMode) :
    mode.next c = mode.plain := by
  unfold next
  rw [if_neg h, if_neg h']
  split
  · cases mode <;> rfl
  · rfl

theorem Quoted.run {q : Str} (h : Quoted q) (s : Str) :
    listModeRun (q ++ s) .d = listModeRun s .d := by
  induction h with
  | nil => rfl
  | plain hq hb _ ih =>
    rw [List.cons_append, listModeRun_cons (.inr (by decide)), ListMode.next_plain hq hb]
    exact ih
  | @pair c q _ ih =>
    rw [List.cons_append, List.cons_append, listModeRun_cons (.inr (by decide)),
      listModeRun_cons (.inr (by decide))]
    exact (congrArg _ (ListMode.next_pair c).2).trans ih

theorem Closed.run {p : Str} (h : Closed p) (s : Str) :
    listModeRun (p ++ s) .n = listModeRun s .n := by
  induction h with
  | nil => rfl
  | plain hq hb hc _ ih =>
    rw [List.cons_append, listModeRun_cons (.inl hc), ListMode.next_plain hq hb]
    exact ih
  | @pair c p _ ih =>
    rw [List.cons_append, List.cons_append, listModeRun_cons (.inl (by decide)),
      listModeRun_cons (.inr (by decide))]
    exact (congrArg _ (ListMode.next_pair c).1).trans ih
  | @quoted q p hq _ ih =>
    rw [List.cons_append, List.append_assoc, List.cons_append,
      listModeRun_cons (.inl (by decide))]
    refine (hq.run _).trans ?_
    rw [listModeRun_cons (.inr (by decide))]
    exact ih

/-- A text that leads from the normal mode back to it is a complete piece. -/
theorem closed_of_run : ∀ (n : Nat) (s : Str), s.length < n →
    (listModeRun s .n = some .n → Closed s) ∧
    (listModeRun s .d = some .n → ∃ q t, s = q ++ ch '"' :: t ∧ Quoted q ∧ Closed t)
  | 0, s, h => absurd h (Nat.not_lt_zero _)
  | n + 1, [], _ => ⟨fun _ => .nil, fun h => (by cases h)⟩
  | n + 1, c :: s, hn => by
    have hs : s.length < n := Nat.lt_of_succ_lt_succ hn
    have htail : ∀ {d t}, s = d :: t → t.length < n := by
      rintro d t rfl
      exact Nat.lt_trans (Nat.lt_succ_self _) hs
    refine ⟨fun h => ?_, fun h => ?_⟩
    · have hcomma : c ≠ ch ',' := by
        rintro rfl
        rw [listModeRun, if_pos ⟨rfl, rfl⟩] at h
        cases h
      rw [listModeRun_cons (.inl hcomma)] at h
      by_cases hq : c = ch '"'
      · subst hq
        obtain ⟨q, t, rfl, hqt, ht⟩ := (closed_of_run n s hs).2 h
        exact .quoted hqt ht
      · by_cases hb : c = ch '\\'
        · subst hb
          cases s with
          | nil => cases h
          | cons d t =>
            rw [listModeRun_cons (.inr (by decide))] at h
            exact .pair ((closed_of_run n t (htail rfl)).1
              ((congrArg _ (ListMode.next_pair d).1).symm.trans h))
        · rw [ListMode.next_plain hq hb] at h
          exact .plain hq hb hcomma ((closed_of_run n s hs).1 h)
    · rw [listModeRun_cons (.inr (by decide))] at h
      by_cases hq : c = ch '"'
      · subst hq
        exact ⟨[], s, rfl, .nil, (closed_of_run n s hs).1 h⟩
      · by_cases hb : c = ch '\\'
        · subst hb
          cases s with
          | nil => cases h
          | cons d t =>
            rw [listModeRun_cons (.inr (by decide))] at h
            obtain ⟨q, t', rfl, hqt, ht⟩ := (closed_of_run n t (htail rfl)).2
              ((congrArg _ (ListMode.next_pair d).2).symm.trans h)
            exact ⟨ch '\\' :: d :: q, t', rfl, .pair hqt, ht⟩
        · rw [ListMode.next_plain hq hb] at h
          obtain ⟨q, t, rfl, hqt, ht⟩ := (closed_of_run n s hs).2 h
          exact ⟨c :: q, t, rfl, .plain hq hb hqt, ht⟩

theorem closed_iff {s : Str} : Closed s ↔ listModeRun s .n = some .n := by
  refine ⟨fun h => ?_, (closed_of_run _ s (Nat.lt_succ_self _)).1⟩
  have := h.run []
  rwa [List.append_nil] at this

/-- The pieces of a value, from a mode and what there is of the first piece. -/
def listPieces : Str → ListMode → Str → List Str
  | [], _, start => [start]
  | c :: s, mode, start =>
    if c = ch ',' ∧ mode = .n then start :: listPieces s .n []
    else listPieces s (mode.next c) (start ++ [c])

theorem listPieces_append : ∀ {p : Str} {mode mode' : ListMode},
    listModeRun p mode = some mode' → ∀ s start : Str,
    listPieces (p ++ s) mode start = listPieces s mode' (start ++ p)
  | [], mode, mode', h, s, start => by
    cases h
    rw [List.nil_append, List.append_nil]
  | c :: p, mode, mode', h, s, start => by
    rw [listModeRun] at h
    split at h
    · cases h
    · rename_i hc
      rw [List.cons_append, listPieces, if_neg hc, listPieces_append h, List.append_assoc]
      rfl

/-- Closed pieces are the ones that are found. -/
theorem listPieces_intercalate : ∀ {pieces : List Str}, pieces ≠ [] → (∀ p ∈ pieces, Closed p) →
    listPieces ([ch ','].intercalate pieces) .n [] = pieces
  | [], h, _ => absurd rfl h
  | [p], _, h => by
    have hp := closed_iff.1 (h p (List.mem_singleton_self p))
    have := listPieces_append hp [] []
    rw [List.append_nil, List.nil_append] at this
    rw [List.intercalate_singleton, this]
    rfl
  | p :: p' :: pieces, _, h => by
    have hp := closed_iff.1 (h p List.mem_cons_self)
    have ih := listPieces_intercalate (List.cons_ne_nil p' pieces)
      fun x hx => h x (List.mem_cons_of_mem _ hx)
    rw [List.intercalate_cons_cons, List.append_assoc, listPieces_append hp, List.nil_append,
      List.singleton_append, listPieces, if_pos ⟨rfl, rfl⟩, ih]

/-- Every value has its pieces. -/
theorem listPieces_spec : ∀ (s start : Str) (mode : ListMode),
    listModeRun start .n = some mode →
    listPieces s mode start ≠ [] ∧
      [ch ','].intercalate (listPieces s mode start) = start ++ s ∧
      (∀ p ∈ (listPieces s mode start).dropLast, Closed p) ∧
      ∀ pre post, (listPieces s mode start).getLast? = some (pre ++ ch ',' :: post) → ¬ Closed pre
  | [], start, mode, h => by
    refine ⟨List.cons_ne_nil _ _, ?_, fun p hp => (by cases hp), fun pre post hlast hpre => ?_⟩
    · rw [listPieces, List.intercalate_singleton, List.append_nil]
    · obtain rfl : start = pre ++ ch ',' :: post := Option.some.inj hlast
      rw [hpre.run, listModeRun, if_pos ⟨rfl, rfl⟩] at h
      cases h
  | c :: s, start, mode, h => by
    rw [listPieces]
    by_cases hc : c = ch ',' ∧ mode = .n
    · obtain ⟨rfl, rfl⟩ := hc
      obtain ⟨hne, hjoin, hclosed, hlast⟩ := listPieces_spec s [] .n rfl
      rw [if_pos ⟨rfl, rfl⟩]
      obtain ⟨p, ps, hps⟩ := List.exists_cons_of_ne_nil hne
      rw [hps] at hjoin hclosed hlast ⊢
      refine ⟨List.cons_ne_nil _ _, ?_, fun x hx => ?_, fun pre post hl => ?_⟩
      · rw [List.intercalate_cons_cons, hjoin, List.append_assoc]
        rfl
      · rw [List.dropLast_cons_of_ne_nil (List.cons_ne_nil _ _)] at hx
        rcases List.mem_cons.1 hx with rfl | hx
        · exact closed_iff.2 h
        · exact hclosed x hx
      · rw [List.getLast?_cons_cons] at hl
        exact hlast pre post hl
    · have hrun : listModeRun (start ++ [c]) .n = some (mode.next c) := by
        have happend : ∀ (a : Str) (m m' : ListMode), listModeRun a m = some m' →
            listModeRun (a ++ [c]) m = listModeRun [c] m' := by
          intro a
          induction a with
          | nil =>
            intro m m' h
            cases h
            rfl
          | cons x a ih =>
            intro m m' h
            rw [listModeRun] at h
            split at h
            · cases h
            · rename_i hx
              rw [List.cons_append, listModeRun, if_neg hx, ih _ _ h]
        rw [happend _ _ _ h, listModeRun, if_neg hc]
        rfl
      obtain ⟨hne, hjoin, hrest⟩ := listPieces_spec s (start ++ [c]) (mode.next c) hrun
      rw [if_neg hc]
      exact ⟨hne, by rw [hjoin, List.append_assoc]; rfl, hrest⟩

/-! ## The array -/

/-- An array with these addresses and the null pointer behind them. -/
def addressCells (l : List Str) : List Cell := l.map (fun a => some (some a)) ++ [some none]

theorem storeCell_append {l r : List Cell} (x : Cell) (v : Option Str) :
    storeCell (l ++ x :: r) l.length v = some (l ++ some v :: r) := by
  unfold storeCell
  rw [if_pos (by simp)]
  simp

theorem copyCells_eq : ∀ (l : List Str) (pre r : List Cell) (k : Nat), l.length ≤ k →
    copyCells (l.map (fun a => some (some a)) ++ some none :: r) pre.length
        (pre ++ List.replicate k none) =
      some (pre.length + l.length,
        pre ++ l.map (fun a => some (some a)) ++ List.replicate (k - l.length) none)
  | [], pre, r, k, _ => by simp [copyCells]
  | a :: l, pre, r, k, h => by
    obtain ⟨k, rfl⟩ : ∃ k', k = k' + 1 := Nat.exists_eq_add_one.2 (Nat.lt_of_lt_of_le
      (Nat.succ_pos _) h)
    have ih := copyCells_eq l (pre ++ [some (some a)]) r k (Nat.le_of_succ_le_succ h)
    rw [List.map_cons, List.cons_append, copyCells, List.replicate_succ, storeCell_append,
      Option.bind_some]
    rw [List.length_append, List.length_singleton, List.append_assoc] at ih
    refine ih.trans ?_
    simp only [List.length_cons, List.append_assoc, List.singleton_append, Nat.add_sub_add_right]
    rw [Nat.add_right_comm, Nat.add_assoc]

/-- A comma behind the addresses `l`. -/
theorem Divide.comma_eq (l : List Str) (x : Cell) (mode : ListMode) (start : Str) :
    Divide.comma ⟨l.map (fun a => some (some a)) ++ [x, some none], l.length, l.length + 1, mode,
        start⟩ =
      some ⟨(l ++ [getAddrpart start]).map (fun a => some (some a)) ++ [none, some none],
        l.length + 1, l.length + 2, mode.plain, []⟩ := by
  have hlen : (l.map fun a => some (some a) : List Cell).length = l.length := List.length_map _
  have hstore := @storeCell_append (l.map fun a => some (some a)) [some none] x
    (some (getAddrpart start))
  rw [hlen] at hstore
  have hcopy := copyCells_eq (l ++ [getAddrpart start]) [] [] (l.length + 3) (by simp)
  simp only [List.map_append, List.map_singleton, List.append_assoc, List.singleton_append,
    List.length_append, List.length_singleton, List.nil_append, List.length_nil, Nat.zero_add,
    Nat.add_sub_add_left] at hcopy
  have hnull : storeCell (l.map (fun a => some (some a)) ++
      [some (some (getAddrpart start)), none, none]) (l.length + 1 + 1) none =
      some (l.map (fun a => some (some a)) ++
        [some (some (getAddrpart start)), none, some none]) := by
    have := @storeCell_append (l.map (fun a => some (some a)) ++
      [some (some (getAddrpart start)), none]) [] none none
    simpa using this
  unfold comma
  dsimp only
  rw [hstore, Option.bind_some, hcopy, Option.bind_some]
  dsimp only
  rw [show (3 - 1 : Nat) = 2 from rfl, List.replicate_succ, List.replicate_one, hnull]
  simp

theorem divideLoop_eq : ∀ (s : Str) (l : List Str) (x : Cell) (mode : ListMode) (start : Str),
    divideLoop s ⟨l.map (fun a => some (some a)) ++ [x, some none], l.length, l.length + 1, mode,
        start⟩ =
      some (addressCells (l ++ (listPieces s mode start).map getAddrpart))
  | [], l, x, mode, start => by
    have hlen : (l.map fun a => some (some a) : List Cell).length = l.length := List.length_map _
    have hstore := @storeCell_append (l.map fun a => some (some a)) [some none] x
      (some (getAddrpart start))
    have hnull := @storeCell_append ((l ++ [getAddrpart start]).map fun a => some (some a)) []
      (some none) none
    rw [hlen] at hstore
    simp only [List.map_append, List.map_singleton, List.append_assoc, List.singleton_append,
      List.length_append, List.length_singleton, List.length_map] at hnull
    rw [divideLoop, hstore, Option.bind_some, hnull, addressCells, listPieces]
    simp
  | c :: s, l, x, mode, start => by
    rw [divideLoop, listPieces]
    by_cases hc : c = ch ',' ∧ mode = .n
    · have ih := divideLoop_eq s (l ++ [getAddrpart start]) none .n []
      rw [List.length_append, List.length_singleton] at ih
      rw [if_pos hc, if_pos hc, Divide.comma_eq, Option.bind_some, hc.2]
      refine ih.trans ?_
      rw [List.map_cons, List.append_assoc]
      rfl
    · rw [if_neg hc, if_neg hc]
      exact divideLoop_eq s l x (mode.next c) (start ++ [c])

theorem divideAddressList_cells (str : Str) :
    divideAddressList str = some (addressCells ((listPieces str .n []).map getAddrpart)) :=
  divideLoop_eq str [] (some none) .n []

/-- **The list is cut at its free commas.** Every value is some pieces with commas between them: all
but the last are closed, no comma of the last one stands behind a closed text, and the array holds
the addresses of the pieces and the null pointer. No access goes wrong on the way. -/
theorem divideAddressList_eq (str : Str) : ∃ pieces : List Str, pieces ≠ [] ∧
    [ch ','].intercalate pieces = str ∧ (∀ p ∈ pieces.dropLast, Closed p) ∧
    (∀ pre post, pieces.getLast? = some (pre ++ ch ',' :: post) → ¬ Closed pre) ∧
    divideAddressList str = some (addressCells (pieces.map getAddrpart)) := by
  obtain ⟨hne, hjoin, hclosed, hlast⟩ := listPieces_spec str [] .n rfl
  exact ⟨listPieces str .n [], hne, hjoin, hclosed, hlast, divideAddressList_cells str⟩

/-- **A folded list of addresses.** `get_to` finds each address, whatever commas stand in quoted
names, and wherever the value was folded. -/
theorem getTo_folded (l : FoldedLine) (ls : List FoldedLine) (hfine : ∀ x ∈ l :: ls, x.Fine)
    (hindent : ∀ x ∈ ls, x.indent ≠ []) {pieces : List Str} (hne : pieces ≠ [])
    (hclosed : ∀ p ∈ pieces, Closed p)
    (htext : (l :: ls).flatMap (·.text) = [ch ','].intercalate pieces) {next : Str}
    (hnext : next.head?.any isblank = false) :
    getTo (foldField (l :: ls) (LF :: next)) =
      some (addressCells (pieces.map getAddrpart), some next) := by
  have hfield := getField_fold (.inr ⟨next, rfl, hnext, rfl⟩) hfine hindent
  rw [getTo, hfield, Option.bind_some]
  dsimp only
  rw [htext, divideAddressList_cells, listPieces_intercalate hne hclosed]
  rfl

/-- A comma in a quoted name, and a folded line. -/
theorem getTo_folded_two : ∃ a b, getTo (bytes " \"A, B\" <a@x>,\n <b@x>\nSubject: s") =
    some ([some (some a), some (some b), some none], some (bytes "Subject: s")) := by
  have hname : Closed (bytes "\"A, B\" <a@x>") := closed_iff.2 (by decide)
  have haddr : Closed (bytes "<b@x>") := closed_iff.2 (by decide)
  have h := getTo_folded ⟨bytes " ", bytes "\"A, B\" <a@x>,", false⟩
    [⟨bytes " ", bytes "<b@x>", false⟩]
    (by
      intro x hx
      rcases List.mem_cons.1 hx with rfl | hx
      · exact ⟨List.all_eq_true.1 rfl, by decide, by decide, by decide⟩
      · obtain rfl := List.mem_singleton.1 hx
        exact ⟨List.all_eq_true.1 rfl, by decide, by decide, by decide⟩)
    (by simp [bytes]) (List.cons_ne_nil (bytes "\"A, B\" <a@x>") [bytes "<b@x>"])
    (List.forall_mem_cons.2 ⟨hname, List.forall_mem_singleton.2 haddr⟩) (by decide)
    (by decide : (bytes "Subject: s").head?.any isblank = false)
  exact ⟨_, _, h⟩

end Messasy
