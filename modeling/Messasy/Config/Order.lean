import Messasy.Config.Load
import Messasy.Lib.Keyed

/-!
# What a configuration file says

`read_config` stores while it reads, but each entry has its own place in the block
(`fullTable_apart`), so that lines of different entries commute. What `set_config` returns depends
on the values that each entry gets, in their order, and on whether a line names no entry
(`setConfig_order`): not on the order of the settings, the comments, the empty lines or the case of
the names.
-/

namespace Messasy

open Lib

/-- The first entry that a line names, and the value it gets. -/
def named : List Cfentry → Str → Option (Nat × Str)
  | [], _ => none
  | e :: cfe, line =>
    match keyValue e.cfName line with
    | some str => some (0, str)
    | none => (named cfe line).map fun p => (p.1 + 1, p.2)

/-- What a line does; `k` is the number of the first entry. -/
def Reading.take (env : ConfEnv) (table : List Cfentry) (k : Nat) (rd : Reading) :
    Option (Nat × Str) → Reading
  | none => { rd with error := rd.error + 1 }
  | some (i, str) =>
    match table[i]? with
    | some e => (rd.mark (k + i)).add e (e.cfType.read env str)
    | none => rd

/-- What the lines say that are neither comments nor empty. -/
def fileItems (table : List Cfentry) (lines : List Str) : List (Option (Nat × Str)) :=
  (lines.filter fun line => !skipped line).map (named table)

/-- The lines that name no entry. -/
def unknownLines (table : List Cfentry) (lines : List Str) : List Str :=
  lines.filter fun line => !skipped line && table.all fun e => keyValue e.cfName line = none

/-! ## A file is its items -/

section
variable {env : ConfEnv} {table : List Cfentry} {rd : Reading} {i : Nat} {e x : Cfentry}
  {line str : Str} {lines lines' : List Str}

theorem readEntry_eq (env : ConfEnv) (rd : Reading) (line : Str) : ∀ (table : List Cfentry)
    (k : Nat), readEntry env line rd k table = rd.take env table k (named table line)
  | [], _ => rfl
  | e :: table, k => by
    unfold readEntry named
    cases hv : keyValue e.cfName line with
    | some str => rfl
    | none =>
      simp only
      rw [readEntry_eq env rd line table (k + 1)]
      cases named table line with
      | none => rfl
      | some p =>
        simp only [Reading.take, Option.map_some, List.getElem?_cons_succ, Nat.add_assoc,
          Nat.add_comm 1]

theorem readLines_eq (env : ConfEnv) (table : List Cfentry) : ∀ (lines : List Str) (rd : Reading),
    readLines env table lines rd = (fileItems table lines).foldl (Reading.take env table 0) rd
  | [], _ => rfl
  | line :: lines, rd => by
    unfold readLines fileItems
    by_cases hs : skipped line = true
    · rw [if_pos hs, List.filter_cons_of_neg (by simp [hs])]
      exact readLines_eq env table lines rd
    · rw [if_neg hs, List.filter_cons_of_pos (by simp [hs]), List.map_cons, List.foldl_cons,
        ← readEntry_eq]
      exact readLines_eq env table lines _

/-! ## Lines of different entries commute -/

theorem Reading.mark_comm (rd : Reading) (i j : Nat) :
    (rd.mark i).mark j = (rd.mark j).mark i := by
  unfold mark
  congr 1
  funext k
  by_cases hi : k = i <;> by_cases hj : k = j <;> simp [hi, hj]

theorem Reading.mark_add (rd : Reading) (i : Nat) (e : Cfentry) (o : Outcome) :
    (rd.add e o).mark i = (rd.mark i).add e o := by
  cases o <;> rfl

theorem Reading.add_comm (h : e.extent.Disjoint x.extent) (rd : Reading) (o p : Outcome) :
    (rd.add e o).add x p = (rd.add x p).add e o := by
  cases o with
  | error => cases p <;> rfl
  | ignored => rfl
  | stored v =>
    cases p with
    | error => rfl
    | ignored => rfl
    | stored w =>
      unfold add
      simp only
      rw [Block.store_comm h]

/-- The entries of the table store at places of their own. -/
def Apart (table : List Cfentry) : Prop :=
  table.Pairwise fun e x => e.extent.Disjoint x.extent

theorem Apart.disjoint {j : Nat} (h : Apart table) (he : table[i]? = some e)
    (hx : table[j]? = some x) (hne : i ≠ j) : e.extent.Disjoint x.extent := by
  obtain ⟨hi, rfl⟩ := List.getElem?_eq_some_iff.1 he
  obtain ⟨hj, rfl⟩ := List.getElem?_eq_some_iff.1 hx
  rcases Nat.lt_or_gt_of_ne hne with hlt | hgt
  · exact List.pairwise_iff_getElem.1 h i j hi hj hlt
  · exact (List.pairwise_iff_getElem.1 h j i hj hi hgt).symm

theorem Apart.commute (h : Apart table) (env : ConfEnv) (k : Nat) :
    KeysCommute (Reading.take env table k) (Option.map Prod.fst) := by
  intro rd a b hne
  cases a with
  | none =>
    cases b with
    | none => exact absurd rfl hne
    | some q =>
      simp only [Reading.take]
      cases table[q.1]? with
      | none => rfl
      | some x =>
        simp only
        cases x.cfType.read env q.2 <;> rfl
  | some p =>
    cases b with
    | none =>
      simp only [Reading.take]
      cases table[p.1]? with
      | none => rfl
      | some e =>
        simp only
        cases e.cfType.read env p.2 <;> rfl
    | some q =>
      have hpq : p.1 ≠ q.1 := fun he => hne (congrArg some he)
      simp only [Reading.take]
      cases he : table[p.1]? with
      | none => rfl
      | some e =>
        cases hx : table[q.1]? with
        | none => rfl
        | some x =>
          simp only
          rw [Reading.mark_add, Reading.mark_comm, Reading.add_comm (h.disjoint he hx hpq),
            Reading.mark_add]

/-! ## The items of one entry -/

theorem named_eq_some {table : List Cfentry} {i : Nat} : named table line = some (i, str) ↔
    ∃ e, table[i]? = some e ∧ keyValue e.cfName line = some str ∧
      ∀ j < i, ∀ x, table[j]? = some x → keyValue x.cfName line = none := by
  induction table generalizing i with
  | nil =>
    constructor
    · intro h
      cases h
    · rintro ⟨e, he, -⟩
      cases he
  | cons x table ih =>
    unfold named
    cases hv : keyValue x.cfName line with
    | some v =>
      simp only [Option.some.injEq, Prod.mk.injEq]
      constructor
      · rintro ⟨rfl, rfl⟩
        exact ⟨x, rfl, hv, fun j hj => absurd hj (Nat.not_lt_zero j)⟩
      · rintro ⟨e, he, hstr, hfirst⟩
        cases i with
        | zero =>
          cases he
          exact ⟨rfl, Option.some.inj (hv.symm.trans hstr)⟩
        | succ i => cases hv.symm.trans (hfirst 0 (Nat.succ_pos i) x rfl)
    | none =>
      simp only [Option.map_eq_some_iff, Prod.mk.injEq, Prod.exists]
      constructor
      · rintro ⟨j, s, hj, rfl, rfl⟩
        obtain ⟨e, he, hstr, hfirst⟩ := ih.1 hj
        refine ⟨e, he, hstr, fun m hm y hy => ?_⟩
        cases m with
        | zero =>
          cases hy
          exact hv
        | succ m => exact hfirst m (Nat.lt_of_succ_lt_succ hm) y hy
      · rintro ⟨e, he, hstr, hfirst⟩
        cases i with
        | zero =>
          cases he
          cases hv.symm.trans hstr
        | succ i =>
          refine ⟨i, str, ih.2 ⟨e, he, hstr, fun m hm y hy => ?_⟩, rfl, rfl⟩
          exact hfirst (m + 1) (Nat.succ_lt_succ hm) y hy

/-- The letters' case in a name makes no difference. -/
theorem keyValue_congr {name name' : Str} (h : lower name = lower name') :
    keyValue name line = keyValue name' line := by
  apply Option.ext
  intro str
  simp only [keyValue_eq_some, h]

theorem named_eq_none : ∀ {table : List Cfentry},
    named table line = none ↔ ∀ e ∈ table, keyValue e.cfName line = none
  | [] => by simp [named]
  | e :: table => by
    unfold named
    rw [List.forall_mem_cons]
    cases keyValue e.cfName line with
    | some str => simp
    | none =>
      simp only [Option.map_eq_none_iff, true_and]
      exact named_eq_none

theorem none_mem_fileItems : none ∈ fileItems table lines ↔ unknownLines table lines ≠ [] := by
  unfold fileItems unknownLines
  rw [Ne, List.filter_eq_nil_iff, List.mem_map]
  constructor
  · rintro ⟨line, hline, hn⟩ hall
    obtain ⟨hmem, hs⟩ := List.mem_filter.1 hline
    have hnone := named_eq_none.1 hn
    apply hall line hmem
    rw [hs, Bool.true_and, List.all_eq_true]
    exact fun e he => decide_eq_true (hnone e he)
  · intro h
    by_contra hno
    refine h fun line hmem hline => hno ⟨line, ?_, ?_⟩
    · exact List.mem_filter.2 ⟨hmem, (Bool.and_eq_true_iff.1 hline).1⟩
    · apply named_eq_none.2
      intro e he
      exact of_decide_eq_true (List.all_eq_true.1 (Bool.and_eq_true_iff.1 hline).2 e he)

/-- An item of the entry `i` comes from a line whose first entry it is. -/
theorem named_of_item {item : Option (Nat × Str)} (hitem : item ∈ fileItems table lines)
    (hk : item.map Prod.fst = some i) : ∃ line str, named table line = some (i, str) := by
  obtain ⟨line, -, rfl⟩ := List.mem_map.1 hitem
  obtain ⟨⟨n, str⟩, hn, rfl⟩ := Option.map_eq_some_iff.1 hk
  exact ⟨line, str, hn⟩

/-- The items of an entry are the values of its name, or it has none because an entry in front of
it has the same name. -/
theorem items_of_entry (hplain : ∀ x ∈ table, ch '=' ∉ x.cfName) (he : table[i]? = some e) :
    (∀ lines, (fileItems table lines).filter (Option.map Prod.fst · = some i) =
      (values e.cfName lines).map fun str => some (i, str)) ∨
    ∀ lines, (fileItems table lines).filter (Option.map Prod.fst · = some i) = [] := by
  by_cases hsame : ∃ j < i, ∃ x, table[j]? = some x ∧ lower x.cfName = lower e.cfName
  · obtain ⟨j, hj, x, hx, hlower⟩ := hsame
    refine .inr fun lines => List.filter_eq_nil_iff.2 fun item hitem hk => ?_
    obtain ⟨line, str, hn⟩ := named_of_item hitem (of_decide_eq_true hk)
    obtain ⟨e', he', hstr, hfirst⟩ := named_eq_some.1 hn
    obtain rfl := Option.some.inj (he.symm.trans he')
    rw [← keyValue_congr hlower, hfirst j hj x hx] at hstr
    cases hstr
  · have hnamed : ∀ line str, named table line = some (i, str) ↔
        keyValue e.cfName line = some str := by
      intro line str
      rw [named_eq_some]
      constructor
      · rintro ⟨e', he', hstr, -⟩
        obtain rfl := Option.some.inj (he.symm.trans he')
        exact hstr
      · intro hstr
        refine ⟨e, he, hstr, fun j hj x hx => ?_⟩
        apply keyValue_unique (hplain e (List.mem_of_getElem? he))
          (hplain x (List.mem_of_getElem? hx))
        · exact fun hlower => hsame ⟨j, hj, x, hx, hlower.symm⟩
        · rw [hstr]
          exact Option.some_ne_none str
    refine .inl fun lines => ?_
    unfold fileItems values
    induction lines.filter fun line => !skipped line with
    | nil => rfl
    | cons line lines ih =>
      rw [List.map_cons]
      cases hv : keyValue e.cfName line with
      | some str =>
        rw [(hnamed line str).2 hv, List.filter_cons_of_pos (by simp),
          List.filterMap_cons_some hv, List.map_cons, ih]
      | none =>
        rw [List.filterMap_cons_none hv, List.filter_cons_of_neg, ih]
        intro hk
        obtain ⟨⟨n, str⟩, hn, rfl⟩ := Option.map_eq_some_iff.1 (of_decide_eq_true hk)
        cases hv.symm.trans ((hnamed line str).1 hn)

/-- An item with a value comes with the other lines as well, when these give every entry the same
values. -/
theorem item_mem_of_values (hplain : ∀ x ∈ table, ch '=' ∉ x.cfName)
    (hvalues : ∀ e ∈ table, values e.cfName lines = values e.cfName lines') {i : Nat}
    (h : some (i, str) ∈ fileItems table lines) : some (i, str) ∈ fileItems table lines' := by
  have hfilter : some (i, str) ∈
      (fileItems table lines).filter (Option.map Prod.fst · = some i) :=
    List.mem_filter.2 ⟨h, decide_eq_true rfl⟩
  obtain ⟨line, s, hn⟩ := named_of_item h rfl
  obtain ⟨e, he, -⟩ := named_eq_some.1 hn
  rcases items_of_entry hplain he with hitems | hitems
  · rw [hitems, hvalues e (List.mem_of_getElem? he), ← hitems] at hfilter
    exact (List.mem_filter.1 hfilter).1
  · rw [hitems] at hfilter
    cases hfilter

/-- What the check of an item's value writes fits. -/
def itemFits (env : ConfEnv) (table : List Cfentry) : Option (Nat × Str) → Bool
  | none => true
  | some (i, str) => (table[i]?).all fun e => e.cfType.fits env str

theorem checkFits_eq (env : ConfEnv) (line : Str) : ∀ table : List Cfentry,
    checkFits env table line = itemFits env table (named table line)
  | [] => rfl
  | e :: table => by
    unfold checkFits named
    cases keyValue e.cfName line with
    | some str => rfl
    | none =>
      simp only
      rw [checkFits_eq env line table]
      cases named table line with
      | none => rfl
      | some p => simp only [itemFits, Option.map_some, List.getElem?_cons_succ]

/-- Lines that give every entry the same values have the same checks. -/
theorem checksFit_congr (hplain : ∀ x ∈ table, ch '=' ∉ x.cfName)
    (hvalues : ∀ e ∈ table, values e.cfName lines = values e.cfName lines') :
    checksFit env table lines = checksFit env table lines' := by
  have hfits : ∀ lines, checksFit env table lines = (fileItems table lines).all
      (itemFits env table) := by
    intro lines
    unfold checksFit fileItems
    rw [List.all_map]
    exact congrArg _ (funext fun line => checkFits_eq env line table)
  have hmono : ∀ {lines lines' : List Str},
      (∀ e ∈ table, values e.cfName lines = values e.cfName lines') →
      (fileItems table lines').all (itemFits env table) = true →
      (fileItems table lines).all (itemFits env table) = true := by
    intro lines lines' hvalues h
    refine List.all_eq_true.2 fun item hitem => ?_
    cases item with
    | none => rfl
    | some p => exact List.all_eq_true.1 h _ (item_mem_of_values hplain hvalues hitem)
  rw [hfits, hfits, Bool.eq_iff_iff]
  exact ⟨hmono fun e he => (hvalues e he).symm, hmono hvalues⟩

theorem items_outside (hi : table[i]? = none) :
    (fileItems table lines).filter (Option.map Prod.fst · = some i) = [] := by
  refine List.filter_eq_nil_iff.2 fun item hitem hk => ?_
  obtain ⟨line, str, hn⟩ := named_of_item hitem (of_decide_eq_true hk)
  obtain ⟨e, he, -⟩ := named_eq_some.1 hn
  cases hi.symm.trans he

/-! ## `read_config` -/

theorem Reading.take_error_le (env : ConfEnv) (table : List Cfentry) (k : Nat) (rd : Reading)
    (item : Option (Nat × Str)) : rd.error ≤ (rd.take env table k item).error := by
  cases item with
  | none => exact Nat.le_succ rd.error
  | some p =>
    simp only [Reading.take]
    cases table[p.1]? with
    | none => exact Nat.le_refl rd.error
    | some e => exact (rd.mark (k + p.1)).add_error_le e _

theorem foldl_take_error_le (env : ConfEnv) (table : List Cfentry) :
    ∀ (items : List (Option (Nat × Str))) (rd : Reading),
      rd.error ≤ (items.foldl (Reading.take env table 0) rd).error
  | [], rd => Nat.le_refl rd.error
  | item :: items, rd =>
    Nat.le_trans (rd.take_error_le env table 0 item) (foldl_take_error_le env table items _)

/-- A line that names no entry is an error. -/
theorem readLines_unknown (h : unknownLines table lines ≠ []) :
    0 < (readLines env table lines rd).error := by
  obtain ⟨before, behind, hitems⟩ := List.append_of_mem (none_mem_fileItems.2 h)
  rw [readLines_eq, hitems, List.foldl_append, List.foldl_cons]
  apply Nat.lt_of_lt_of_le _ (foldl_take_error_le env table behind _)
  exact Nat.succ_pos _

/-- Lines that give every entry the same values come to the same, when no line is unknown. -/
theorem readLines_congr (hapart : Apart table) (hplain : ∀ x ∈ table, ch '=' ∉ x.cfName)
    (hvalues : ∀ e ∈ table, values e.cfName lines = values e.cfName lines')
    (hunknown : unknownLines table lines = []) (hunknown' : unknownLines table lines' = []) :
    readLines env table lines rd = readLines env table lines' rd := by
  rw [readLines_eq, readLines_eq]
  apply foldl_congr_of_keys (hapart.commute env 0)
  intro k
  cases k with
  | none =>
    have hnone : ∀ {lines : List Str}, unknownLines table lines = [] →
        (fileItems table lines).filter (Option.map Prod.fst · = none) = [] := by
      intro lines h
      refine List.filter_eq_nil_iff.2 fun item hitem hk => ?_
      rw [Option.map_eq_none_iff.1 (of_decide_eq_true hk)] at hitem
      exact none_mem_fileItems.1 hitem h
    rw [hnone hunknown, hnone hunknown']
  | some i =>
    cases he : table[i]? with
    | none => rw [items_outside he, items_outside he]
    | some e =>
      rcases items_of_entry hplain he with h | h
      · rw [h, h, hvalues e (List.mem_of_getElem? he)]
      · rw [h, h]

end

/-! ## The table of `set_config` -/

/-- Where a module's entry stores, with its region at `start`. -/
theorem Lm.entry_extent {m : Lm} {d : EntryDecl LmMember} (hd : d ∈ m.cfe) (start : Nat) :
    Cfentry.extent { d.cfentry memberCtype m.members with
      cfDataoffset := (d.cfentry memberCtype m.members).cfDataoffset + start } =
      (m.extent d.member).shift start := by
  have hmem : d.member ∈ m.members := m.cfe_members ▸ List.mem_map_of_mem hd
  have hw : (m.extent d.member).width = d.cfType.ctype.size := by
    rw [(Lm.extent_inside hmem).2, m.cfe_width d hd]
    rfl
  show (⟨(m.extent d.member).start + start, d.cfType.ctype.size⟩ : Extent) = _
  rw [Nat.add_comm, ← hw]
  rfl

theorem Lm.tableAt_apart (m : Lm) (start : Nat) : Apart (m.tableAt start) := by
  have hn : (m.cfe.map (·.member)).Nodup := by
    cases m <;> decide +kernel
  have hne : m.cfe.Pairwise fun d d' => d.member ≠ d'.member := List.pairwise_map.1 hn
  have hin : ∀ {d}, d ∈ m.cfe → d.member ∈ m.members :=
    fun hd => m.cfe_members ▸ List.mem_map_of_mem hd
  unfold Apart Lm.tableAt Lm.table
  rw [List.pairwise_map, List.pairwise_map]
  refine hne.imp_of_mem fun {d d'} hd hd' h => ?_
  rw [Lm.entry_extent hd, Lm.entry_extent hd']
  exact (memberExtent_disjoint memberCtype_align_pos (hin hd) (hin hd') h).shift start

theorem coreTable_apart : Apart coreTable := by
  have hne : Messasy.cfe.Pairwise fun d d' => d.member ≠ d'.member :=
    List.pairwise_map.1 cfe_members
  unfold Apart coreTable
  rw [List.pairwise_map]
  refine hne.imp_of_mem fun {d d'} hd hd' h => ?_
  show d.core.extent.Disjoint d'.core.extent
  rw [EntryDecl.core_extent hd, EntryDecl.core_extent hd']
  exact memberExtent_disjoint ctype_align_pos d.member.mem_all d'.member.mem_all h

/-- Whatever the modules are, every entry has a place of its own. -/
theorem fullTable_apart (mods : List Lm) : Apart (fullTable mods) := by
  unfold Apart fullTable
  rw [List.pairwise_append]
  refine ⟨coreTable_apart, ?_, fun e he x hx => ?_⟩
  · rw [List.pairwise_flatMap]
    refine ⟨fun r _ => r.1.tableAt_apart r.2.start, ?_⟩
    refine (regions_disjoint mods sizeofConfig).imp_of_mem fun {r r'} hr hr' h e he x hx => ?_
    obtain ⟨d, -, -, -, -, hmem, hextent⟩ := Lm.tableAt_extent he
    obtain ⟨d', -, -, -, -, hmem', hextent'⟩ := Lm.tableAt_extent hx
    rw [hextent, hextent']
    exact h.inside (Member.At.inside_region hr hmem) (Member.At.inside_region hr' hmem')
  · obtain ⟨d, -, -, -, -, hextent⟩ := coreTable_extent he
    rw [hextent]
    exact (fullTable_rest hx d.member).symm

theorem Lm.cfe_plain (m : Lm) : ∀ d ∈ m.cfe, ch '=' ∉ d.cfName := by
  cases m <;> decide +kernel

theorem fullTable_plain (mods : List Lm) : ∀ e ∈ fullTable mods, ch '=' ∉ e.cfName := by
  intro e he
  rcases List.mem_append.1 he with he | he
  · obtain ⟨d, hd, hname, -⟩ := coreTable_extent he
    rw [hname]
    exact cfe_plain d hd
  · obtain ⟨r, -, he⟩ := List.mem_flatMap.1 he
    obtain ⟨d, hd, hname, -⟩ := Lm.tableAt_extent he
    rw [hname]
    exact r.1.cfe_plain d hd

/-! ## `set_config` -/

/-- Two files that say the same: they are read to the same end, every entry gets the same values,
and both or none have a line that names no entry. -/
structure SaysAlike (table : List Cfentry) (text text' : Str) : Prop where
  whole : (configLines [] text).2 = (configLines [] text').2
  values : ∀ e ∈ table, values e.cfName (configLines [] text).1 =
    values e.cfName (configLines [] text').1
  unknown : unknownLines table (configLines [] text).1 = [] ↔
    unknownLines table (configLines [] text').1 = []

section
variable {P : Type} {env : ConfEnv} {table : List Cfentry} {text text' : Str}
  {data : Block CfValue}

theorem readConfig_overflow (h : checksFit env table (configLines [] text).1 = false) :
    readConfig env (some text) table data = none := by
  simp only [readConfig, h, Bool.false_eq_true, if_false]

section
variable (hfits : checksFit env table (configLines [] text).1 = true)
include hfits

theorem readConfig_unread (h : (configLines [] text).2 = false) :
    ∃ block, readConfig env (some text) table data = some (-2, block) := by
  simp only [readConfig, hfits, h, Bool.false_eq_true, if_false, if_true]
  exact ⟨_, rfl⟩

theorem readConfig_whole (h : (configLines [] text).2 = true) :
    readConfig env (some text) table data =
      some (↑(setDefaults (readLines env table (configLines [] text).1
          ⟨fun _ => false, data, 0⟩) 0 table).error,
        (setDefaults (readLines env table (configLines [] text).1
          ⟨fun _ => false, data, 0⟩) 0 table).data) := by
  simp only [readConfig, hfits, h, if_true]

/-- A line that names no entry makes `read_config` count an error. -/
theorem readConfig_unknown (h : unknownLines table (configLines [] text).1 ≠ []) :
    ∃ ret block, readConfig env (some text) table data = some (ret, block) ∧ ret ≠ 0 := by
  cases hend : (configLines [] text).2 with
  | false =>
    obtain ⟨block, hread⟩ := readConfig_unread hfits hend
    exact ⟨-2, block, hread, by decide⟩
  | true =>
    refine ⟨_, _, readConfig_whole hfits hend, ?_⟩
    have hpos : 0 < (readLines env table (configLines [] text).1 ⟨fun _ => false, data, 0⟩).error :=
      readLines_unknown h
    have hle := setDefaults_error_le table (readLines env table (configLines [] text).1
      ⟨fun _ => false, data, 0⟩) 0
    omega

end

theorem readData_refused {file : Option Str} {cfg : ConfigData P} {ret : Int}
    {block : Block CfValue} (h : readConfig env file table cfg.block = some (ret, block))
    (hret : ret ≠ 0) : readData env file table cfg = .error .error := by
  unfold readData
  rw [h]
  split
  case h_1 => contradiction
  case h_2 hread =>
    cases hread
    exact absurd rfl hret
  case h_3 => rfl

/-- Both are refused, or `read_config` leaves the same block. -/
theorem SaysAlike.readData_eq (h : SaysAlike table text text') (hapart : Apart table)
    (hplain : ∀ x ∈ table, ch '=' ∉ x.cfName) (cfg : ConfigData P) :
    readData env (some text) table cfg = readData env (some text') table cfg := by
  have hsame := @checksFit_congr env _ _ _ hplain h.values
  cases hfits : checksFit env table (configLines [] text).1 with
  | false =>
    unfold readData
    rw [readConfig_overflow hfits, readConfig_overflow (hsame ▸ hfits)]
  | true =>
    have hfits' := hsame ▸ hfits
    cases hend : (configLines [] text).2 with
    | false =>
      obtain ⟨block, hread⟩ := @readConfig_unread _ _ _ cfg.block hfits hend
      obtain ⟨block', hread'⟩ := @readConfig_unread _ _ _ cfg.block hfits' (h.whole ▸ hend)
      rw [readData_refused hread (by decide), readData_refused hread' (by decide)]
    | true =>
      by_cases hu : unknownLines table (configLines [] text).1 = []
      · unfold readData
        rw [readConfig_whole hfits hend, readConfig_whole hfits' (h.whole ▸ hend),
          readLines_congr hapart hplain h.values hu (h.unknown.1 hu)]
      · obtain ⟨ret, block, hread, hret⟩ := @readConfig_unknown _ _ _ cfg.block hfits hu
        obtain ⟨ret', block', hread', hret'⟩ := @readConfig_unknown _ _ _ cfg.block hfits'
          (mt h.unknown.2 hu)
        rw [readData_refused hread hret, readData_refused hread' hret']

/-- **What a file says**: two files that say the same are the same to `set_config`, with the
configuration and its block, the log and the faults. -/
theorem setConfig_order {ld : Loader P} {log : LogState}
    (h : SaysAlike (fullTable ld.mhandleList) text text') :
    setConfig ld (some text) log = setConfig ld (some text') log := by
  have hload : loadConfig ld (some text) = loadConfig ld (some text') := by
    unfold loadConfig
    cases hst : msyModuleInit ld.dlsym ld.addr ld.mhandleList (initState P) with
    | none => rfl
    | some st =>
      have hdata : readData ld.env (some text) (fullTable ld.mhandleList) st.cfg =
          readData ld.env (some text') (fullTable ld.mhandleList) st.cfg :=
        h.readData_eq (fullTable_apart ld.mhandleList) (fullTable_plain ld.mhandleList) st.cfg
      have hentries : orNull (entries (st.cfe.take (st.cfesize / sizeofCfentry))) =
          .ok (fullTable ld.mhandleList) := orNull_eq_ok.2 (entries_table hst)
      show (orNull (entries (st.cfe.take (st.cfesize / sizeofCfentry))) >>= _) =
        (orNull (entries (st.cfe.take (st.cfesize / sizeofCfentry))) >>= _)
      rw [hentries]
      show (readData ld.env (some text) (fullTable ld.mhandleList) st.cfg >>= _) =
        (readData ld.env (some text') (fullTable ld.mhandleList) st.cfg >>= _)
      rw [hdata]
  unfold setConfig
  rw [hload]

end

/-- The mandatory lines in another order, with a comment, an empty line and other letters. -/
def otherText : Str :=
  exampleText ["# messasy", "SAVEMAILADDRESS=@a.jp", "", "mydomain=a.jp", "AdminPassword=secret"]

theorem setConfig_order_plain : setConfig exampleLoader (some plainText) ⟨.LOG, none⟩ =
    setConfig exampleLoader (some otherText) ⟨.LOG, none⟩ := by
  apply setConfig_order
  refine ⟨by decide +kernel, ?_, by decide +kernel⟩
  show ∀ e ∈ coreTable, _
  decide +kernel

end Messasy
