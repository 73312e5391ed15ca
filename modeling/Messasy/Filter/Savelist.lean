import Messasy.Filter.Spec

/-!
# `make_savelist` meets its specification

`Sorted h0 st S L`: `st`'s two lists hold the nodes `S` and `L`, share no node with each other or
with the heap `h0` at the start, that heap's cells are as they were, and besides them only the
nodes of the two lists are live. `judge_mail` keeps it
(`judgeMail_eq`), so the recipient loop does (`judgeRcpts_eq`); the search loop then moves the
found nodes over (`checkLdapLoop_eq`).
-/

namespace Messasy

open Lib

/-- The two lists under construction, apart from each other and from the heap at the start. -/
structure Sorted (h0 : StrHeap) (st : Lists) (S L : List (Nat × Str)) : Prop where
  save : Queue st.heap st.savelistH st.savelistT S
  ldap : Queue st.heap st.ldaplistH st.ldaplistT L
  disj : ∀ q ∈ ids S, q ∉ ids L
  fresh : ∀ q ∈ ids S ++ ids L, h0.next ≤ q
  old : ∀ q < h0.next, st.heap.cell q = h0.cell q
  grown : h0.next ≤ st.heap.next
  owned : ∀ q, h0.next ≤ q → st.heap.cell q ≠ none → q ∈ ids S ++ ids L

theorem Sorted.start (h0 : StrHeap) (tail : Option Nat) :
    Sorted h0 ⟨h0, none, tail, none, none⟩ [] [] :=
  ⟨Queue.nil _ _, Queue.nil _ _, by simp, by simp, fun _ _ => rfl, Nat.le_refl _,
    fun q hq hlive => absurd (h0.bound q hq) hlive⟩

/-! ## Sorting the candidates -/

section
variable {h0 : StrHeap} {st : Lists} {S L : List (Nat × Str)}

theorem Sorted.pushSave (hs : Sorted h0 st S L) (a : Str) :
    ∃ heap hd tl, pushStrlist st.heap st.savelistH st.savelistT a = some (heap, hd, tl) ∧
      Sorted h0 { st with heap, savelistH := hd, savelistT := tl } (S ++ [(st.heap.next, a)]) L := by
  obtain ⟨heap, hd, tl, he, hq, hn, hsame⟩ := pushStrlist_eq hs.save a
  have hltL := hs.ldap.chain.id_lt
  have hgrown := hs.grown
  refine ⟨heap, hd, tl, he, hq, hs.ldap.frame fun q hm => ?_, fun q hm => ?_, fun q hm => ?_,
    fun q hlt => ?_, by simp only [hn]; omega, fun q hq hlive => ?_⟩
  · exact hsame q (hltL q hm) fun hS => hs.disj q hS hm
  · rcases List.mem_append.1 (ids_append S _ ▸ hm) with hm | hm
    · exact hs.disj q hm
    · intro hL
      have := hltL q hL
      simp at hm
      omega
  · simp only [ids_append, ids_cons, ids_nil, List.mem_append, List.mem_singleton] at hm
    rcases hm with (hm | rfl) | hm
    · exact hs.fresh q (List.mem_append_left _ hm)
    · exact hgrown
    · exact hs.fresh q (List.mem_append_right _ hm)
  · have hnot : q ∉ ids S := fun hS => by
      have := hs.fresh q (List.mem_append_left _ hS)
      omega
    exact (hsame q (by omega) hnot).trans (hs.old q hlt)
  · by_cases hS : q ∈ ids S
    · simp [hS]
    rcases Nat.lt_trichotomy q st.heap.next with hlt | rfl | hgt
    · have hin := hs.owned q hq (hsame q hlt hS ▸ hlive)
      rw [List.mem_append] at hin
      simp [hin.resolve_left hS]
    · simp
    · exact absurd (heap.bound q (by omega)) hlive

/-- The two lists play the same part in the invariant. -/
theorem Sorted.swap (hs : Sorted h0 st S L) :
    Sorted h0 ⟨st.heap, st.ldaplistH, st.ldaplistT, st.savelistH, st.savelistT⟩ L S :=
  ⟨hs.ldap, hs.save, fun q hL hS => hs.disj q hS hL, fun q hm => hs.fresh q (by
    rw [List.mem_append] at hm ⊢; exact hm.symm), hs.old, hs.grown, fun q hq hlive => by
    have hin := hs.owned q hq hlive
    rw [List.mem_append] at hin ⊢; exact hin.symm⟩

theorem Sorted.pushLdap (hs : Sorted h0 st S L) (a : Str) :
    ∃ heap hd tl, pushStrlist st.heap st.ldaplistH st.ldaplistT a = some (heap, hd, tl) ∧
      Sorted h0 { st with heap, ldaplistH := hd, ldaplistT := tl } S (L ++ [(st.heap.next, a)]) := by
  obtain ⟨heap, hd, tl, he, hq⟩ := hs.swap.pushSave a
  exact ⟨heap, hd, tl, he, hq.swap⟩

/-- **`judge_mail`** sends the address the way `route` says. -/
theorem judgeMail_eq (hs : Sorted h0 st S L) (cfg : Settings) {a : Str} (ha : ch '@' ∈ a) :
    ∃ st' S' L', judgeMail a st cfg = some (.success, st') ∧ Sorted h0 st' S' L' ∧
      vals S' = vals S ++ routed cfg .save [a] ∧ vals L' = vals L ++ routed cfg .ldap [a] := by
  unfold judgeMail
  rw [checkDomain_eq cfg ha, checkMailaddress_eq cfg ha]
  by_cases hc : Considered cfg a
  · by_cases hd : Direct cfg a
    · obtain ⟨heap, hd', tl, he, hs'⟩ := hs.pushSave a
      refine ⟨_, _, _, ?_, hs', ?_, ?_⟩
      · simp only [hc, hd, if_true, he, Option.map_some]
      · simp [routed, route, hc, hd]
      · simp [routed, route, hc, hd]
    · by_cases hl : cfg.cfLdapcheck = 1
      · obtain ⟨heap, hd', tl, he, hs'⟩ := hs.pushLdap a
        refine ⟨_, _, _, ?_, hs', ?_, ?_⟩
        · simp only [hc, hd, hl, if_true, if_false, he, Option.map_some]
        · simp [routed, route, hc, hd, hl]
        · simp [routed, route, hc, hd, hl]
      · refine ⟨st, S, L, ?_, hs, ?_, ?_⟩
        · simp only [hc, hd, hl, if_true, if_false]
        · simp [routed, route, hc, hd, hl]
        · simp [routed, route, hc, hd, hl]
  · refine ⟨st, S, L, ?_, hs, ?_, ?_⟩
    · simp only [hc, if_false]
    · simp [routed, route, hc]
    · simp [routed, route, hc]

theorem routed_append (cfg : Settings) (r : Route) (l m : List Str) :
    routed cfg r (l ++ m) = routed cfg r l ++ routed cfg r m :=
  List.filter_append ..

/-- The recipient loop: the list it walks lies in the heap at the start, so it does not change. -/
theorem judgeRcpts_eq (cfg : Settings) : ∀ {k : Nat} {p : Option Nat} {l : List (Nat × Str)}
    {st : Lists} {S L : List (Nat × Str)}, Sorted h0 st S L → Chain h0 p l → l.length ≤ k →
    ∃ st' S' L', judgeRcpts cfg k p st = some (.success, st') ∧ Sorted h0 st' S' L' ∧
      vals S' = vals S ++ routed cfg .save ((vals l).map (complementAddress · cfg)) ∧
      vals L' = vals L ++ routed cfg .ldap ((vals l).map (complementAddress · cfg))
  | k, _, [], st, S, L, hs, hc, _ => by
    cases hc
    exact ⟨st, S, L, by cases k <;> rfl, hs, by simp [routed], by simp [routed]⟩
  | 0, _, _ :: _, _, _, _, _, _, hk => absurd hk (by simp)
  | k + 1, _, x :: l, st, S, L, hs, ⟨hx, nx, hcx, hl⟩, hk => by
    subst hx
    have hlt := Arena.lt_next hcx
    have hnode := (hs.old _ hlt).trans hcx
    obtain ⟨st1, S1, L1, he, hs1, hS1, hL1⟩ :=
      judgeMail_eq hs cfg (mem_complementAddress x.2 cfg)
    obtain ⟨st2, S2, L2, he2, hs2, hS2, hL2⟩ :=
      judgeRcpts_eq cfg hs1 hl (Nat.le_of_succ_le_succ hk)
    refine ⟨st2, S2, L2, ?_, hs2, ?_, ?_⟩
    · have hnode1 := (hs1.old _ hlt).trans hcx
      simp only [judgeRcpts, hnode, he, hnode1, Option.bind_some, he2]
    · rw [hS2, hS1, List.append_assoc, ← routed_append]; rfl
    · rw [hL2, hL1, List.append_assoc, ← routed_append]; rfl

end

/-! ## The directory search -/

/-- A directory that answers every request. -/
def Ldap.answering (answer : Nat → Str → Nat) : Ldap :=
  ⟨true, true, true, fun i filter => some (answer i filter)⟩

section
variable {h0 heap : StrHeap} {sh stl list lt : Option Nat} {S L : List (Nat × Str)} {x : Nat × Str}

/-- The first node of the LDAP list goes behind the save list. -/
theorem Sorted.move (hs : Sorted h0 ⟨heap, sh, stl, list, lt⟩ S (x :: L)) :
    ∃ nx heap' hd tl, list = some x.1 ∧ heap.cell x.1 = some ⟨x.2, nx⟩ ∧
      attachStrlist heap sh stl x.1 = some (heap', hd, tl) ∧
      Sorted h0 ⟨heap', hd, tl, nx, lt⟩ (S ++ [x]) L := by
  obtain ⟨hx, nx, hcx, hq⟩ := hs.ldap.tail
  have hnotS : x.1 ∉ ids S := fun hS => hs.disj _ hS List.mem_cons_self
  have hnotL : x.1 ∉ ids L := (List.nodup_cons.1 hs.ldap.chain.nodup).1
  obtain ⟨heap', hd, tl, he, hq', hn, hsame⟩ := attachStrlist_eq hs.save hcx hnotS
  have hdisj : ∀ q ∈ ids L, q ∉ ids S := fun q hL hS => hs.disj q hS (List.mem_cons_of_mem _ hL)
  refine ⟨nx, heap', hd, tl, hx, hcx, he, hq', hq.frame fun q hm => ?_, fun q hm hL => ?_,
    fun q hm => hs.fresh q ?_, fun q hlt => ?_, hn ▸ hs.grown, fun q hq hlive => ?_⟩
  · exact hsame q (fun e => hnotL (e ▸ hm)) (hdisj q hm)
  · simp only [ids_append, ids_cons, ids_nil, List.mem_append, List.mem_singleton] at hm
    rcases hm with hm | rfl
    · exact hdisj q hL hm
    · exact hnotL hL
  · rw [ids_append, List.append_assoc] at hm
    exact hm
  · have hold : ∀ r ∈ ids S ++ ids (x :: L), q ≠ r := fun r hr e => by
      have := hs.fresh r hr
      omega
    refine (hsame q (hold _ (by simp)) fun hS => ?_).trans (hs.old q hlt)
    exact hold q (List.mem_append_left _ hS) rfl
  · by_cases hqx : q = x.1
    · simp [hqx]
    by_cases hS : q ∈ ids S
    · simp [hS]
    have hin := hs.owned q hq (hsame q hqx hS ▸ hlive)
    simp only [ids_cons, List.mem_append, List.mem_cons, hS, hqx, false_or] at hin
    simp [hin]

/-- The first node of the LDAP list is freed. -/
theorem Sorted.discard (hs : Sorted h0 ⟨heap, sh, stl, list, lt⟩ S (x :: L)) :
    ∃ nx heap', list = some x.1 ∧ heap.cell x.1 = some ⟨x.2, nx⟩ ∧
      heap.free x.1 = some heap' ∧ Sorted h0 ⟨heap', sh, stl, nx, lt⟩ S L := by
  obtain ⟨hx, nx, hcx, hq⟩ := hs.ldap.tail
  have hnotS : x.1 ∉ ids S := fun hS => hs.disj _ hS List.mem_cons_self
  have hnotL : x.1 ∉ ids L := (List.nodup_cons.1 hs.ldap.chain.nodup).1
  have hx0 : h0.next ≤ x.1 := hs.fresh _ (by simp)
  refine ⟨nx, heap.drop x.1, hx, hcx, Arena.free_of_live hcx,
    hs.save.frame fun q hm => Arena.cell_drop_of_ne fun e => hnotS (e ▸ hm),
    hq.frame fun q hm => Arena.cell_drop_of_ne fun e => hnotL (e ▸ hm),
    fun q hS hL => hs.disj q hS (List.mem_cons_of_mem _ hL), fun q hm => hs.fresh q ?_,
    fun q hlt => ?_, hs.grown, fun q hq hlive => ?_⟩
  · simp only [ids_cons, List.mem_append, List.mem_cons] at hm ⊢
    exact hm.elim .inl fun h => .inr (.inr h)
  · rw [Arena.cell_drop_of_ne (by omega)]
    exact hs.old q hlt
  · have hqx : q ≠ x.1 := by
      rintro rfl
      exact hlive (Arena.cell_drop_self heap x.1)
    have hin := hs.owned q hq (Arena.cell_drop_of_ne hqx ▸ hlive)
    simp only [ids_cons, List.mem_append, List.mem_cons, hqx, false_or] at hin
    exact List.mem_append.2 hin

/-- A node that an answered search is through with: freed, or on the save list. -/
def Spent (st : Lists) (S : List (Nat × Str)) (q : Nat) : Prop :=
  st.heap.cell q = none ∨ q ∈ ids S

/-- **One answered search**: the node is moved behind the save list or freed. The invariant reads
`list` as the head of what is left of the LDAP list. -/
theorem checkLdapLoop_answered {cfg : Settings} {template : Str}
    (ht : cfg.cfLdapmailfilter = some template) {ldap : Ldap} {k i count : Nat} {st : Lists}
    {M : List (Nat × Str)} (hs : Sorted h0 { st with ldaplistH := list } S (x :: M))
    (hsearch : ldap.search i (ldapFilter template x.2) = some count) :
    ∃ st1 nx S1, checkLdapLoop cfg ldap (k + 1) i list st = checkLdapLoop cfg ldap k (i + 1) nx st1 ∧
      Sorted h0 { st1 with ldaplistH := nx } S1 M ∧ st1.ldaplistH = st.ldaplistH ∧
      vals S1 = vals S ++ (if count ≠ 0 then [x.2] else []) ∧ Spent st1 S1 x.1 ∧
      ∀ q, Spent st S q → Spent st1 S1 q := by
  by_cases hc : count ≠ 0
  · obtain ⟨nx, heap, hd, tl, rfl, hcx, he, hs1⟩ := hs.move
    refine ⟨⟨heap, hd, tl, st.ldaplistH, st.ldaplistT⟩, nx, S ++ [x], ?_, hs1, rfl, by simp [hc],
      .inr (by simp), fun q hq => ?_⟩
    · simp only [checkLdapLoop, ht, hcx, hsearch, if_pos hc, he]
    · rcases hq with hdead | hmem
      · exact .inl (attachStrlist_dead he hdead)
      · exact .inr (by simp [hmem])
  · obtain ⟨nx, heap, rfl, hcx, he, hs1⟩ := hs.discard
    obtain ⟨n, -, hn⟩ := Option.map_eq_some_iff.1 he
    refine ⟨{ st with heap }, nx, S, ?_, hs1, rfl, by simp [hc], .inl ?_, fun q hq => ?_⟩
    · simp only [checkLdapLoop, ht, hcx, hsearch, if_neg hc, he]
    · simp only [← hn, Arena.cell_drop_self]
    · rcases hq with hdead | hmem
      · exact .inl (by rw [← hn]; exact Arena.cell_drop_dead hdead)
      · exact .inr hmem

/-- **The search loop**, when every search is answered: the known addresses go behind the save
list. -/
theorem checkLdapLoop_eq {cfg : Settings} {template : Str}
    (ht : cfg.cfLdapmailfilter = some template) (ldap : Ldap) :
    ∀ {k : Nat} (i : Nat) {list : Option Nat} (st : Lists) {S M : List (Nat × Str)}
      {found : List Str}, Sorted h0 { st with ldaplistH := list } S M → M.length ≤ k →
      searched template ldap.search i (vals M) = some found →
      ∃ st' S', checkLdapLoop cfg ldap k i list st = some (.success, st') ∧
        Sorted h0 { st' with ldaplistH := none } S' [] ∧ vals S' = vals S ++ found
  | k, i, list, st, S, [], found, hs, _, hf => by
    obtain rfl : list = none := hs.ldap.chain
    cases hf
    exact ⟨st, S, by cases k <;> rfl, hs, by simp⟩
  | 0, _, _, _, _, _ :: _, _, _, hk, _ => absurd hk (by simp)
  | k + 1, i, list, st, S, x :: M, found, hs, hk, hf => by
    simp only [vals_cons, searched] at hf
    cases hsearch : ldap.search i (ldapFilter template x.2) with
    | none => simp [hsearch] at hf
    | some count =>
      simp only [hsearch, Option.map_eq_some_iff] at hf
      obtain ⟨rest, hrest, rfl⟩ := hf
      obtain ⟨st1, nx, S1, he, hs1, -, hS1, -⟩ := checkLdapLoop_answered ht hs hsearch
      obtain ⟨st', S', he', hs', hS'⟩ :=
        checkLdapLoop_eq ht ldap (i + 1) st1 hs1 (Nat.le_of_succ_le_succ hk) hrest
      exact ⟨st', S', he.trans he', hs', by rw [hS', hS1]; split <;> simp⟩

/-- **The search loop**, when a search fails: spent nodes stay spent. -/
theorem checkLdapLoop_failed {cfg : Settings} {template : Str}
    (ht : cfg.cfLdapmailfilter = some template) (ldap : Ldap) {q : Nat} :
    ∀ {k : Nat} (i : Nat) {list : Option Nat} (st : Lists) {S M : List (Nat × Str)},
      Sorted h0 { st with ldaplistH := list } S M → M.length ≤ k →
      searched template ldap.search i (vals M) = none → Spent st S q →
      ∃ st' list' S' M', checkLdapLoop cfg ldap k i list st = some (.error, st') ∧
        Sorted h0 { st' with ldaplistH := list' } S' M' ∧ st'.ldaplistH = st.ldaplistH ∧
        Spent st' S' q
  | _, _, _, _, _, [], _, _, hf, _ => by cases hf
  | 0, _, _, _, _, _ :: _, _, hk, _, _ => absurd hk (by simp)
  | k + 1, i, list, st, S, x :: M, hs, hk, hf, hsp => by
    simp only [vals_cons, searched] at hf
    cases hsearch : ldap.search i (ldapFilter template x.2) with
    | none =>
      obtain ⟨rfl, nx, hcx, -⟩ := hs.ldap.tail
      have hcx : st.heap.cell x.1 = some ⟨x.2, nx⟩ := hcx
      exact ⟨st, _, S, x :: M, by simp only [checkLdapLoop, ht, hcx, hsearch], hs, rfl, hsp⟩
    | some count =>
      simp only [hsearch, Option.map_eq_none_iff] at hf
      obtain ⟨st1, nx, S1, he, hs1, hl1, -, -, hkeep⟩ := checkLdapLoop_answered ht hs hsearch
      obtain ⟨st', list', S', M', he', hs', hl', hsp'⟩ := checkLdapLoop_failed ht ldap (i + 1) st1
        hs1 (Nat.le_of_succ_le_succ hk) hf (hkeep q hsp)
      exact ⟨st', list', S', M', he.trans he', hs', hl'.trans hl1, hsp'⟩

end

/-! ## The whole filter -/

section
variable {h0 : StrHeap} {cfg : Settings} {st : Lists} {S L : List (Nat × Str)}

theorem fromStage_eq (hs : Sorted h0 st S L) (cfg : Settings) (from_ : Str) :
    ∃ st' S' L', fromStage (some from_) st cfg = some (.success, st') ∧ Sorted h0 st' S' L' ∧
      vals S' = vals S ++ routed cfg .save ((if FROM &&& cfg.cfSavepolicyConv.conv ≠ 0
        then [from_] else []).map (complementAddress · cfg)) ∧
      vals L' = vals L ++ routed cfg .ldap ((if FROM &&& cfg.cfSavepolicyConv.conv ≠ 0
        then [from_] else []).map (complementAddress · cfg)) := by
  unfold fromStage
  by_cases hp : FROM &&& cfg.cfSavepolicyConv.conv ≠ 0
  · obtain ⟨st', S', L', he, hs', hS, hL⟩ := judgeMail_eq hs cfg (mem_complementAddress from_ cfg)
    exact ⟨st', S', L', by simp only [if_pos hp, he], hs', by rw [hS, if_pos hp]; rfl,
      by rw [hL, if_pos hp]; rfl⟩
  · exact ⟨st, S, L, if_neg hp, hs, by simp [hp, routed], by simp [hp, routed]⟩

theorem toStage_eq (hs : Sorted h0 st S L) (cfg : Settings) {rcptlist : Option Nat}
    {l : List (Nat × Str)} (hc : Chain h0 rcptlist l) :
    ∃ st' S' L', toStage rcptlist st cfg = some (.success, st') ∧ Sorted h0 st' S' L' ∧
      vals S' = vals S ++ routed cfg .save ((if TO &&& cfg.cfSavepolicyConv.conv ≠ 0
        then vals l else []).map (complementAddress · cfg)) ∧
      vals L' = vals L ++ routed cfg .ldap ((if TO &&& cfg.cfSavepolicyConv.conv ≠ 0
        then vals l else []).map (complementAddress · cfg)) := by
  unfold toStage
  by_cases hp : TO &&& cfg.cfSavepolicyConv.conv ≠ 0
  · simp only [if_pos hp]
    exact judgeRcpts_eq cfg hs hc (Nat.le_trans hc.length_le hs.grown)
  · exact ⟨st, S, L, if_neg hp, hs, by simp [hp, routed], by simp [hp, routed]⟩

/-- The two policy stages sort the candidates. -/
theorem policyStages_sorted (cfg : Settings) {rcptlist : Option Nat} {l : List (Nat × Str)}
    (hc : Chain h0 rcptlist l) (from_ : Str) (tail : Option Nat) :
    ∃ st1 st S L, fromStage (some from_) ⟨h0, none, tail, none, none⟩ cfg = some (.success, st1) ∧
      toStage rcptlist st1 cfg = some (.success, st) ∧
      Sorted h0 st S L ∧ vals S = routed cfg .save (candidates cfg from_ (vals l)) ∧
      vals L = routed cfg .ldap (candidates cfg from_ (vals l)) := by
  obtain ⟨st1, S1, L1, he1, hs1, hS1, hL1⟩ :=
    fromStage_eq (Sorted.start h0 tail) cfg from_
  obtain ⟨st2, S2, L2, he2, hs2, hS2, hL2⟩ := toStage_eq hs1 cfg hc
  refine ⟨st1, st2, S2, L2, he1, he2, hs2, ?_, ?_⟩
  · rw [hS2, hS1, vals_nil, List.nil_append, ← routed_append, ← List.map_append]; rfl
  · rw [hL2, hL1, vals_nil, List.nil_append, ← routed_append, ← List.map_append]; rfl

/-- The LDAP stage follows the policy stages. -/
theorem makeSavelist_sorted (cfg : Settings) {rcptlist : Option Nat} {l : List (Nat × Str)}
    (hc : Chain h0 rcptlist l) (from_ : Str) (tail : Option Nat) (ldap : Ldap) :
    ∃ st S L, makeSavelist (some from_) rcptlist h0 none tail cfg ldap = ldapStage st cfg ldap ∧
      Sorted h0 st S L ∧ vals S = routed cfg .save (candidates cfg from_ (vals l)) ∧
      vals L = routed cfg .ldap (candidates cfg from_ (vals l)) := by
  obtain ⟨st1, st, S, L, he1, he2, h⟩ := policyStages_sorted cfg hc from_ tail
  exact ⟨st, S, L, by simp only [makeSavelist, he1, he2], h⟩

/-- The directory can be asked. -/
def Ldap.Up (ldap : Ldap) : Prop := ldap.open_ = true ∧ ldap.setOption = true ∧ ldap.bind = true

theorem ldapStage_nil (hs : Sorted h0 st S []) (cfg : Settings) (ldap : Ldap) :
    ldapStage st cfg ldap = some (.success, st) ∧ st.ldaplistH = none := by
  have hn : st.ldaplistH = none := hs.ldap.chain
  exact ⟨if_pos hn, hn⟩

theorem ldapStage_eq (hs : Sorted h0 st S L) {template : Str}
    (ht : cfg.cfLdapmailfilter = some template) {ldap : Ldap} (hup : ldap.Up) {found : List Str}
    (hf : searched template ldap.search 0 (vals L) = some found) :
    ∃ st' S', ldapStage st cfg ldap = some (.success, st') ∧
      Sorted h0 { st' with ldaplistH := none } S' [] ∧ vals S' = vals S ++ found := by
  cases L with
  | nil =>
    obtain ⟨he, hn⟩ := ldapStage_nil hs cfg ldap
    cases hf
    exact ⟨st, S, he, by rw [← hn]; exact hs, by simp⟩
  | cons x L =>
    obtain ⟨st', S', he, hs', hS⟩ :=
      checkLdapLoop_eq ht ldap 0 st hs hs.ldap.chain.length_le hf
    have hn : st.ldaplistH ≠ none := by rw [hs.ldap.chain.1]; simp
    refine ⟨st', S', ?_, hs', hS⟩
    simp only [ldapStage, if_neg hn, checkLdap, hup.1, hup.2.1, hup.2.2, Bool.and_self, if_true, he]

/-- Without a filter text the first search reads a NULL. -/
theorem ldapStage_null (hs : Sorted h0 st S L) (hf : cfg.cfLdapmailfilter = none) (hL : L ≠ [])
    {ldap : Ldap} (hup : ldap.Up) : ldapStage st cfg ldap = none := by
  obtain ⟨x, L, rfl⟩ := List.exists_cons_of_ne_nil hL
  have hx := hs.ldap.chain.1
  obtain ⟨k, hk⟩ : ∃ k, st.heap.next = k + 1 :=
    ⟨st.heap.next - 1, by have := hs.ldap.chain.length_le; simp at this; omega⟩
  simp only [ldapStage, hx, checkLdap, hup.1, hup.2.1, hup.2.2, hk, checkLdapLoop, hf, Bool.and_self,
    if_true, reduceCtorEq, if_false]

/-- **`make_savelist` selects the addresses of the specification** and leaves the recipient list as
it was. -/
theorem makeSavelist_eq {rcptlist : Option Nat} {l : List (Nat × Str)} (hc : Chain h0 rcptlist l)
    (from_ : Str) (tail : Option Nat) (answer : Nat → Str → Nat)
    (hf : cfg.cfLdapmailfilter ≠ none ∨ routed cfg .ldap (candidates cfg from_ (vals l)) = []) :
    ∃ st S, makeSavelist (some from_) rcptlist h0 none tail cfg (.answering answer) =
        some (.success, st) ∧
      Sorted h0 { st with ldaplistH := none } S [] ∧
      vals S = selection cfg answer from_ (vals l) := by
  obtain ⟨st, S, L, he, hs, hS, hL⟩ :=
    makeSavelist_sorted cfg hc from_ tail (.answering answer)
  by_cases hl : L = []
  · subst hl
    obtain ⟨hst, hn⟩ := ldapStage_nil hs cfg (.answering answer)
    refine ⟨st, S, he.trans hst, by rw [← hn]; exact hs, ?_⟩
    rw [hS, selection, ← hL]
    simp [known]
  · obtain ⟨template, ht⟩ := Option.ne_none_iff_exists'.1
      (hf.resolve_right fun h => hl (List.map_eq_nil_iff.1 (hL.trans h)))
    have hup : (Ldap.answering answer).Up := ⟨rfl, rfl, rfl⟩
    obtain ⟨st', S', he', hs', hS'⟩ :=
      ldapStage_eq hs ht hup (searched_answering template answer 0 (vals L))
    exact ⟨st', S', he.trans he', hs', by rw [hS', hS, hL, selection, ht]; rfl⟩

/-- `make_savelist` returns with the list of the specification exactly when a filter text is
loaded or no candidate is looked up in the directory. -/
theorem makeSavelist_selects_iff {rcptlist : Option Nat} {l : List (Nat × Str)}
    (hc : Chain h0 rcptlist l) (from_ : Str) (tail : Option Nat) (answer : Nat → Str → Nat) :
    (∃ st, makeSavelist (some from_) rcptlist h0 none tail cfg (.answering answer) =
        some (.success, st) ∧
      contents st.heap.next st.heap st.savelistH =
        some (selection cfg answer from_ (vals l))) ↔
    cfg.cfLdapmailfilter ≠ none ∨ routed cfg .ldap (candidates cfg from_ (vals l)) = [] := by
  constructor
  · rintro ⟨st', he', -⟩
    by_contra hcon
    rw [not_or, not_not, ← ne_eq] at hcon
    obtain ⟨st, S, L, he, hs, -, hL⟩ :=
      makeSavelist_sorted cfg hc from_ tail (.answering answer)
    have hne : L ≠ [] := by
      rintro rfl
      exact hcon.2 hL.symm
    rw [he, ldapStage_null hs hcon.1 hne ⟨rfl, rfl, rfl⟩] at he'
    cases he'
  · intro hf
    obtain ⟨st, S, he, hs, hS⟩ := makeSavelist_eq hc from_ tail answer hf
    exact ⟨st, he, by rw [← hS]; exact hs.save.chain.contents_eq hs.save.chain.length_le⟩

end

/-- The example configuration with a direct match only for another domain, the LDAP check on and
`LdapMailFilter=`, which the loader accepts and leaves NULL. -/
def emptyFilterConfig : Settings :=
  { exampleConfig with
    cfSavepolicyConv := .onlyfrom, cfSavemailaddress := bytes "@example.org", cfLdapcheck := 1,
    cfLdapmailfilter := none }

/-- A sender that has to be looked up reaches the missing filter text. -/
theorem makeSavelist_emptyFilter :
    ¬ ∃ st, makeSavelist (some (bytes "a@example.com")) none Arena.empty none none
        emptyFilterConfig (.answering fun _ _ => 1) = some (.success, st) ∧
      contents st.heap.next st.heap st.savelistH =
        some (selection emptyFilterConfig (fun _ _ => 1) (bytes "a@example.com") []) := by
  have h : makeSavelist (some (bytes "a@example.com")) none Arena.empty none none
      emptyFilterConfig (.answering fun _ _ => 1) = none := rfl
  rintro ⟨st, he, -⟩
  rw [h] at he
  cases he

/-- Two recipients, one of them found by the directory. -/
theorem makeSavelist_selects_two :
    let cfg := { emptyFilterConfig with
      cfSavepolicyConv := .both, cfLdapmailfilter := some (bytes "(mail=%M)") }
    let heap : StrHeap :=
      (Arena.empty.alloc ⟨bytes "b@example.com", some 1⟩).alloc ⟨bytes "c@example.com", none⟩
    let answer : Nat → Str → Nat := fun i _ => i
    ∃ st, makeSavelist (some (bytes "a")) (some 0) heap none none cfg (.answering answer) =
        some (.success, st) ∧
      contents st.heap.next st.heap st.savelistH =
        some (selection cfg answer (bytes "a") [bytes "b@example.com", bytes "c@example.com"]) := by
  intro cfg heap answer
  have hc : Chain heap (some 0) [(0, bytes "b@example.com"), (1, bytes "c@example.com")] :=
    ⟨rfl, some 1, rfl, rfl, none, rfl, rfl⟩
  exact (makeSavelist_selects_iff hc (bytes "a") none answer).2 (.inl (by simp [cfg]))

end Messasy
