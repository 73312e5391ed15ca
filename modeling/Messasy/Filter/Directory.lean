import Messasy.Filter.Savelist

/-!
# `make_savelist` under a failing directory

`filtered` says what a call comes to under any behaviour of the directory. When the directory
cannot be asked, or its first search fails, the clean-up finds the LDAP list as it was built. Once
a search has been answered, the head that the clean-up starts from has been freed or moved to the
save list, and it frees a node a second time.
-/

namespace Messasy

open Lib

/-- What a call of `make_savelist` comes to. -/
inductive Filtered
  | selected (list : List Str)
  | failed
  | undefined
  deriving DecidableEq

/-- The LDAP stage by values: the direct matches and the addresses to look up. -/
def lookedUp (cfg : Settings) (ldap : Ldap) (direct : List Str) : List Str → Filtered
  | [] => .selected direct
  | a :: l =>
    if ldap.open_ && ldap.setOption && ldap.bind then
      match cfg.cfLdapmailfilter with
      | none => .undefined
      | some template =>
        match searched template ldap.search 0 (a :: l), ldap.search 0 (ldapFilter template a) with
        | some found, _ => .selected (direct ++ found)
        | none, none => .failed
        | none, some _ => .undefined
    else .failed

/-- `make_savelist` by values. -/
def filtered (cfg : Settings) (ldap : Ldap) (from_ : Str) (rcpts : List Str) : Filtered :=
  let cands := candidates cfg from_ rcpts
  lookedUp cfg ldap (routed cfg .save cands) (routed cfg .ldap cands)

section
variable {h0 heap : StrHeap} {cfg : Settings} {st : Lists} {S L : List (Nat × Str)}

/-- A list with a dead node cannot be released. -/
theorem release_dead : ∀ {k : Nat} {h : StrHeap} {p : Option Nat} {A : List (Nat × Str)}
    {x : Nat × Str} {B : List (Nat × Str)}, Chain heap p (A ++ x :: B) →
    (∀ q ∈ ids A, h.cell q = heap.cell q) → h.cell x.1 = none → release k h p = none
  | 0, _, _, [], _, _, ⟨rfl, _⟩, _, _ => rfl
  | 0, _, _, _ :: _, _, _, ⟨rfl, _⟩, _, _ => rfl
  | k + 1, h, _, [], x, _, ⟨rfl, _⟩, _, hx => by simp only [release, hx]
  | k + 1, h, _, a :: A, x, B, hc, hA, hx => by
    have hnd := hc.nodup
    obtain ⟨rfl, nx, hca, hl⟩ := hc
    have hna : a.1 ∉ ids (A ++ x :: B) := (List.nodup_cons.1 hnd).1
    have hcell : h.cell a.1 = some ⟨a.2, nx⟩ := by rw [hA a.1 (by simp), hca]
    simp only [release, hcell]
    refine release_dead hl (fun q hq => ?_) ?_
    · have hqa : q ≠ a.1 := fun e => hna (by rw [← e]; simp [hq])
      rw [Arena.cell_drop_of_ne hqa, hA q (by simp [hq])]
    · have hxa : x.1 ≠ a.1 := fun e => hna (by rw [← e]; simp)
      rw [Arena.cell_drop_of_ne hxa, hx]

/-- The clean-up after a failure that left both lists whole: no new node is left. -/
theorem dropLists_eq (hs : Sorted h0 st S L) :
    ∃ st', dropLists st = some (.error, st') ∧ st'.savelistH = none ∧
      (∀ q < h0.next, st'.heap.cell q = h0.cell q) ∧ h0.next ≤ st'.heap.next ∧
      ∀ q, h0.next ≤ q → st'.heap.cell q = none := by
  obtain ⟨h1, he1, hn1, hdead1, hsame1⟩ := freeStrlist_eq hs.ldap.chain
  have hsave : Chain h1 st.savelistH S :=
    hs.save.chain.frame fun q hq => hsame1 q (hs.disj q hq)
  obtain ⟨h2, he2, hn2, hdead2, hsame2⟩ := freeStrlist_eq hsave
  refine ⟨{ st with heap := h2, savelistH := none, savelistT := none },
    by simp only [dropLists, he1, he2, Option.map_some], rfl, fun q hq => ?_, ?_, fun q hq => ?_⟩
  · have hnot : ∀ r ∈ ids S ++ ids L, r ≠ q := fun r hr e => by
      have := hs.fresh r hr
      omega
    rw [hsame2 q fun h => hnot q (by simp [h]) rfl, hsame1 q fun h => hnot q (by simp [h]) rfl]
    exact hs.old q hq
  · have := hs.grown
    simp only [hn2, hn1]
    omega
  · by_cases hS : q ∈ ids S
    · exact hdead2 q hS
    rw [hsame2 q hS]
    by_cases hL : q ∈ ids L
    · exact hdead1 q hL
    rw [hsame1 q hL]
    by_contra hlive
    have hin := hs.owned q hq hlive
    rw [List.mem_append] at hin
    exact hin.elim hS hL

/-- The clean-up that starts from a spent head frees a node twice. -/
theorem dropLists_spent {list : Option Nat} {x : Nat}
    (hs : Sorted h0 { st with ldaplistH := list } S L) (hx : st.ldaplistH = some x)
    (hsp : Spent st S x) : dropLists st = none := by
  unfold dropLists
  rw [hx]
  rcases hsp with hdead | hmem
  · have hfree : freeStrlist st.heap (some x) = none := by
      unfold freeStrlist
      cases st.heap.next with
      | zero => rfl
      | succ k => simp only [release, hdead]
    simp only [hfree]
  · obtain ⟨y, hy, rfl⟩ := List.mem_map.1 hmem
    obtain ⟨A, B, rfl⟩ := List.append_of_mem hy
    have hc := hs.save.chain
    obtain ⟨p, hp⟩ := hc.drop_append
    have hpy : p = some y.1 := hp.1
    subst hpy
    obtain ⟨h1, he1, hn1, hdead, hsame⟩ := hp.release_eq hp.length_le
    have hnd := hc.nodup
    rw [ids_append] at hnd
    have hA : ∀ q ∈ ids A, h1.cell q = st.heap.cell q := fun q hq =>
      hsame q fun hq' => (List.nodup_append.1 hnd).2.2 q hq q hq' rfl
    have h2 : freeStrlist h1 st.savelistH = none :=
      release_dead hc hA (hdead y.1 (by simp))
    have he1' : freeStrlist st.heap (some y.1) = some h1 := he1
    simp only [he1', h2, Option.map_none]

/-- A result of `make_savelist` that is what `filtered` says: the list, or no list, no new node and
the heap at the start as it was. -/
def Filtered.Meets (h0 : StrHeap) (r : Option (Rc × Lists)) : Filtered → Prop
  | .selected list => ∃ st S, r = some (.success, st) ∧
      Sorted h0 { st with ldaplistH := none } S [] ∧ vals S = list
  | .failed => ∃ st, r = some (.error, st) ∧ st.savelistH = none ∧
      (∀ q < h0.next, st.heap.cell q = h0.cell q) ∧ h0.next ≤ st.heap.next ∧
      ∀ q, h0.next ≤ q → st.heap.cell q = none
  | .undefined => r = none

theorem ldapStage_failed (hs : Sorted h0 st S L) (hL : L ≠ []) {ldap : Ldap}
    (he : checkLdap st cfg ldap = some (.error, st)) :
    Filtered.Meets h0 (ldapStage st cfg ldap) .failed := by
  have hn : st.ldaplistH ≠ none := by
    obtain ⟨x, L, rfl⟩ := List.exists_cons_of_ne_nil hL
    rw [hs.ldap.chain.1]
    simp
  obtain ⟨st', hd, hnone, hold, hgrown⟩ := dropLists_eq hs
  exact ⟨st', by simp only [ldapStage, if_neg hn, he, hd], hnone, hold, hgrown⟩

/-- **The LDAP stage** under any directory. -/
theorem ldapStage_lookedUp (hs : Sorted h0 st S L) (cfg : Settings) (ldap : Ldap) :
    (lookedUp cfg ldap (vals S) (vals L)).Meets h0 (ldapStage st cfg ldap) := by
  cases L with
  | nil =>
    obtain ⟨he, hn⟩ := ldapStage_nil hs cfg ldap
    exact ⟨st, S, he, by rw [← hn]; exact hs, rfl⟩
  | cons x L =>
    have hx : st.ldaplistH = some x.1 := hs.ldap.chain.1
    by_cases hup : ldap.Up
    · have hb : (ldap.open_ && ldap.setOption && ldap.bind) = true := by
        simp [hup.1, hup.2.1, hup.2.2]
      cases ht : cfg.cfLdapmailfilter with
      | none =>
        simp only [vals_cons, lookedUp, hb, if_true, ht]
        exact ldapStage_null hs ht (by simp) hup
      | some template =>
        cases hf : searched template ldap.search 0 (vals (x :: L)) with
        | some found =>
          obtain ⟨st', S', he, hs', hS⟩ := ldapStage_eq hs ht hup hf
          simp only [vals_cons] at hf
          simp only [vals_cons, lookedUp, hb, if_true, ht, hf]
          exact ⟨st', S', he, hs', hS⟩
        | none =>
          simp only [vals_cons] at hf
          obtain ⟨k, hk⟩ : ∃ k, st.heap.next = k + 1 :=
            ⟨st.heap.next - 1, by have := hs.ldap.chain.length_le; simp at this; omega⟩
          obtain ⟨-, nx, hcx, -⟩ := hs.ldap.tail
          cases hsearch : ldap.search 0 (ldapFilter template x.2) with
          | none =>
            simp only [vals_cons, lookedUp, hb, if_true, ht, hf, hsearch]
            refine ldapStage_failed hs (by simp) ?_
            simp only [checkLdap, hb, if_true, hk, hx, checkLdapLoop, ht, hcx, hsearch]
          | some count =>
            simp only [vals_cons, lookedUp, hb, if_true, ht, hf, hsearch]
            simp only [searched, hsearch, Option.map_eq_none_iff] at hf
            obtain ⟨st1, nx', S1, he, hs1, hl1, -, hsp, -⟩ :=
              checkLdapLoop_answered ht (k := k) hs hsearch
            have hlen : L.length ≤ k := by
              have := hs.ldap.chain.length_le
              simp at this
              omega
            obtain ⟨st', list', S', M', he', hs', hl', hsp'⟩ :=
              checkLdapLoop_failed ht ldap 1 st1 hs1 hlen hf hsp
            have hdrop := dropLists_spent hs' ((hl'.trans hl1).trans hx) hsp'
            have hcheck : checkLdap st cfg ldap = some (.error, st') := by
              simp only [checkLdap, hb, if_true, hk]
              exact he.trans he'
            simp only [Filtered.Meets, ldapStage, hx, reduceCtorEq, if_false, hcheck, hdrop]
    · have hb : (ldap.open_ && ldap.setOption && ldap.bind) = false := by
        simpa [Ldap.Up, and_assoc] using hup
      simp only [vals_cons, lookedUp, hb, Bool.false_eq_true, if_false]
      exact ldapStage_failed hs (by simp) (by simp only [checkLdap, hb, Bool.false_eq_true, if_false])

/-- **`make_savelist`** under any directory. -/
theorem makeSavelist_filtered {rcptlist : Option Nat} {l : List (Nat × Str)}
    (hc : Chain h0 rcptlist l) (cfg : Settings) (from_ : Str) (tail : Option Nat) (ldap : Ldap) :
    (filtered cfg ldap from_ (vals l)).Meets h0
      (makeSavelist (some from_) rcptlist h0 none tail cfg ldap) := by
  obtain ⟨st, S, L, he, hs, hS, hL⟩ := makeSavelist_sorted cfg hc from_ tail ldap
  have h := ldapStage_lookedUp hs cfg ldap
  rw [he]
  simpa only [filtered, ← hS, ← hL] using h

/-- A missing sender that the policy asks for is read all the same. -/
theorem makeSavelist_null {cfg : Settings} (hp : FROM &&& cfg.cfSavepolicyConv.conv ≠ 0)
    (rcptlist : Option Nat) (heap : StrHeap) (hd tail : Option Nat) (ldap : Ldap) :
    makeSavelist none rcptlist heap hd tail cfg ldap = none := by
  simp only [makeSavelist, fromStage, if_pos hp]

/-- Without `FROM` the sender is not read. -/
theorem makeSavelist_unread {cfg : Settings} (hp : ¬ FROM &&& cfg.cfSavepolicyConv.conv ≠ 0)
    (rcptlist : Option Nat) (heap : StrHeap) (hd tail : Option Nat) (ldap : Ldap) :
    makeSavelist none rcptlist heap hd tail cfg ldap =
      makeSavelist (some []) rcptlist heap hd tail cfg ldap := by
  simp only [makeSavelist, fromStage, if_neg hp]

/-- A directory that answers selects the list of the specification. -/
theorem filtered_answering {cfg : Settings} {from_ : Str} {rcpts : List Str}
    (answer : Nat → Str → Nat) (hf : cfg.cfLdapmailfilter ≠ none ∨
      routed cfg .ldap (candidates cfg from_ rcpts) = []) :
    filtered cfg (.answering answer) from_ rcpts = .selected (selection cfg answer from_ rcpts) := by
  simp only [filtered, selection]
  cases hl : routed cfg .ldap (candidates cfg from_ rcpts) with
  | nil => simp [lookedUp, known]
  | cons a l =>
    obtain ⟨template, ht⟩ := Option.ne_none_iff_exists'.1 (hf.resolve_right (by simp [hl]))
    have hsearched : searched template (Ldap.answering answer).search 0 (a :: l) =
        some (known template answer 0 (a :: l)) := searched_answering template answer 0 (a :: l)
    simp only [lookedUp, hsearched, ht]
    rfl

/-! ## Saved addresses -/

/-- The filter puts the address on some save list. -/
def SavedAddress (a : Str) : Prop :=
  ∃ cfg ldap from_ rcpts list, filtered cfg ldap from_ rcpts = .selected list ∧ a ∈ list

theorem searched_subset {template : Str} {search : Nat → Str → Option Nat} {a : Str} :
    ∀ {l : List Str} {i : Nat} {found : List Str}, searched template search i l = some found →
      a ∈ found → a ∈ l
  | [], _, _, h, ha => by
    cases h
    cases ha
  | b :: l, i, found, h, ha => by
    unfold searched at h
    split at h
    · cases h
    · obtain ⟨found', h', rfl⟩ := Option.map_eq_some_iff.1 h
      split at ha
      · rcases List.mem_cons.1 ha with rfl | ha
        · exact List.mem_cons_self
        · exact List.mem_cons_of_mem _ (searched_subset h' ha)
      · exact List.mem_cons_of_mem _ (searched_subset h' ha)

theorem mem_candidates_of_filtered {cfg : Settings} {ldap : Ldap} {from_ a : Str}
    {rcpts list : List Str} (h : filtered cfg ldap from_ rcpts = .selected list) (ha : a ∈ list) :
    a ∈ candidates cfg from_ rcpts := by
  have hrouted : ∀ {r : Route}, a ∈ routed cfg r (candidates cfg from_ rcpts) →
      a ∈ candidates cfg from_ rcpts := List.mem_of_mem_filter
  unfold filtered at h
  dsimp only at h
  generalize hl : routed cfg .ldap (candidates cfg from_ rcpts) = lookups at h
  unfold lookedUp at h
  split at h
  · cases h
    exact hrouted ha
  · split at h
    · split at h
      · cases h
      · split at h
        · rename_i hfound
          cases h
          rcases List.mem_append.1 ha with ha | ha
          · exact hrouted ha
          · have hmem := searched_subset hfound ha
            rw [← hl] at hmem
            exact hrouted hmem
        · cases h
        · cases h
    · cases h

/-- `complement_address` sees to it that there is an `@`. -/
theorem SavedAddress.at_mem {a : Str} (h : SavedAddress a) : ch '@' ∈ a := by
  obtain ⟨cfg, ldap, from_, rcpts, list, hf, ha⟩ := h
  exact mem_candidates (mem_candidates_of_filtered hf ha)

/-- A sender that matches directly is saved. -/
theorem SavedAddress.of_route {cfg : Settings} {a : Str}
    (hp : FROM &&& cfg.cfSavepolicyConv.conv ≠ 0) (ha : ch '@' ∈ a) (hr : route cfg a = .save) :
    SavedAddress a := by
  refine ⟨cfg, .answering fun _ _ => 0, a, [], [a], ?_, List.mem_singleton_self a⟩
  have hcands : candidates cfg a [] = [a] := by
    unfold candidates
    rw [if_pos hp, ite_self, List.append_nil, List.map_singleton,
      complementAddress_of_mem _ ha]
  have hsave : routed cfg .save [a] = [a] := by simp [routed, hr]
  have hldap : routed cfg .ldap [a] = [] := by simp [routed, hr]
  unfold filtered
  dsimp only
  rw [hcands, hsave, hldap]
  rfl

/-- Under the example configuration that is every address at its domain. -/
theorem savedAddress_example {u : Str} (hu : ch '@' ∉ u) :
    SavedAddress (u ++ bytes "@example.com") := by
  have htail : atTail (u ++ bytes "@example.com") = bytes "@example.com" := by
    unfold atTail
    rw [List.dropWhile_append_of_pos]
    · rfl
    · intro c hc
      simp only [bne_iff_ne]
      rintro rfl
      exact hu hc
  suffices hroute : route exampleConfig (u ++ bytes "@example.com") = .save from
    .of_route (by decide) (by simp [bytes, ch]) hroute
  have hconsidered : Considered exampleConfig (u ++ bytes "@example.com") := by
    refine ⟨bytes "example.com", by decide, ?_⟩
    rw [htail]
    rfl
  have hdirect : Direct exampleConfig (u ++ bytes "@example.com") := by
    refine ⟨bytes "@example.com", by decide, by decide, ?_⟩
    unfold Matches
    rw [if_neg (by decide), if_pos (by decide), htail]
  unfold route
  rw [if_pos hconsidered, if_pos hdirect]

end

end Messasy
