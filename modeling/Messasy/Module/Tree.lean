import Messasy.Lib.CString
import Messasy.Lib.Words
import Messasy.Module.Folder

/-!
# The folder tree in memory

`md_makemaildir_tree` ends the path with a NUL at each dot of the folder, one after the other, and
puts the dot back behind the call of `md_makemaildir`. The calls are those of the model on strings
(`mdMakemaildirTreeBuf_eq`): the cuts of the folder at its dots, and then the whole path
(`mdMakemaildirTree_calls`).
-/

namespace Messasy

open Lib

section
variable {σ : Type} (mk : Str → σ → σ)

/-- The loop, for at most `k` rounds; `mk` is the call of `md_makemaildir`. A loop that has not
ended is `none`. -/
def makemaildirTreeLoopBuf : Nat → Mem → Nat → σ → Option (Mem × σ)
  | 0, _, _, _ => none
  | k + 1, targetdir, subtop, st =>
    (targetdir.strchr subtop DOT).bind fun
    | none => some (targetdir, st)
    | some dot =>
      (targetdir.store dot 0).bind fun targetdir =>
      (targetdir.str 0).bind fun dirname =>
      let st := mk dirname st
      (targetdir.store dot DOT).bind fun targetdir =>
      makemaildirTreeLoopBuf k targetdir (dot + 1) st

/-- `md_makemaildir_tree`. Every round but the last passes a dot, so that the length of the path
bounds the rounds. -/
def mdMakemaildirTreeBuf (targetdir : Mem) (basedirLen : Nat) (st : σ) : Option (Rc × Mem × σ) :=
  let subtop := basedirLen + 1
  (targetdir.strchr subtop SLASH).bind fun
  | some _ => some (.error, targetdir, st)
  | none =>
    (makemaildirTreeLoopBuf mk targetdir.length targetdir subtop st).bind fun (targetdir, st) =>
    (targetdir.str 0).map fun dirname => (.success, targetdir, mk dirname st)

end

/-- The calls for the dots of a folder behind `done`. -/
def treeCalls {σ : Type} (mk : Str → σ → σ) (done folder : Str) (st : σ) : σ :=
  (cuts (· == DOT) folder).foldl (fun st u => mk (done ++ u) st) st

section
variable {σ : Type} (mk : Str → σ → σ) {s : Str}

theorem treeCalls_nil (h : DOT ∉ s) (done : Str) (st : σ) : treeCalls mk done s st = st := by
  have hcuts : cuts (· == DOT) s = [] := cuts_eq_nil fun c hc => by
    rw [beq_eq_false_iff_ne]
    rintro rfl
    exact h hc
  rw [treeCalls, hcuts, List.foldl_nil]

theorem treeCalls_append {u : Str} (h : DOT ∉ u) (done t : Str) (st : σ) :
    treeCalls mk done (u ++ DOT :: t) st =
      treeCalls mk (done ++ u ++ [DOT]) t (mk (done ++ u) st) := by
  have hcuts : cuts (· == DOT) (u ++ DOT :: t) =
      u :: (cuts (· == DOT) t).map fun v => u ++ DOT :: v := by
    refine cuts_append (p := (· == DOT)) (fun c hc => ?_) (beq_self_eq_true DOT) t
    rw [beq_eq_false_iff_ne]
    rintro rfl
    exact h hc
  simp only [treeCalls, hcuts, List.foldl_cons, List.foldl_map, List.append_assoc,
    List.singleton_append]

/-- A round at a dot: a NUL stands in its place during the call, and the dot again behind it. -/
theorem makemaildirTreeLoopBuf_round {done u : Str} (hdone : 0 ∉ done) (hu0 : 0 ∉ u) (hu : DOT ∉ u)
    (k : Nat) (r : Str) (st : σ) :
    makemaildirTreeLoopBuf mk (k + 1) (done ++ (u ++ DOT :: r)) done.length st =
      makemaildirTreeLoopBuf mk k (done ++ u ++ [DOT] ++ r) (done ++ u ++ [DOT]).length
        (mk (done ++ u) st) := by
  have hmem : done ++ (u ++ DOT :: r) = done ++ u ++ DOT :: r := (List.append_assoc _ _ _).symm
  have hfound := Mem.strchr_found hu0 hu done r
  rw [hmem, ← List.length_append] at hfound
  have hstr : Mem.str (done ++ u ++ 0 :: r) 0 = some (done ++ u) := by
    have hnul : 0 ∉ done ++ u := by simp [hdone, hu0]
    exact Mem.str_append hnul [] r
  have hback : done ++ u ++ DOT :: r = done ++ u ++ [DOT] ++ r := by simp
  have hnext : (done ++ u).length + 1 = (done ++ u ++ [DOT]).length := by simp [Nat.add_assoc]
  rw [makemaildirTreeLoopBuf, hmem, hfound, Option.bind_some]
  simp only [Mem.store_append, Option.bind_some, hstr]
  rw [hback, hnext]

/-- The loop leaves the path as it was, and has called `md_makemaildir` for every dot. -/
theorem makemaildirTreeLoopBuf_eq : ∀ (k : Nat) (done s : Str) (st : σ), s.length < k →
    0 ∉ done → 0 ∉ s → makemaildirTreeLoopBuf mk k (done ++ (s ++ [0])) done.length st =
      some (done ++ (s ++ [0]), treeCalls mk done s st)
  | 0, _, _, _, hk, _, _ => absurd hk (Nat.not_lt_zero _)
  | k + 1, done, s, st, hk, hdone, hs => by
    by_cases hdot : DOT ∈ s
    · obtain ⟨u, r, rfl, hu⟩ := List.eq_append_cons_of_mem hdot
      simp only [List.mem_append, List.mem_cons, not_or] at hs
      obtain ⟨hu0, -, hr0⟩ := hs
      simp only [List.length_append, List.length_cons] at hk
      have hdone' : 0 ∉ done ++ u ++ [DOT] := by
        simp only [List.mem_append, List.mem_singleton, not_or]
        exact ⟨⟨hdone, hu0⟩, by decide⟩
      have hback : done ++ u ++ [DOT] ++ (r ++ [0]) = done ++ (u ++ DOT :: r ++ [0]) := by simp
      rw [List.append_assoc u, List.cons_append, makemaildirTreeLoopBuf_round mk hdone hu0 hu,
        makemaildirTreeLoopBuf_eq k _ r _ (by omega) hdone' hr0, treeCalls_append mk hu, hback,
        List.append_assoc u, List.cons_append]
    · rw [makemaildirTreeLoopBuf, Mem.strchr_absent hs hdot (by decide), Option.bind_some,
        treeCalls_nil mk hdot]

/-- `md_makemaildir_tree` on a path below the base directory. -/
theorem mdMakemaildirTreeBuf_calls {base folder : Str} (hb : 0 ∉ base) (hf : 0 ∉ folder) (st : σ) :
    mdMakemaildirTreeBuf mk (base ++ SLASH :: folder ++ [0]) base.length st =
      if SLASH ∈ folder then some (.error, base ++ SLASH :: folder ++ [0], st)
      else some (.success, base ++ SLASH :: folder ++ [0],
        mk (base ++ SLASH :: folder) (treeCalls mk (base ++ [SLASH]) folder st)) := by
  have hdone : 0 ∉ base ++ [SLASH] := by
    simp only [List.mem_append, List.mem_singleton, not_or]
    exact ⟨hb, by decide⟩
  have hmem : base ++ SLASH :: folder ++ [0] = base ++ [SLASH] ++ (folder ++ [0]) := by simp
  have hsubtop : base.length + 1 = (base ++ [SLASH]).length := by simp
  have hstr : Mem.str (base ++ [SLASH] ++ (folder ++ [0])) 0 = some (base ++ SLASH :: folder) := by
    have hpath := Mem.str_append (s := base ++ [SLASH] ++ folder) (by simp_all) [] []
    simpa using hpath
  unfold mdMakemaildirTreeBuf
  rw [hmem, hsubtop]
  by_cases hslash : SLASH ∈ folder
  · obtain ⟨u, t, rfl, hu⟩ := List.eq_append_cons_of_mem hslash
    have hu0 : 0 ∉ u := fun h => hf (List.mem_append_left _ h)
    have hfound := Mem.strchr_found hu0 hu (base ++ [SLASH]) (t ++ [0])
    rw [← List.cons_append, ← List.append_assoc u] at hfound
    simp only [hfound, Option.bind_some, if_pos hslash]
  · have hlen : folder.length < (base ++ [SLASH] ++ (folder ++ [0])).length := by
      simp only [List.length_append, List.length_singleton]
      omega
    have hloop := makemaildirTreeLoopBuf_eq mk _ _ folder st hlen hdone hf
    simp only [Mem.strchr_absent hf hslash (by decide), Option.bind_some, if_neg hslash, hloop,
      hstr, Option.map_some]

end

/-- The loop on strings makes the same calls. -/
theorem makemaildirTreeLoop_eq (env : Env) : ∀ (k : Nat) (done s : Str) (os : Os), s.length ≤ k →
    makemaildirTreeLoop env k done s os =
      mdMakemaildir env (done ++ s) (treeCalls (mdMakemaildir env) done s os)
  | 0, done, s, os, hk => by
    obtain rfl : s = [] := List.eq_nil_of_length_eq_zero (Nat.le_zero.1 hk)
    rfl
  | k + 1, done, s, os, hk => by
    rw [makemaildirTreeLoop]
    cases hr : strchr s DOT with
    | none => rw [treeCalls_nil _ (strchr_eq_none.1 hr)]
    | some dot =>
      obtain ⟨t, rfl, hsplit⟩ := strchr_eq_some hr
      have hlen := congrArg List.length hsplit
      simp only [List.length_append, List.length_cons] at hlen
      have hcalls := treeCalls_append (mdMakemaildir env) (notMem_before s DOT) done t os
      rw [← hsplit] at hcalls
      have hpath : done ++ before s DOT ++ [DOT] ++ t = done ++ s := by
        rw [List.append_assoc, List.append_assoc, List.singleton_append, ← hsplit]
      simp only [List.tail_cons]
      rw [makemaildirTreeLoop_eq env k _ t _ (by omega), hpath, hcalls]

/-- **In memory and on strings** `md_makemaildir_tree` does the same. -/
theorem mdMakemaildirTreeBuf_eq (env : Env) {base folder : Str} (hb : 0 ∉ base) (hf : 0 ∉ folder)
    (os : Os) :
    mdMakemaildirTreeBuf (mdMakemaildir env) (base ++ SLASH :: folder ++ [0]) base.length os =
      some ((mdMakemaildirTree env (base ++ SLASH :: folder) base.length os).1,
        base ++ SLASH :: folder ++ [0],
        (mdMakemaildirTree env (base ++ SLASH :: folder) base.length os).2) := by
  have hsplit : base ++ SLASH :: folder = base ++ [SLASH] ++ folder := by simp
  have hlen : base.length + 1 = (base ++ [SLASH]).length := by simp
  have hdrop : (base ++ SLASH :: folder).drop (base.length + 1) = folder := by
    rw [hsplit, hlen, List.drop_left]
  have htake : (base ++ SLASH :: folder).take (base.length + 1) = base ++ [SLASH] := by
    rw [hsplit, hlen, List.take_left]
  rw [mdMakemaildirTreeBuf_calls _ hb hf, mdMakemaildirTree, hdrop, htake]
  by_cases hslash : SLASH ∈ folder
  · obtain ⟨r, hr⟩ := strchr_isSome hslash
    simp only [if_pos hslash, hr]
  · simp only [if_neg hslash, strchr_eq_none.2 hslash, makemaildirTreeLoop_eq env _ _ _ _ (Nat.le_refl _),
      hsplit]

/-- **The calls of `md_makemaildir_tree`.** For a folder without `/` it calls `md_makemaildir` with
what stands before each dot of the folder, from the shortest to the longest, and then with the whole
path, and leaves the path as it was; for any other folder it calls nothing. -/
theorem mdMakemaildirTree_calls {σ : Type} (mk : Str → σ → σ) {base folder : Str} (hb : 0 ∉ base)
    (hf : 0 ∉ folder) (st : σ) :
    (SLASH ∉ folder → ∃ dirs : List Str,
      mdMakemaildirTreeBuf mk (base ++ SLASH :: folder ++ [0]) base.length st =
        some (.success, base ++ SLASH :: folder ++ [0],
          (dirs ++ [base ++ SLASH :: folder]).foldl (fun st dir => mk dir st) st) ∧
      (∀ dir, dir ∈ dirs ↔ ∃ u t, folder = u ++ DOT :: t ∧ dir = base ++ SLASH :: u) ∧
      dirs.Pairwise fun dir dir' => dir.length < dir'.length) ∧
    (SLASH ∈ folder → mdMakemaildirTreeBuf mk (base ++ SLASH :: folder ++ [0]) base.length st =
      some (.error, base ++ SLASH :: folder ++ [0], st)) := by
  rw [mdMakemaildirTreeBuf_calls mk hb hf]
  refine ⟨fun hslash => ?_, fun hslash => by rw [if_pos hslash]⟩
  rw [if_neg hslash]
  refine ⟨(cuts (· == DOT) folder).map fun u => base ++ SLASH :: u, ?_, fun dir => ?_, ?_⟩
  · simp only [treeCalls, List.foldl_append, List.foldl_map, List.foldl_cons, List.foldl_nil,
      List.append_assoc, List.singleton_append]
  · rw [List.mem_map]
    constructor
    · rintro ⟨u, hu, rfl⟩
      obtain ⟨c, t, ht, hc⟩ := mem_cuts.1 hu
      rw [beq_iff_eq.1 hc] at ht
      exact ⟨u, t, ht, rfl⟩
    · rintro ⟨u, t, ht, rfl⟩
      exact ⟨u, mem_cuts.2 ⟨DOT, t, ht, beq_self_eq_true DOT⟩, rfl⟩
  · refine List.pairwise_map.2 ((cuts_pairwise _ _).imp fun h => ?_)
    simp only [List.length_append, List.length_cons]
    omega

/-- Three levels below a base directory with a dot in its name. -/
theorem mdMakemaildirTree_calls_three : ∃ dirs : List Str,
    mdMakemaildirTreeBuf (fun dir st => st ++ [dir]) (bytes "/a.b" ++ SLASH :: bytes ".c.d" ++ [0])
      (bytes "/a.b").length ([] : List Str) =
        some (.success, bytes "/a.b" ++ SLASH :: bytes ".c.d" ++ [0],
          (dirs ++ [bytes "/a.b" ++ SLASH :: bytes ".c.d"]).foldl (fun st dir => st ++ [dir]) []) ∧
    (∀ dir, dir ∈ dirs ↔
      ∃ u t, bytes ".c.d" = u ++ DOT :: t ∧ dir = bytes "/a.b" ++ SLASH :: u) ∧
    dirs.Pairwise fun dir dir' => dir.length < dir'.length :=
  (mdMakemaildirTree_calls (fun dir st => st ++ [dir]) (by decide) (by decide) []).1 (by decide)

end Messasy
