import Messasy.Lib.Shell

/-!
# What a shell makes of text in the place of a word

Quote removal only leaves out bytes (`unquote_spec`), and the first word of a text is a part of it
behind blanks (`first_word`). So a text that is read back from the place where it was put has
nothing to leave out: it is `Literal` (`argument_iff`).
-/

namespace Lib.Shell

/-! ## What the first word is made of -/

/-- The bytes that quoting is written with. -/
def quotes (c : Byte) : Bool := c == BACKSLASH || c == SQUOTE || c == DQUOTE || c == LF

/-- The bytes that quote removal leaves in their order. -/
def core (text : Str) : Str := text.filter fun c => !quotes c

@[simp] theorem core_append (s t : Str) : core (s ++ t) = core s ++ core t := List.filter_append ..

theorem core_cons_quotes (h : quotes c = true) (s : Str) : core (c :: s) = core s := by
  simp [core, h]

theorem core_cons (h : quotes c = false) (s : Str) : core (c :: s) = c :: core s := by
  simp [core, h]

/-- The backslash that is kept for the next byte. -/
def Quoting.kept : Quoting → Str
  | .doubleEscaped => [BACKSLASH]
  | _ => []

theorem core_cons_congr {s t : Str} (h : core s = core t) (c : Byte) :
    core (c :: s) = core (c :: t) := by
  by_cases hc : quotes c = true
  · rw [core_cons_quotes hc, core_cons_quotes hc, h]
  · have hc : quotes c = false := Bool.eq_false_iff.2 hc
    rw [core_cons hc, core_cons hc, h]

/-- Quote removal leaves out quotes only. -/
theorem unquote_spec {q : Quoting} {word : Str} {v : Marked} (h : unquote q word = some v) :
    core (v.map Prod.fst) = core word ∧ (v.map Prod.fst).Sublist (q.kept ++ word) := by
  have hb : quotes BACKSLASH = true := by decide
  have hs : quotes SQUOTE = true := by decide
  have hd : quotes DQUOTE = true := by decide
  fun_induction unquote q word generalizing v with
  | case1 =>
    cases h
    exact ⟨rfl, .slnil⟩
  | case2 => cases h
  | case3 word ih =>
    obtain ⟨hcore, hsub⟩ := ih h
    exact ⟨by rw [core_cons_quotes hb, hcore], hsub.cons _⟩
  | case4 word _ ih =>
    obtain ⟨hcore, hsub⟩ := ih h
    exact ⟨by rw [core_cons_quotes hs, hcore], hsub.cons _⟩
  | case5 word _ _ ih =>
    obtain ⟨hcore, hsub⟩ := ih h
    exact ⟨by rw [core_cons_quotes hd, hcore], hsub.cons _⟩
  | case6 => cases h
  | case7 c word _ _ _ _ ih | case8 c word ih | case10 c word _ ih | case14 c word _ _ _ ih =>
    obtain ⟨u, hu, rfl⟩ := Option.map_eq_some_iff.1 h
    obtain ⟨hcore, hsub⟩ := ih hu
    exact ⟨core_cons_congr hcore c, hsub.cons_cons c⟩
  | case9 word ih =>
    obtain ⟨hcore, hsub⟩ := ih h
    exact ⟨by rw [core_cons_quotes hs, hcore], hsub.cons _⟩
  | case11 word ih =>
    obtain ⟨hcore, hsub⟩ := ih h
    exact ⟨by rw [core_cons_quotes hd, hcore], hsub.cons _⟩
  | case12 word _ ih =>
    obtain ⟨hcore, hsub⟩ := ih h
    exact ⟨by rw [core_cons_quotes hb, hcore], hsub⟩
  | case13 => cases h
  | case15 c word _ ih =>
    obtain ⟨u, hu, rfl⟩ := Option.map_eq_some_iff.1 h
    obtain ⟨hcore, hsub⟩ := ih hu
    exact ⟨core_cons_congr hcore c, (hsub.cons_cons c).cons _⟩
  | case16 c word _ ih =>
    obtain ⟨u, hu, rfl⟩ := Option.map_eq_some_iff.1 h
    obtain ⟨hcore, hsub⟩ := ih hu
    refine ⟨?_, (hsub.cons_cons c).cons_cons _⟩
    rw [List.map_append, List.map_cons, List.cons_append, core_cons_quotes hb]
    exact core_cons_congr hcore c

theorem argument_spec {raw v : Str} (h : argument raw = some v) :
    ∃ marked, unquote .plain raw = some marked ∧ marked.map Prod.fst = v ∧
      globs marked = false ∧ raw.head? ≠ some (ch '~') := by
  unfold argument at h
  split at h
  · cases h
  · rename_i htilde
    obtain ⟨marked, hmarked, hv⟩ := Option.bind_eq_some_iff.1 h
    obtain ⟨hglobs, heq⟩ := Option.ite_none_left_eq_some.1 hv
    exact ⟨marked, hmarked, Option.some.inj heq, Bool.eq_false_iff.2 hglobs, htilde⟩

/-- A word that is left as it is has no quotes and no expansion. -/
theorem unquote_eq_self {a : Str} {v : Marked} (h : unquote .plain a = some v)
    (hv : v.map Prod.fst = a) : v = bare a ∧
      ∀ c ∈ a, c ≠ BACKSLASH ∧ c ≠ SQUOTE ∧ c ≠ DQUOTE ∧ substitutes c = false := by
  induction a generalizing v with
  | nil =>
    cases h
    exact ⟨rfl, nofun⟩
  | cons c a ih =>
    -- what is left out makes the argument shorter
    have hshort : ∀ q : Quoting, q.kept = [] → unquote q a ≠ some v := by
      intro q hq hu
      have hlen := (unquote_spec hu).2.length_le
      rw [hv, hq, List.nil_append, List.length_cons] at hlen
      omega
    rw [unquote] at h
    by_cases hb : c = BACKSLASH
    · rw [if_pos hb] at h
      exact absurd h (hshort .escaped rfl)
    rw [if_neg hb] at h
    by_cases hs : c = SQUOTE
    · rw [if_pos hs] at h
      exact absurd h (hshort .single rfl)
    rw [if_neg hs] at h
    by_cases hd : c = DQUOTE
    · rw [if_pos hd] at h
      exact absurd h (hshort .double rfl)
    rw [if_neg hd] at h
    by_cases he : substitutes c = true
    · rw [if_pos he] at h
      cases h
    rw [if_neg he] at h
    obtain ⟨u, hu, rfl⟩ := Option.map_eq_some_iff.1 h
    obtain ⟨rfl, hall⟩ := ih hu (List.cons.inj hv).2
    exact ⟨rfl, List.forall_mem_cons.2 ⟨⟨hb, hs, hd, Bool.eq_false_iff.2 he⟩, hall⟩⟩

namespace Scan

section
variable {s : Scan} {c : Byte} {raw : Str}

theorem closed_word (raw : Str) (c : Byte) :
    ∃ t : Token, (Pending.word raw).closed c = [t] ∧ t.raw = raw := by
  unfold Pending.closed
  dsimp only
  split
  · exact ⟨_, rfl, rfl⟩
  · exact ⟨_, rfl, rfl⟩

/-- One byte in a word: it ends the word, or joins it, or is left to the next byte. -/
theorem step_word (hs : s.pending = .word raw) (c : Byte) :
    (∃ t more, (s.step c).tokens = s.tokens ++ t :: more ∧ t.raw = raw) ∨
    (∃ text modes dollar, s.step c = ⟨s.tokens, .word (raw ++ text), modes, false, dollar⟩ ∧
      core text = core [c] ∧ text.length ≤ s.escaped.toNat + 1) ∨
    (∃ escaped, s.step c = { s with escaped := escaped } ∧ quotes c = true ∧
      escaped.toNat ≤ s.escaped.toNat + 1) := by
  obtain ⟨ts, pending, modes, escaped, dollar⟩ := s
  dsimp only at hs
  subst hs
  obtain ⟨t, hclosed, ht⟩ := closed_word raw c
  have hb : quotes BACKSLASH = true := by decide
  unfold step action
  cases escaped with
  | true =>
    by_cases hlf : c = LF
    · subst hlf
      exact .inr (.inr ⟨false, rfl, by decide, Nat.zero_le _⟩)
    · refine .inr (.inl ⟨[BACKSLASH, c], modes, false, ?_, core_cons_quotes hb [c], Nat.le_refl 2⟩)
      simp [perform, hlf]
  | false =>
    cases modes with
    | cons m modes =>
      by_cases hesc : c = BACKSLASH ∧ m ≠ .single
      · refine .inr (.inr ⟨true, ?_, hesc.1 ▸ hb, Nat.le_refl 1⟩)
        simp [perform, hesc]
      · refine .inr (.inl ⟨[c], m.next dollar c ++ modes, c = DOLLAR ∧ m ≠ .single, ?_, rfl,
          Nat.le_refl 1⟩)
        simp only [Bool.false_eq_true, if_false, if_neg hesc]
        rfl
    | nil =>
      dsimp only
      rw [if_neg Bool.false_ne_true, if_neg (fun h => Pending.noConfusion h.1)]
      by_cases hlf : c = LF
      · rw [if_pos hlf]
        refine .inl ⟨t, [.operator [c]], ?_, ht⟩
        simp [perform, hclosed]
      rw [if_neg hlf]
      by_cases hbackslash : c = BACKSLASH
      · rw [if_pos hbackslash]
        exact .inr (.inr ⟨true, rfl, hbackslash ▸ hb, Nat.le_refl 1⟩)
      rw [if_neg hbackslash]
      have hover : ∀ a, a = .space ∨ a = .operator →
          (perform ⟨ts, .word raw, [], false, dollar⟩ c a).tokens = ts ++ [t] := by
        rintro a (rfl | rfl) <;> simp [perform, hclosed]
      by_cases hblank : isblank c = true
      · rw [if_pos hblank]
        exact .inl ⟨t, [], hover _ (.inl rfl), ht⟩
      rw [if_neg hblank]
      have hextends : ¬ (Pending.word raw).extends c = true := Bool.false_ne_true
      rw [if_neg hextends]
      split
      · exact .inl ⟨t, [], hover _ (.inr rfl), ht⟩
      · rw [if_neg fun h => h.2 rfl]
        exact .inr (.inl ⟨[c], opens dollar c, c = DOLLAR, rfl, rfl, Nat.le_refl 1⟩)

/-- One byte behind an operator: it ends the operator, or goes on with it. -/
theorem step_operator (hs : s.pending = .operator raw) (hm : s.modes = []) (c : Byte) :
    (∃ more, (s.step c).tokens = s.tokens ++ .operator raw :: more) ∨
    ∃ raw, (s.step c).pending = .operator raw ∧ (s.step c).modes = [] ∧
      (s.step c).tokens = s.tokens := by
  have hperform : ∀ a, (∃ more, (s.perform c a).tokens = s.tokens ++ .operator raw :: more) ∨
      ∃ raw, (s.perform c a).pending = .operator raw ∧ (s.perform c a).modes = [] ∧
        (s.perform c a).tokens = s.tokens := by
    intro a
    cases a with
    | escape | join | skip => exact .inr ⟨raw, hs, hm, rfl⟩
    | extend =>
      refine .inr ⟨raw ++ [c], ?_⟩
      simp [perform, hs, hm]
    | lineEnd =>
      refine .inl ⟨[.operator [c]], ?_⟩
      simp [perform, hs, Pending.closed]
    | text | space | comment | operator =>
      refine .inl ⟨[], ?_⟩
      simp [perform, hs, Pending.closed]
  exact hperform _

/-- The operator under way is the next token. -/
theorem run_operator (hs : s.pending = .operator raw) (hm : s.modes = []) (text : Str) :
    ∃ raw more, (s.run text).finish = s.tokens ++ .operator raw :: more := by
  induction text generalizing s raw with
  | nil =>
    rw [run_nil, finish]
    cases s.escaped with
    | true =>
      refine ⟨raw, (Pending.word [BACKSLASH]).closed LF, ?_⟩
      simp only [perform, hs, if_true]
      exact List.append_assoc ..
    | false => exact ⟨raw, [], by simp [hs, Pending.closed]⟩
  | cons c text ih =>
    rw [run_cons]
    rcases step_operator hs hm c with ⟨more, hmore⟩ | ⟨raw', hs', hm', htokens⟩
    · obtain ⟨rest, hrest⟩ := finish_run_eq (s.step c) text
      refine ⟨raw, more ++ rest, ?_⟩
      rw [hrest, hmore, List.append_assoc]
      rfl
    · rw [← htokens]
      exact ih hs' hm'

/-- No word begins in a comment. -/
theorem run_comment (hs : s.pending = .comment) (hm : s.modes = []) (he : s.escaped = false)
    (text : Str) : (s.run text).finish = s.tokens ∨
      ∃ raw more, (s.run text).finish = s.tokens ++ .operator raw :: more := by
  induction text with
  | nil =>
    refine .inl ?_
    simp [finish, he, hs, Pending.closed]
  | cons c text ih =>
    rw [run_cons]
    by_cases hlf : c = LF
    · obtain ⟨more, hmore⟩ := finish_run_eq (s.step c) text
      refine .inr ⟨[c], more, ?_⟩
      rw [hmore]
      simp [step, action, perform, hs, hm, he, hlf, Pending.closed]
    · have hskip : s.step c = s := by simp [step, action, perform, hs, hm, he, hlf]
      rw [hskip]
      exact ih

/-- The token of the word under way, and the text it is made of. -/
theorem run_word (hs : s.pending = .word raw) (text : Str) :
    ∃ w rest t more, text = w ++ rest ∧ (s.run text).finish = s.tokens ++ t :: more ∧
      core t.raw = core raw ++ core w ∧
      t.raw.length ≤ raw.length + s.escaped.toNat + w.length := by
  induction text generalizing s raw with
  | nil =>
    have hlast : ∀ last : Str, ∃ t : Token, (Pending.word (raw ++ last)).closed LF = [t] ∧
        t.raw = raw ++ last := fun last => closed_word (raw ++ last) LF
    rw [run_nil, finish]
    cases s.escaped with
    | true =>
      obtain ⟨t, hclosed, ht⟩ := hlast [BACKSLASH]
      refine ⟨[], [], t, [], rfl, ?_, ?_, ?_⟩
      · simp [perform, hs, hclosed]
      · rw [ht, core_append]
        rfl
      · simp [ht]
    | false =>
      obtain ⟨t, hclosed, ht⟩ := hlast []
      rw [List.append_nil] at hclosed ht
      refine ⟨[], [], t, [], rfl, ?_, ?_, ?_⟩
      · simp [hs, hclosed]
      · rw [ht]
        exact (List.append_nil _).symm
      · simp [ht]
  | cons c text ih =>
    rw [run_cons]
    rcases step_word hs c with ⟨t, more, ht, hraw⟩ | ⟨t, modes, dollar, hstep, hcore, hlen⟩ |
      ⟨escaped, hstep, hquotes, hlen⟩
    · obtain ⟨rest, hrest⟩ := finish_run_eq (s.step c) text
      refine ⟨[], c :: text, t, more ++ rest, rfl, ?_, ?_, ?_⟩
      · rw [hrest, ht, List.append_assoc]
        rfl
      · rw [hraw]
        exact (List.append_nil _).symm
      · rw [hraw]
        simp only [List.length_nil]
        omega
    · rw [hstep]
      obtain ⟨w, rest, u, more, rfl, hfinish, hcorew, hlenw⟩ := @ih
        ⟨s.tokens, .word (raw ++ t), modes, false, dollar⟩ (raw ++ t) rfl
      refine ⟨c :: w, rest, u, more, rfl, hfinish, ?_, ?_⟩
      · rw [hcorew, core_append, hcore, List.append_assoc, ← core_append]
        rfl
      · simp only [List.length_append, List.length_cons, Bool.toNat_false] at hlenw ⊢
        omega
    · rw [hstep]
      obtain ⟨w, rest, u, more, rfl, hfinish, hcorew, hlenw⟩ := @ih
        { s with escaped := escaped } raw hs
      refine ⟨c :: w, rest, u, more, rfl, hfinish, ?_, ?_⟩
      · rw [hcorew, core_cons_quotes hquotes]
      · simp only [List.length_cons] at hlenw ⊢
        omega

end

end Scan

/-- A byte that a word can start with. -/
def startsWord (c : Byte) : Bool :=
  c != LF && !isblank c && !isMeta c && c != ch '#'

/-- The first token behind the start of a word. -/
theorem first_word_of_start {raw text w : Str} {more : List Token} {modes : List Mode}
    {dollar : Bool}
    (h : (Scan.run ⟨[], .word raw, modes, false, dollar⟩ text).finish = .word w :: more) :
    ∃ word rest, text = word ++ rest ∧ core w = core (raw ++ word) ∧
      w.length ≤ (raw ++ word).length := by
  obtain ⟨word, rest, t, more', rfl, hfinish, hcore, hlen⟩ :=
    Scan.run_word (s := ⟨[], .word raw, modes, false, dollar⟩) rfl text
  rw [h] at hfinish
  cases hfinish
  refine ⟨word, rest, rfl, ?_, ?_⟩
  · rw [core_append]
    exact hcore
  · rw [List.length_append]
    exact hlen

/-- The first byte: it is left out, or kept for the next one, or starts a word, or else a word is not
what comes first. -/
theorem step_start (c : Byte) :
    (isblank c = true ∧ Scan.start.step c = Scan.start) ∨
    c = BACKSLASH ∨
    (startsWord c = true ∧ ∃ modes dollar,
      Scan.start.step c = ⟨[], .word [c], modes, false, dollar⟩) ∨
    ∀ text w more, ((Scan.start.step c).run text).finish ≠ .word w :: more := by
  by_cases hlf : c = LF
  · subst hlf
    refine .inr (.inr (.inr fun text w more h => ?_))
    obtain ⟨rest, hrest⟩ := Scan.finish_run_eq (Scan.start.step LF) text
    rw [h] at hrest
    cases hrest
  by_cases hbackslash : c = BACKSLASH
  · exact .inr (.inl hbackslash)
  by_cases hblank : isblank c = true
  · refine .inl ⟨hblank, ?_⟩
    simp [Scan.step, Scan.action, Scan.perform, Scan.start, hlf, hbackslash, hblank,
      Pending.closed]
  by_cases hmeta : isMeta c = true
  · refine .inr (.inr (.inr fun text w more h => ?_))
    have hstep : Scan.start.step c = ⟨[], .operator [c], [], false, false⟩ := by
      simp [Scan.step, Scan.action, Scan.perform, Scan.start, hlf, hbackslash, hblank, hmeta,
        Pending.closed, Pending.extends]
    have hpending : (Scan.start.step c).pending = .operator [c] := by rw [hstep]
    have hmodes : (Scan.start.step c).modes = [] := by rw [hstep]
    obtain ⟨raw, rest, hrest⟩ := Scan.run_operator hpending hmodes text
    rw [h, hstep] at hrest
    cases hrest
  by_cases hhash : c = ch '#'
  · subst hhash
    refine .inr (.inr (.inr fun text w more h => ?_))
    rcases Scan.run_comment (s := Scan.start.step (ch '#')) rfl rfl rfl text with
      hrest | ⟨raw, rest, hrest⟩
    · rw [h] at hrest
      cases hrest
    · rw [h] at hrest
      cases hrest
  · refine .inr (.inr (.inl ⟨?_, opens false c, c = DOLLAR, ?_⟩))
    · simp [startsWord, hlf, hblank, hmeta, hhash]
    · simp [Scan.step, Scan.action, Scan.perform, Scan.start, hlf, hbackslash, hblank, hmeta,
        hhash, Pending.closed, Pending.extends]

theorem quotes_of_isblank {c : Byte} (h : isblank c = true) : quotes c = false := by
  unfold isblank at h
  rcases Bool.or_eq_true_iff.1 h with h | h <;> rw [eq_of_beq h] <;> decide

theorem quotes_of_isMeta {c : Byte} (h : isMeta c = true) : quotes c = false := by
  have hall : (bytes "|&;<>()").all fun c => !quotes c := by decide
  simpa using List.all_eq_true.1 hall c (List.contains_iff_mem.1 h)

/-- If the first token is a word, it is made of a part of the text that stands behind blanks and
joined lines. -/
theorem first_word {text w : Str} {more : List Token} (h : tokens text = .word w :: more) :
    ∃ gap word rest, text = gap ++ word ++ rest ∧ (∀ c ∈ core gap, isblank c = true) ∧
      (∀ c, word.head? = some c → startsWord c = true) ∧
      core w = core word ∧ w.length ≤ word.length := by
  induction hn : text.length using Nat.strong_induction_on generalizing text with
  | _ n ih =>
    subst hn
    cases text with
    | nil => cases h
    | cons c text =>
      have hrun : ((Scan.start.step c).run text).finish = .word w :: more := h
      rcases step_start c with ⟨hblank, hstep⟩ | rfl | ⟨hstart, modes, dollar, hstep⟩ | hnone
      · rw [hstep] at hrun
        obtain ⟨gap, word, rest, rfl, hgap, hword⟩ := ih _ (Nat.lt_succ_self _) hrun rfl
        refine ⟨c :: gap, word, rest, rfl, ?_, hword⟩
        rw [core_cons (quotes_of_isblank hblank)]
        exact List.forall_mem_cons.2 ⟨hblank, hgap⟩
      · have hbackslash : ∀ c, some BACKSLASH = some c → startsWord c = true := by
          intro c hc
          cases hc
          decide
        cases text with
        | nil =>
          cases h
          exact ⟨[], [BACKSLASH], [], rfl, nofun, hbackslash, rfl, Nat.le_refl 1⟩
        | cons d text =>
          rw [Scan.run_cons] at hrun
          by_cases hd : d = LF
          -- the line is joined with the next one
          · subst hd
            have hlt : text.length < (BACKSLASH :: LF :: text).length := by
              simp only [List.length_cons]
              omega
            obtain ⟨gap, word, rest, rfl, hgap, hword⟩ := ih _ hlt hrun rfl
            exact ⟨BACKSLASH :: LF :: gap, word, rest, rfl, hgap, hword⟩
          · have hstep : (Scan.start.step BACKSLASH).step d =
                ⟨[], .word [BACKSLASH, d], [], false, false⟩ := by
              have haction : (Scan.start.step BACKSLASH).action d = .text [BACKSLASH, d] [] false :=
                if_neg hd
              unfold Scan.step at haction ⊢
              rw [haction]
              rfl
            rw [hstep] at hrun
            obtain ⟨word, rest, rfl, hword⟩ := first_word_of_start hrun
            exact ⟨[], BACKSLASH :: d :: word, rest, rfl, nofun, hbackslash, hword⟩
      · rw [hstep] at hrun
        obtain ⟨word, rest, rfl, hword⟩ := first_word_of_start hrun
        refine ⟨[], c :: word, rest, rfl, nofun, ?_, hword⟩
        intro d hd
        cases hd
        exact hstart
      · exact absurd hrun (hnone text w more)

/-- A text that goes on with itself behind blanks is all blanks. -/
theorem forall_of_append_eq {P : Byte → Prop} {s gap rest : Str} (hgap : ∀ c ∈ gap, P c)
    (hne : rest ≠ []) (h : s ++ rest = gap ++ s) : ∀ c ∈ s, P c := by
  induction hn : s.length using Nat.strong_induction_on generalizing s with
  | _ n ih =>
    subst hn
    rcases List.append_eq_append_iff.1 h with ⟨t, rfl, -⟩ | ⟨t, hgt, htr⟩
    · exact fun c hc => hgap c (List.mem_append_left t hc)
    · have hlt : t.length < s.length := by
        have hpos : 0 < rest.length := List.length_pos_iff.2 hne
        rw [htr, List.length_append]
        omega
      have ht : ∀ c ∈ t, P c := ih t.length hlt (htr.symm.trans hgt) rfl
      rw [hgt]
      intro c hc
      rcases List.mem_append.1 hc with hc | hc
      · exact hgap c hc
      · exact ht c hc

/-- A blank, an operator and the end of the line end a word that nothing is open in. -/
theorem step_word_ends {c : Byte} (hc : c = LF ∨ isblank c = true ∨ isMeta c = true)
    (raw : Str) :
    ∃ t more, (Scan.step ⟨[], .word raw, [], false, false⟩ c).tokens = t :: more ∧
      t.raw = raw := by
  obtain ⟨t, hclosed, ht⟩ := Scan.closed_word raw c
  have hbackslash : c ≠ BACKSLASH := by
    rintro rfl
    exact absurd hc (by decide)
  by_cases hlf : c = LF
  · refine ⟨t, [.operator [c]], ?_, ht⟩
    simp [Scan.step, Scan.action, Scan.perform, hlf, hlf ▸ hclosed]
  by_cases hblank : isblank c = true
  · refine ⟨t, [], ?_, ht⟩
    simp [Scan.step, Scan.action, Scan.perform, hlf, hbackslash, hblank, hclosed]
  · have hmeta : isMeta c = true := by simpa [hlf, hblank] using hc
    refine ⟨t, [], ?_, ht⟩
    simp [Scan.step, Scan.action, Scan.perform, hlf, hbackslash, hblank, hmeta, hclosed,
      Pending.extends]

section
variable {a w post : Str} {more : List Token} {x : Byte}

/-- No byte of a word that is its own argument is special. -/
theorem literal_of_argument_self (h : tokens (a ++ post) = .word a :: more)
    (hstart : ∀ c, a.head? = some c → startsWord c = true) (ha : argument a = some a) :
    Literal a := by
  obtain ⟨marked, hunquote, hmarked, hglobs, htilde⟩ := argument_spec ha
  obtain ⟨rfl, hself⟩ := unquote_eq_self hunquote hmarked
  have hhash : a.head? ≠ some (ch '#') := fun hc => absurd (hstart _ hc) (by decide)
  suffices hfind : a.find? special = none from
    ⟨fun c hc => Bool.eq_false_iff.2 (List.find?_eq_none.1 hfind c hc), hhash, htilde, hglobs⟩
  cases hfind : a.find? special with
  | none => rfl
  | some c =>
    exfalso
    obtain ⟨hc, p, q, rfl, hp⟩ := List.find?_eq_some_iff_append.1 hfind
    -- it is no quote and no expansion, so it ends the word
    obtain ⟨hb, hs, hd, he⟩ := hself c (by simp)
    have hends : c = LF ∨ isblank c = true ∨ isMeta c = true := by
      simpa [special, hb, hs, hd, he, or_assoc] using hc
    cases p with
    | nil =>
      have hword := hstart c rfl
      rcases hends with hend | hend | hend <;> simp [startsWord, hend] at hword
    | cons b p =>
      have hplain : ∀ d ∈ b :: p, special d = false := fun d hmem => by simpa using hp d hmem
      obtain ⟨t, rest, htokens, ht⟩ := step_word_ends hends (b :: p)
      have hrun : tokens (b :: p ++ c :: q ++ post) =
          ((Scan.step ⟨[], .word (b :: p), [], false, false⟩ c).run (q ++ post)).finish := by
        unfold tokens
        rw [List.append_assoc, Scan.run_append, run_start_plain hplain hhash (List.cons_ne_nil b p)]
        rfl
      obtain ⟨more', hmore⟩ :=
        Scan.finish_run_eq (Scan.step ⟨[], .word (b :: p), [], false, false⟩ c) (q ++ post)
      rw [← hrun, h, htokens, List.cons_append] at hmore
      have hraw : b :: p ++ c :: q = b :: p :=
        (congrArg Token.raw (List.cons.inj hmore).1).trans ht
      simp at hraw

/-- The place ends where the word ends. -/
theorem word_eq_of_argument (hx : x ∈ a) (hquotes : quotes x = false) (hblank : isblank x = false)
    (hpost : Delimited post) (h : tokens (a ++ post) = .word w :: more)
    (ha : argument w = some a) :
    w = a ∧ ∀ c, a.head? = some c → startsWord c = true := by
  obtain ⟨gap, word, rest, htext, hgap, hstart, hcore, hlen⟩ := first_word h
  obtain ⟨marked, hunquote, hmarked, -⟩ := argument_spec ha
  obtain ⟨hcorea, hsub⟩ := unquote_spec hunquote
  rw [hmarked] at hcorea hsub
  have hxcore : x ∈ core a := by simp [core, hx, hquotes]
  have hnotblank : ¬ ∀ c ∈ core a, isblank c = true := by
    intro hall
    rw [hall x hxcore] at hblank
    cases hblank
  -- what the word holds of `post` would be missing in `a`
  have hinside : ∀ u, gap ++ word = a ++ u → post = u ++ rest → u = [] := by
    intro u hu hpostu
    cases u with
    | nil => rfl
    | cons d u =>
      exfalso
      apply hnotblank
      have hd : quotes d = false := by
        rcases hpost d (by rw [hpostu]; rfl) with hd | hd
        · exact quotes_of_isblank hd
        · exact quotes_of_isMeta hd
      rcases List.append_eq_append_iff.1 hu with ⟨v, hv, hword⟩ | ⟨v, hv, -⟩
      · rw [hcore, hv, hword, core_append, core_append, core_cons hd] at hcorea
        have hall := forall_of_append_eq hgap (List.cons_ne_nil d (core u)) hcorea.symm
        intro c hc
        rw [hv, core_append] at hc
        rcases List.mem_append.1 hc with hc | hc
        · exact hgap c hc
        · exact hall c hc
      · intro c hc
        apply hgap
        rw [hv, core_append]
        exact List.mem_append_left _ hc
  have hlena : a.length ≤ w.length := hsub.length_le
  have hword : ∃ u, a = gap ++ word ++ u := by
    rcases List.append_eq_append_iff.1 htext with ⟨u, hu, hpostu⟩ | ⟨u, hu, -⟩
    · refine ⟨[], ?_⟩
      rw [hu, hinside u hu hpostu, List.append_nil, List.append_nil]
    · exact ⟨u, hu⟩
  obtain ⟨u, hu⟩ := hword
  have hsum := congrArg List.length hu
  rw [List.length_append, List.length_append] at hsum
  have hgapnil : gap = [] := List.length_eq_zero_iff.1 (by omega)
  have hunil : u = [] := List.length_eq_zero_iff.1 (by omega)
  have hword : word = a := by rw [hu, hgapnil, hunil, List.nil_append, List.append_nil]
  rw [hword] at hstart hlen
  exact ⟨(hsub.eq_of_length_le hlen).symm, hstart⟩

/-- **Arguments.** Where a word stands before a delimiter, a text with something to show that is put
there is read as one word that has the text for its argument exactly when the text is literal. -/
theorem argument_iff (hx : x ∈ a) (hquotes : quotes x = false) (hblank : isblank x = false)
    (hdigit : isdigit x = false) (hpost : Delimited post) :
    (∃ w more, tokens (a ++ post) = .word w :: more ∧ argument w = some a) ↔ Literal a := by
  constructor
  · rintro ⟨w, more, h, ha⟩
    obtain ⟨rfl, hstart⟩ := word_eq_of_argument hx hquotes hblank hpost h ha
    exact literal_of_argument_self h hstart ha
  · intro h
    have hdigits : ¬ a.all isdigit = true := by
      intro hall
      rw [List.all_eq_true.1 hall x hx] at hdigit
      cases hdigit
    exact ⟨a, tokens post, h.tokens_append hdigits hpost, h.argument_eq⟩

end

end Lib.Shell
