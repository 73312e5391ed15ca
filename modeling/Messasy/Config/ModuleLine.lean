import Messasy.Config.LoadModule
import Messasy.Lib.Words

/-!
# The grammar of a module line (`msy_readmodule.c`)

A line that registers a module is `LoadModule`, a name and a path with one blank between them, and
blanks behind them (`ModuleLine`). The scan ends a word at every blank, so that two blanks have an
empty word between them; `loadModule_eq_some` says exactly what it takes for a name and a path.
-/

namespace Messasy

open Lib

/-- A text without a blank, which may be empty. -/
def Unbroken (s : Str) : Prop := ∀ c ∈ s, isblank c = false

/-- The parts that the scan finds in a line: the word `LoadModule`, a name and a path, each behind
one blank, and blanks. A path at the end of the line is not empty. -/
structure LineParts (line modname modpath : Str) : Prop where
  split : ∃ (head : Str) (b b' : Byte) (tail : Str),
    line = head ++ b :: (modname ++ b' :: (modpath ++ tail)) ∧ caseEq head MODSTR = true ∧
    isblank b = true ∧ isblank b' = true ∧ Blank isblank tail ∧ (modpath = [] → tail ≠ [])
  modname : Unbroken modname
  modpath : Unbroken modpath

section
variable {line s modname modpath : Str} {status : LineStatus} {b : Byte}

/-- A text is unbroken, or it has a first blank. -/
theorem unbroken_cases (s : Str) : Unbroken s ∨
    ∃ w b rest, s = w ++ b :: rest ∧ Unbroken w ∧ isblank b = true := by
  induction s with
  | nil => exact .inl nofun
  | cons c s ih =>
    cases hc : isblank c with
    | true =>
      have hnil : Unbroken [] := nofun
      exact .inr ⟨[], c, s, rfl, hnil, hc⟩
    | false =>
      rcases ih with hs | ⟨w, b, rest, rfl, hw, hb⟩
      · exact .inl (List.forall_mem_cons.2 ⟨hc, hs⟩)
      · exact .inr ⟨c :: w, b, rest, rfl, List.forall_mem_cons.2 ⟨hc, hw⟩, hb⟩

/-- The scan of a word. -/
theorem readModuleLine_append (hs : ∀ h m p, status ≠ .end_ h m p) (rest : Str) :
    ∀ (w : Str) (ptmp : Option Str), Unbroken w →
      readModuleLine status ptmp (w ++ rest) =
        readModuleLine status (if w = [] then ptmp else some (ptmp.getD [] ++ w)) rest
  | [], ptmp, _ => by rw [List.nil_append, if_pos rfl]
  | c :: w, ptmp, hw => by
    have hc : isblank c = false := hw c List.mem_cons_self
    have ih := readModuleLine_append hs rest w (some (ptmp.getD [] ++ [c]))
      fun d hd => hw d (List.mem_cons_of_mem c hd)
    have hword : (if w = [] then some (ptmp.getD [] ++ [c])
        else some ((some (ptmp.getD [] ++ [c])).getD [] ++ w)) = some (ptmp.getD [] ++ c :: w) := by
      split
      · rename_i hnil
        rw [hnil]
      · rw [Option.getD_some, List.append_assoc, List.singleton_append]
    rw [hword] at ih
    have hstep : readModuleLine status ptmp (c :: (w ++ rest)) =
        readModuleLine status (some (ptmp.getD [] ++ [c])) (w ++ rest) := by
      cases status with
      | end_ h m p => exact absurd rfl (hs h m p)
      | _ => simp only [readModuleLine, hc, Bool.false_eq_true, if_false]
    rw [List.cons_append, hstep, ih, if_neg (List.cons_ne_nil c w)]

/-- A word and the blank that ends it. -/
theorem readModuleLine_word (hs : ∀ h m p, status ≠ .end_ h m p) {w : Str} (hw : Unbroken w)
    (hb : isblank b = true) (rest : Str) :
    readModuleLine status none (w ++ b :: rest) = readModuleLine (status.word w) none rest := by
  have hstep : ∀ ptmp, readModuleLine status ptmp (b :: rest) =
      readModuleLine (status.word (ptmp.getD [])) none rest := fun ptmp => by
    cases status <;> simp only [readModuleLine, hb, if_true]
  rw [readModuleLine_append hs (b :: rest) w none hw, hstep]
  by_cases hnil : w = []
  · rw [if_pos hnil, hnil]
    rfl
  · rw [if_neg hnil]
    rfl

/-- The last word, which ends with the line. -/
theorem readModuleLine_whole (hs : ∀ h m p, status ≠ .end_ h m p) (hw : Unbroken s) :
    readModuleLine status none s = some (status, if s = [] then none else some s) := by
  have happend := readModuleLine_append hs [] s none hw
  rw [List.append_nil] at happend
  rw [happend]
  rfl

/-- Behind the path there are blanks only. -/
theorem readModuleLine_end (h m p : Str) (ptmp : Option Str) (s : Str) :
    (Blank isblank s → ∃ ptmp', readModuleLine (.end_ h m p) ptmp s = some (.end_ h m p, ptmp')) ∧
    (¬ Blank isblank s → readModuleLine (.end_ h m p) ptmp s = none) := by
  induction s generalizing ptmp with
  | nil => exact ⟨fun _ => ⟨ptmp, rfl⟩, fun hs => absurd Blank.nil hs⟩
  | cons c s ih =>
    rw [readModuleLine]
    cases hc : isblank c with
    | true =>
      have hiff : Blank isblank (c :: s) ↔ Blank isblank s := by
        simp only [Blank, List.forall_mem_cons, hc, true_and]
      rw [hiff, if_pos rfl]
      exact ih none
    | false =>
      rw [if_neg Bool.false_ne_true]
      refine ⟨fun hs => ?_, fun _ => rfl⟩
      rw [hs c List.mem_cons_self] at hc
      cases hc

/-- `LoadModule` in any case has no blank. -/
theorem unbroken_of_modstr {head : Str} (h : caseEq head MODSTR = true) : Unbroken head := by
  intro c hc
  have hlow : tolower c ∈ lower MODSTR := by
    rw [← caseEq_iff.1 h]
    exact List.mem_map_of_mem hc
  have hmodstr : ∀ d ∈ lower MODSTR, isblank d = false := by decide +kernel
  rw [← isblank_tolower]
  exact hmodstr _ hlow

theorem LineStatus.head_ne_end (h m p : Str) : LineStatus.head ≠ .end_ h m p := nofun

theorem LineStatus.modname_ne_end (w h m p : Str) : LineStatus.modname w ≠ .end_ h m p := nofun

theorem LineStatus.path_ne_end (w x h m p : Str) : LineStatus.path w x ≠ .end_ h m p := nofun

/-- The scan finds the parts of a line. -/
theorem LineParts.loadModule (hl : LineParts line modname modpath) :
    Messasy.loadModule line = some (modname, modpath) := by
  obtain ⟨⟨head, b, b', tail, rfl, hcase, hb, hb', htail, hend⟩, hm, hp⟩ := hl
  have hw := unbroken_of_modstr hcase
  unfold Messasy.loadModule
  rw [readModuleLine_word LineStatus.head_ne_end hw hb, LineStatus.word,
    readModuleLine_word (LineStatus.modname_ne_end head) hm hb', LineStatus.word]
  cases tail with
  | nil =>
    have hnil : modpath ≠ [] := fun h => hend h rfl
    rw [List.append_nil, readModuleLine_whole (LineStatus.path_ne_end head modname) hp,
      if_neg hnil]
    exact if_pos hcase
  | cons b'' tail =>
    obtain ⟨hb'', htail⟩ := List.forall_mem_cons.1 htail
    obtain ⟨ptmp, hrest⟩ := (readModuleLine_end head modname modpath none tail).1 htail
    rw [readModuleLine_word (LineStatus.path_ne_end head modname) hp hb'', LineStatus.word, hrest]
    exact if_pos hcase

/-- **What the scan takes from a line.** -/
theorem loadModule_eq_some :
    loadModule line = some (modname, modpath) ↔ LineParts line modname modpath := by
  refine ⟨fun h => ?_, LineParts.loadModule⟩
  unfold loadModule at h
  rcases unbroken_cases line with hl | ⟨w, b, r, rfl, hw, hb⟩
  · rw [readModuleLine_whole LineStatus.head_ne_end hl] at h
    cases h
  rw [readModuleLine_word LineStatus.head_ne_end hw hb, LineStatus.word] at h
  rcases unbroken_cases r with hr | ⟨m, b', r', rfl, hm, hb'⟩
  · rw [readModuleLine_whole (LineStatus.modname_ne_end w) hr] at h
    cases h
  rw [readModuleLine_word (LineStatus.modname_ne_end w) hm hb', LineStatus.word] at h
  rcases unbroken_cases r' with hr' | ⟨p, b'', t, rfl, hp, hb''⟩
  · rw [readModuleLine_whole (LineStatus.path_ne_end w m) hr'] at h
    by_cases hnil : r' = []
    · rw [if_pos hnil] at h
      cases h
    · rw [if_neg hnil] at h
      obtain ⟨hcase, hwords⟩ := Option.ite_none_right_eq_some.1 h
      cases hwords
      exact ⟨⟨w, b, b', [], by rw [List.append_nil], hcase, hb, hb', Blank.nil,
        fun h => absurd h hnil⟩, hm, hr'⟩
  · rw [readModuleLine_word (LineStatus.path_ne_end w m) hp hb'', LineStatus.word] at h
    by_cases ht : Blank isblank t
    · obtain ⟨ptmp, hend⟩ := (readModuleLine_end w m p none t).1 ht
      rw [hend] at h
      obtain ⟨hcase, hwords⟩ := Option.ite_none_right_eq_some.1 h
      cases hwords
      exact ⟨⟨w, b, b', b'' :: t, rfl, hcase, hb, hb', List.forall_mem_cons.2 ⟨hb'', ht⟩,
        fun _ => List.cons_ne_nil _ _⟩, hm, hp⟩
    · rw [(readModuleLine_end w m p none t).2 ht] at h
      cases h

end

/-! ## The lines of a file -/

/-- A line with `LoadModule`, a name and a path, neither of them empty. -/
structure ModuleLine (line modname modpath : Str) : Prop where
  split : ∃ (head : Str) (b b' : Byte) (tail : Str),
    line = head ++ b :: (modname ++ b' :: (modpath ++ tail)) ∧ caseEq head MODSTR = true ∧
    isblank b = true ∧ isblank b' = true ∧ Blank isblank tail
  modname : Word isblank modname
  modpath : Word isblank modpath

/-- A line behind whose `LoadModule` or name a blank stands where a word should begin. -/
def EmptyWord (line : Str) : Prop := ∃ modname modpath, LineParts line modname modpath ∧
  (modname = [] ∨ modpath = [])

/-- Libraries that can all be read and opened. -/
def Libraries.openAll {P : Type} (dlopen : Str → Library P) : Libraries P :=
  ⟨fun _ => true, fun path => some (dlopen path)⟩

section
variable {P : Type} {line : Str}

theorem ModuleLine.lineParts {modname modpath : Str} (h : ModuleLine line modname modpath) :
    LineParts line modname modpath := by
  obtain ⟨⟨head, b, b', tail, hline, hcase, hb, hb', htail⟩, hm, hp⟩ := h
  exact ⟨⟨head, b, b', tail, hline, hcase, hb, hb', htail, fun h => absurd h hp.ne_nil⟩, hm.plain,
    hp.plain⟩

theorem LineParts.moduleLine {modname modpath : Str} (h : LineParts line modname modpath)
    (hm : modname ≠ []) (hp : modpath ≠ []) : ModuleLine line modname modpath := by
  obtain ⟨⟨head, b, b', tail, hline, hcase, hb, hb', htail, -⟩, hmodname, hmodpath⟩ := h
  exact ⟨⟨head, b, b', tail, hline, hcase, hb, hb', htail⟩, ⟨hm, hmodname⟩, ⟨hp, hmodpath⟩⟩

/-- A line that is not a comment, when every library can be opened. -/
theorem readModuleLines_openAll (dlopen : Str → Library P) (hline : skipped line = false)
    (lines : List Str) (list : List (Modulehandle P)) :
    readModuleLines (.openAll dlopen) (line :: lines) list =
      match loadModule line with
      | none => (-1, list)
      | some (modname, modpath) =>
        readModuleLines (.openAll dlopen) lines (⟨modname, dlopen modpath⟩ :: list) := by
  rw [readModuleLines, hline, if_neg Bool.false_ne_true]
  cases loadModule line <;> rfl

/-- **Which lines register a module.** At any place in the file a line of the grammar registers its
name with the library that its path opens, and every other line ends the reading with an error and
registers nothing, unless a blank stands in it where a word should begin. -/
theorem readModuleLines_moduleLine (dlopen : Str → Library P) (hline : skipped line = false)
    (lines : List Str) (list : List (Modulehandle P)) :
    (∀ modname modpath, ModuleLine line modname modpath →
      readModuleLines (.openAll dlopen) (line :: lines) list =
        readModuleLines (.openAll dlopen) lines (⟨modname, dlopen modpath⟩ :: list)) ∧
    ((∀ modname modpath, ¬ ModuleLine line modname modpath) → ¬ EmptyWord line →
      readModuleLines (.openAll dlopen) (line :: lines) list = (-1, list)) := by
  rw [readModuleLines_openAll dlopen hline]
  refine ⟨fun modname modpath h => ?_, fun hno hempty => ?_⟩
  · rw [loadModule_eq_some.2 h.lineParts]
  · cases hload : loadModule line with
    | none => rfl
    | some x =>
      obtain ⟨modname, modpath⟩ := x
      have hparts := loadModule_eq_some.1 hload
      have hm : modname ≠ [] := fun h => hempty ⟨modname, modpath, hparts, .inl h⟩
      have hp : modpath ≠ [] := fun h => hempty ⟨modname, modpath, hparts, .inr h⟩
      exact absurd (hparts.moduleLine hm hp) (hno modname modpath)

end

/-- A library whose functions are told by its path. -/
def pathLibrary (path : Str) : Library Str := Lm.lda.library fun _ _ => some path

/-- A line in lower case with a tabulator and blanks at its end, and one without a path. -/
theorem readModuleLines_moduleLine_gzip :
    readModuleLines (.openAll pathLibrary) [bytes "loadmodule\tgzip /g.so  "] [] =
      readModuleLines (.openAll pathLibrary) [] [⟨bytes "gzip", pathLibrary (bytes "/g.so")⟩] ∧
    readModuleLines (.openAll pathLibrary) [bytes "LoadModule gzip"] [] = (-1, []) := by
  have hparts : LineParts (bytes "loadmodule\tgzip /g.so  ") (bytes "gzip") (bytes "/g.so") :=
    loadModule_eq_some.1 (by decide +kernel)
  have hnone : ∀ modname modpath, ¬ LineParts (bytes "LoadModule gzip") modname modpath := by
    intro modname modpath h
    have hload : loadModule (bytes "LoadModule gzip") = none := by decide +kernel
    cases hload.symm.trans h.loadModule
  constructor
  · exact (readModuleLines_moduleLine pathLibrary (by decide +kernel) [] []).1 _ _
      (hparts.moduleLine (by decide) (by decide))
  · exact (readModuleLines_moduleLine pathLibrary (by decide +kernel) [] []).2
      (fun modname modpath h => hnone modname modpath h.lineParts)
      fun ⟨modname, modpath, h, _⟩ => hnone modname modpath h

/-- Two blanks in front of the name: the line is refused. -/
theorem not_moduleLine_doubled :
    bytes "LoadModule  lda /l.so" =
      bytes "LoadModule" ++ bytes "  " ++ bytes "lda" ++ bytes " " ++ bytes "/l.so" ∧
    readModuleLines (.openAll pathLibrary) [bytes "LoadModule  lda /l.so"] [] = (-1, []) := by
  have hnone : loadModule (bytes "LoadModule  lda /l.so") = none := by decide +kernel
  refine ⟨by decide +kernel, ?_⟩
  rw [readModuleLines_openAll pathLibrary (by decide +kernel), hnone]

end Messasy
