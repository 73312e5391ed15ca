import Mathlib.Data.List.Pairwise
import Messasy.Lib.Memory

/-!
# Struct layout

The C rule: a member starts at the next multiple of its alignment behind the member before it.
Members do not overlap (`extents_disjoint`) and lie inside the struct (`extent_inside`).
-/

namespace Lib

/-- The size and the alignment of a C type. -/
structure CType where
  size : Nat
  align : Nat
  deriving DecidableEq, Repr

def roundUp (n align : Nat) : Nat := (n + align - 1) / align * align

theorem le_roundUp {n align : Nat} (h : 0 < align) : n ≤ roundUp n align := by
  unfold roundUp
  have hdiv := Nat.div_add_mod (n + align - 1) align
  have hmod := Nat.mod_lt (n + align - 1) h
  rw [Nat.mul_comm] at hdiv
  omega

section
variable {F : Type} (ctype : F → CType)

/-- The members with their ranges, from the offset `off` on. -/
def placeMembers : Nat → List F → List (F × Extent)
  | _, [] => []
  | off, f :: fs =>
    let start := roundUp off (ctype f).align
    (f, ⟨start, (ctype f).size⟩) :: placeMembers (start + (ctype f).size) fs

/-- The end of the last member. -/
def membersEnd : Nat → List F → Nat
  | off, [] => off
  | off, f :: fs => membersEnd (roundUp off (ctype f).align + (ctype f).size) fs

def structAlign (fs : List F) : Nat := fs.foldr (fun f n => max (ctype f).align n) 1

/-- `sizeof`. -/
def structSize (fs : List F) : Nat := roundUp (membersEnd ctype 0 fs) (structAlign ctype fs)

/-- The range of a member; `offsetof` is its start. -/
def memberExtent [DecidableEq F] (fs : List F) (f : F) : Extent :=
  (((placeMembers ctype 0 fs).find? fun x => x.1 = f).map Prod.snd).getD ⟨0, 0⟩

variable {ctype}

theorem structAlign_pos : ∀ fs : List F, 0 < structAlign ctype fs
  | [] => Nat.one_pos
  | _ :: fs => Nat.lt_of_lt_of_le (structAlign_pos fs) (Nat.le_max_right _ _)

theorem le_membersEnd (h : ∀ f, 0 < (ctype f).align) : ∀ (off : Nat) (fs : List F),
    off ≤ membersEnd ctype off fs
  | off, [] => Nat.le_refl off
  | off, f :: fs => by
    have hstart := le_roundUp (n := off) (h f)
    have hend := le_membersEnd h (roundUp off (ctype f).align + (ctype f).size) fs
    show off ≤ membersEnd ctype (roundUp off (ctype f).align + (ctype f).size) fs
    omega

/-- Every member lies behind `off` and before the end. -/
theorem placeMembers_bounds (h : ∀ f, 0 < (ctype f).align) : ∀ (off : Nat) (fs : List F),
    ∀ x ∈ placeMembers ctype off fs, off ≤ x.2.start ∧ x.2.stop ≤ membersEnd ctype off fs ∧
      x.2.width = (ctype x.1).size
  | _, [], x, hx => by cases hx
  | off, f :: fs, x, hx => by
    have hstart := le_roundUp (n := off) (h f)
    rcases List.mem_cons.1 hx with rfl | hx
    · exact ⟨hstart, le_membersEnd h _ fs, rfl⟩
    · obtain ⟨hlo, hhi, hw⟩ := placeMembers_bounds h _ fs x hx
      refine ⟨?_, hhi, hw⟩
      omega

theorem placeMembers_disjoint (h : ∀ f, 0 < (ctype f).align) : ∀ (off : Nat) (fs : List F),
    (placeMembers ctype off fs).Pairwise fun x y => x.2.Disjoint y.2
  | _, [] => List.Pairwise.nil
  | off, f :: fs => by
    refine List.Pairwise.cons (fun y hy => .inl ?_) (placeMembers_disjoint h _ fs)
    exact (placeMembers_bounds h _ fs y hy).1

theorem placeMembers_fst : ∀ (off : Nat) (fs : List F),
    (placeMembers ctype off fs).map Prod.fst = fs
  | _, [] => rfl
  | _, f :: fs => congrArg (f :: ·) (placeMembers_fst _ fs)

variable [DecidableEq F] {fs : List F} {f g : F}

theorem memberExtent_mem (hf : f ∈ fs) :
    (f, memberExtent ctype fs f) ∈ placeMembers ctype 0 fs := by
  have hfst : (placeMembers ctype 0 fs).map Prod.fst = fs := placeMembers_fst 0 fs
  rw [← hfst] at hf
  obtain ⟨x, hx, rfl⟩ := List.mem_map.1 hf
  unfold memberExtent
  cases hfind : (placeMembers ctype 0 fs).find? fun y => y.1 = x.1 with
  | none => exact absurd (decide_eq_true rfl) (List.find?_eq_none.1 hfind x hx)
  | some y =>
    have hy : y.1 = x.1 := by simpa using List.find?_some hfind
    rw [← hy]
    exact List.mem_of_find?_eq_some hfind

/-- A member lies inside its struct. -/
theorem memberExtent_inside (h : ∀ f, 0 < (ctype f).align) (hf : f ∈ fs) :
    (memberExtent ctype fs f).Inside ⟨0, structSize ctype fs⟩ ∧
      (memberExtent ctype fs f).width = (ctype f).size := by
  obtain ⟨-, hhi, hw⟩ := placeMembers_bounds h 0 fs _ (memberExtent_mem hf)
  have hround : membersEnd ctype 0 fs ≤ structSize ctype fs := le_roundUp (structAlign_pos fs)
  refine ⟨⟨Nat.zero_le _, ?_⟩, hw⟩
  show (memberExtent ctype fs f).stop ≤ 0 + structSize ctype fs
  rw [Nat.zero_add]
  exact Nat.le_trans hhi hround

/-- Two members do not overlap. -/
theorem memberExtent_disjoint (h : ∀ f, 0 < (ctype f).align) (hf : f ∈ fs) (hg : g ∈ fs)
    (hne : f ≠ g) : (memberExtent ctype fs f).Disjoint (memberExtent ctype fs g) := by
  have : Std.Symm fun x y : F × Extent => x.2.Disjoint y.2 := ⟨fun _ _ h => h.symm⟩
  have hpair := placeMembers_disjoint h 0 fs
  exact hpair.forall (memberExtent_mem hf) (memberExtent_mem hg) fun he => hne (congrArg Prod.fst he)

end

end Lib
