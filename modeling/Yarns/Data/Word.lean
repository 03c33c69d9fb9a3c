import Mathlib.Algebra.Group.Nat.Defs
import Mathlib.Order.Defs.LinearOrder
import Mathlib.Data.List.Nodup
import Mathlib.Data.List.Perm.Subperm

/-!
# Machine words

`unsigned long` of an LP64 target, with its unsigned order. Arithmetic wraps.
-/

namespace Yarns

/-- `unsigned long`; pids, times, tokens and pointers are such words. -/
abbrev ULong := BitVec 64

/-- `~0UL`. -/
abbrev ulongMax : ULong := BitVec.allOnes 64

instance : LinearOrder ULong where
  le_refl := BitVec.le_refl
  le_trans := fun _ _ _ => BitVec.le_trans
  le_antisymm := fun _ _ => BitVec.le_antisymm
  le_total := BitVec.le_total
  lt_iff_le_not_ge := fun a b => by
    rw [BitVec.not_le]
    exact ⟨fun h => ⟨BitVec.le_of_lt h, h⟩, fun h => h.2⟩
  toDecidableLE := inferInstance
  toDecidableLT := inferInstance
  toDecidableEq := inferInstance

/-- The one for a decidable equality, before the order offers another. -/
instance : LawfulBEq ULong := instLawfulBEq

theorem ulongMax_toNat : ulongMax.toNat = 2 ^ 64 - 1 := rfl

theorem zero_toNat : (0 : ULong).toNat = 0 := rfl

theorem ulong_pos {x : ULong} (h : x ≠ 0) : 0 < x := by bv_omega

theorem le_ulongMax (a : ULong) : a ≤ ulongMax := by
  rw [BitVec.le_def, ulongMax_toNat]
  have := a.isLt
  omega

/-- A list of distinct non-null words is shorter than `2 ^ 64`. -/
theorem length_lt_of_nodup {l : List ULong} (h : l.Nodup) (h0 : (0 : ULong) ∉ l) :
    l.length < 2 ^ 64 := by
  have h1 : ((0 : ULong) :: l).Nodup := List.nodup_cons.mpr ⟨h0, h⟩
  have h2 : (((0 : ULong) :: l).map BitVec.toNat).Nodup :=
    List.Nodup.map (fun _ _ => BitVec.eq_of_toNat_eq) h1
  have h3 : ((0 : ULong) :: l).map BitVec.toNat ⊆ List.range (2 ^ 64) := by
    intro n hn
    obtain ⟨a, _, rfl⟩ := List.mem_map.mp hn
    exact List.mem_range.mpr a.isLt
  have h4 := (h2.subperm h3).length_le
  simp only [List.map_cons, List.length_cons, List.length_map, List.length_range] at h4
  omega

end Yarns
