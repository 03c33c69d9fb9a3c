import Mathlib.Algebra.BigOperators.Ring.Finset
import Mathlib.Algebra.Order.Floor.Semiring
import Mathlib.Data.Finset.Lattice.Fold
import Mathlib.Data.Fintype.Basic
import Mathlib.Data.Rat.Floor
import Mathlib.Order.Interval.Finset.Nat
import Mathlib.Order.Lattice.Nat
import Yarns.Base.Run
import Yarns.Sched.Fair

/-!
# Virtual time

The rounds of `select` and `reschedule` of `sched/sched_fair.c` on a fixed set `ι` of two
or more tasks, with times that are natural numbers and the product with the inverse weight
taken exactly and truncated. A timeline maps every task to its timebase; no two tasks have
the same one. In a round the task with the least timebase gets a slice, uses some of it,
and is inserted again.
-/

namespace Yarns

structure Timeline (ι : Type) where
  timebase : ι → ℕ
  injective : Function.Injective timebase
  timebaseOffset : ℕ

namespace Timeline

/-- `SCHED_FAIR_MIN_GRANULARITY`. -/
def granularity : ℕ := 50

variable {ι : Type} [Fintype ι] [DecidableEq ι] (s : Timeline ι) (i : ι)

/-- The task that `select` finds under `rbtree_min`. -/
def Least : Prop := ∀ j, s.timebase i ≤ s.timebase j

instance : Decidable (s.Least i) := inferInstanceAs (Decidable (∀ _, _))

/-- The keys of the tree while task `i` is out. -/
def otherKeys : Finset ℕ := (Finset.univ.erase i).image s.timebase

/-- One of as many keys and one more is free. -/
theorem exists_freeKey_le (timebase : ℕ) : ∃ key, (timebase ≤ key ∧ key ∉ s.otherKeys i) ∧
    key ≤ timebase + (s.otherKeys i).card := by
  obtain ⟨key, hmem, hfree⟩ := Finset.exists_mem_notMem_of_card_lt_card
    (s := s.otherKeys i) (t := Finset.Icc timebase (timebase + (s.otherKeys i).card)) (by
      rw [Nat.card_Icc]
      omega)
  obtain ⟨h1, h2⟩ := Finset.mem_Icc.mp hmem
  exact ⟨key, ⟨h1, hfree⟩, h2⟩

theorem exists_freeKey (timebase : ℕ) : ∃ key, timebase ≤ key ∧ key ∉ s.otherKeys i := by
  obtain ⟨key, hkey, -⟩ := s.exists_freeKey_le i timebase
  exact ⟨key, hkey⟩

/-- `while (rbtree_search(tree, timebase, 0)) timebase++`. -/
def freeKey (timebase : ℕ) : ℕ := Nat.find (s.exists_freeKey i timebase)

/-- The key under which `timeline_insert` puts task `i`. -/
def insertKey (timebase : ℕ) : ℕ :=
  s.freeKey i (timebase + granularity + (s.timebaseOffset + granularity))

theorem insertKey_spec (timebase : ℕ) :
    timebase + granularity + (s.timebaseOffset + granularity) ≤ s.insertKey i timebase ∧
      ∀ j, j ≠ i → s.timebase j ≠ s.insertKey i timebase := by
  obtain ⟨hle, hfree⟩ := Nat.find_spec (s.exists_freeKey i
    (timebase + granularity + (s.timebaseOffset + granularity)))
  refine ⟨hle, fun j hj heq => hfree ?_⟩
  exact Finset.mem_image.mpr ⟨j, Finset.mem_erase.mpr ⟨hj, Finset.mem_univ j⟩, heq⟩

theorem insertKey_le (timebase : ℕ) : s.insertKey i timebase ≤
    timebase + granularity + (s.timebaseOffset + granularity) + Fintype.card ι := by
  obtain ⟨key, hkey, hle⟩ := s.exists_freeKey_le i
    (timebase + granularity + (s.timebaseOffset + granularity))
  have hfind : s.insertKey i timebase ≤ key := Nat.find_le hkey
  have hcard : (s.otherKeys i).card ≤ Fintype.card ι :=
    Finset.card_image_le.trans (Finset.card_le_univ _)
  omega

/-- `timeline_insert` of task `i`, which is out, and then `timebaseOffset = 0`. -/
def insert (timebase : ℕ) : Timeline ι where
  timebase := Function.update s.timebase i (s.insertKey i timebase)
  injective := by
    have hne := (s.insertKey_spec i timebase).2
    intro j k hjk
    by_cases hj : j = i
    · by_cases hk : k = i
      · rw [hj, hk]
      · rw [hj, Function.update_self, Function.update_of_ne hk] at hjk
        exact absurd hjk.symm (hne k hk)
    · by_cases hk : k = i
      · rw [hk, Function.update_self, Function.update_of_ne hj] at hjk
        exact absurd hjk (hne j hj)
      · rw [Function.update_of_ne hj, Function.update_of_ne hk] at hjk
        exact s.injective hjk
  timebaseOffset := 0

theorem insert_timebase (timebase : ℕ) : (s.insert i timebase).timebase =
    Function.update s.timebase i (s.insertKey i timebase) := rfl

/-- `lastTask->timebase + used * lastTask->inverseWeight`. -/
def advance (prio : ι → SchedulerPriority) (used : ℕ) : ℕ :=
  s.timebase i + ⌊(used : ℚ) * (1 / prioToWeight (prio i))⌋₊

variable [Nontrivial ι]

/-- `rbtree_min` of the tree while task `i` is out. -/
def nextTime : ℕ :=
  (Finset.univ.erase i).inf' Finset.univ_nontrivial.erase_nonempty s.timebase

/-- The runtime that `select` grants task `i`. -/
def slice : ℕ := max granularity (s.nextTime i - s.timebase i)

/-- Task `op.1` is selected and comes back with `op.2` of its runtime left. -/
def round (prio : ι → SchedulerPriority) (s : Timeline ι) (op : ι × ℕ) : Option (Timeline ι) :=
  if s.Least op.1 ∧ op.2 ≤ s.slice op.1 then
    some (s.insert op.1 (s.advance op.1 prio (s.slice op.1 - op.2)))
  else
    none

/-- All runs from `s` keep below one bound: the times are no further apart, and no slice is
longer. -/
def Bounded (prio : ι → SchedulerPriority) (s : Timeline ι) : Prop :=
  ∃ B, ∀ t, Base.Reachable (round prio) s t →
    (∀ i j, t.timebase i ≤ t.timebase j + B) ∧ ∀ i, t.Least i → t.slice i ≤ B

variable {s i}

theorem nextTime_le {j : ι} (hj : j ≠ i) : s.nextTime i ≤ s.timebase j :=
  Finset.inf'_le s.timebase (Finset.mem_erase.mpr ⟨hj, Finset.mem_univ j⟩)

theorem exists_nextTime (s : Timeline ι) (i : ι) : ∃ j, j ≠ i ∧ s.nextTime i = s.timebase j := by
  obtain ⟨j, hj, heq⟩ := Finset.exists_mem_eq_inf' (s := Finset.univ.erase i)
    Finset.univ_nontrivial.erase_nonempty s.timebase
  exact ⟨j, Finset.ne_of_mem_erase hj, heq⟩

theorem timebase_le_nextTime (h : s.Least i) : s.timebase i ≤ s.nextTime i := by
  obtain ⟨j, -, hj⟩ := s.exists_nextTime i
  rw [hj]
  exact h j

end Timeline

end Yarns
