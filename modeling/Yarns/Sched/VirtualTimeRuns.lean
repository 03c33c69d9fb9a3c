import Mathlib.Data.Fintype.BigOperators
import Mathlib.Tactic.NormNum
import Yarns.Base.Drift
import Yarns.Sched.VirtualTime

/-!
# Which weights keep the slices bounded

A slice is the gap between the two least times, and a task that uses it up moves by the
gap divided by its weight. With `W` the sum of the weights, the sum of the weighted
distances from the least time (`potential`) grows in a round by at most a constant, less
`W - 1` times the gap. If `1 < W`, a wide gap takes from the potential, and behind a narrow
one the task stays near: `Base.potential_bounded` then bounds every run. If `W ≤ 1`, each
round in which the slice is used up adds to the potential, whatever the gap
(`bounded_iff`).
-/

namespace Yarns

open Base Relation

namespace Timeline

variable {ι : Type} {prio : ι → SchedulerPriority} {s t : Timeline ι} {i : ι} {left : ℕ}

def weight (prio : ι → SchedulerPriority) (i : ι) : ℚ := prioToWeight (prio i)

theorem weight_bounds (prio : ι → SchedulerPriority) (i : ι) :
    1 / 5 ≤ weight prio i ∧ weight prio i ≤ 5 := by
  unfold weight
  cases prio i <;> norm_num [prioToWeight]

/-- What a task that used `used` moves by, times its weight. -/
theorem weight_mul_floor (prio : ι → SchedulerPriority) (i : ι) (used : ℕ) :
    weight prio i * ⌊(used : ℚ) * (1 / weight prio i)⌋₊ ≤ used ∧
      used ≤ weight prio i * (⌊(used : ℚ) * (1 / weight prio i)⌋₊ + 1) := by
  obtain ⟨hlow, -⟩ := weight_bounds prio i
  have hpos : 0 < weight prio i := by linarith
  have hused : weight prio i * ((used : ℚ) * (1 / weight prio i)) = used := by
    rw [mul_comm, mul_assoc, one_div_mul_cancel (ne_of_gt hpos), mul_one]
  have hnonneg : (0 : ℚ) ≤ used * (1 / weight prio i) := by positivity
  constructor
  · have hfloor := mul_le_mul_of_nonneg_left (Nat.floor_le hnonneg) (le_of_lt hpos)
    rwa [hused] at hfloor
  · have hfloor := mul_le_mul_of_nonneg_left
      (le_of_lt (Nat.lt_floor_add_one ((used : ℚ) * (1 / weight prio i)))) (le_of_lt hpos)
    rwa [hused] at hfloor

variable [Fintype ι] [Nontrivial ι]

def lowest (s : Timeline ι) : ℕ := Finset.univ.inf' Finset.univ_nonempty s.timebase

def height (s : Timeline ι) (i : ι) : ℚ := s.timebase i - s.lowest

theorem lowest_le (s : Timeline ι) (i : ι) : s.lowest ≤ s.timebase i :=
  Finset.inf'_le s.timebase (Finset.mem_univ i)

theorem height_nonneg (s : Timeline ι) (i : ι) : 0 ≤ s.height i :=
  sub_nonneg.mpr (Nat.cast_le.mpr (s.lowest_le i))

theorem height_le_potential (prio : ι → SchedulerPriority) (s : Timeline ι) (i : ι) :
    s.height i ≤ 5 * potential (weight prio) height s := by
  have hterm : weight prio i * s.height i ≤ potential (weight prio) height s :=
    Finset.single_le_sum (f := fun j => weight prio j * s.height j)
      (fun j _ => mul_nonneg (by linarith [(weight_bounds prio j).1]) (s.height_nonneg j))
      (Finset.mem_univ i)
  have hlow := (weight_bounds prio i).1
  nlinarith [s.height_nonneg i]

theorem lowest_eq (h : s.Least i) : s.lowest = s.timebase i :=
  le_antisymm (s.lowest_le i) (Finset.le_inf' _ _ fun j _ => h j)

theorem exists_least (s : Timeline ι) : ∃ i, s.Least i := by
  obtain ⟨i, -, hi⟩ := Finset.exists_mem_eq_inf' Finset.univ_nonempty s.timebase
  exact ⟨i, fun j => hi ▸ s.lowest_le j⟩

variable [DecidableEq ι]

/-- What a round does: only `i` moves, to `key`. -/
structure Moved (prio : ι → SchedulerPriority) (s t : Timeline ι) (i : ι) (left key : ℕ) :
    Prop where
  least : s.Least i
  left_le : left ≤ s.slice i
  timebase : t.timebase = Function.update s.timebase i key
  offset : t.timebaseOffset = 0
  ge : s.advance i prio (s.slice i - left) + granularity + (s.timebaseOffset + granularity) ≤ key
  le : key ≤ s.advance i prio (s.slice i - left) + granularity +
    (s.timebaseOffset + granularity) + Fintype.card ι

theorem round_spec (h : round prio s (i, left) = some t) : ∃ key, Moved prio s t i left key := by
  unfold round at h
  split at h
  next hguard =>
    obtain rfl := Option.some.inj h
    exact ⟨_, hguard.1, hguard.2, rfl, rfl, (s.insertKey_spec i _).1, s.insertKey_le i _⟩
  · cases h

namespace Moved

variable {key : ℕ} (h : Moved prio s t i left key)
include h

theorem timebase_lt : s.timebase i < key := by
  have hge := h.ge
  unfold advance granularity at hge
  omega

/-- The least time is then the new key or the next one. -/
theorem lowest_eq : t.lowest = min key (s.nextTime i) := by
  refine le_antisymm (le_min ?_ ?_) (Finset.le_inf' _ _ fun j _ => ?_)
  · have hi := t.lowest_le i
    rwa [h.timebase, Function.update_self] at hi
  · obtain ⟨j, hj, hnext⟩ := s.exists_nextTime i
    have hle := t.lowest_le j
    rwa [h.timebase, Function.update_of_ne hj, ← hnext] at hle
  · rw [h.timebase]
    by_cases hj : j = i
    · rw [hj, Function.update_self]
      exact min_le_left _ _
    · rw [Function.update_of_ne hj]
      exact (min_le_right _ _).trans (nextTime_le hj)

theorem lowest_mono : s.lowest ≤ t.lowest := by
  rw [h.lowest_eq, Timeline.lowest_eq h.least]
  exact le_min (le_of_lt h.timebase_lt) (timebase_le_nextTime h.least)

theorem height_le {j : ι} (hj : j ≠ i) : t.height j ≤ s.height j := by
  have hmono : (s.lowest : ℚ) ≤ t.lowest := Nat.cast_le.mpr h.lowest_mono
  unfold height
  rw [h.timebase, Function.update_of_ne hj]
  linarith

/-- The potential gains what the task moved, and loses what the least time did. -/
theorem potential_eq : potential (weight prio) height t =
    potential (weight prio) height s + weight prio i * (key - s.timebase i) -
      (∑ j, weight prio j) * (t.lowest - s.lowest) := by
  have hmoved : ∑ j, weight prio j * ((t.timebase j : ℚ) - s.timebase j) =
      weight prio i * (key - s.timebase i) := by
    rw [Finset.sum_eq_single_of_mem i (Finset.mem_univ i)]
    · rw [h.timebase, Function.update_self]
    · intro j _ hj
      rw [h.timebase, Function.update_of_ne hj, sub_self, mul_zero]
  rw [← hmoved, Finset.sum_mul, potential, potential, ← Finset.sum_add_distrib,
    ← Finset.sum_sub_distrib]
  refine Finset.sum_congr rfl fun j _ => ?_
  unfold height
  ring

/-- Moving costs at most the slice, and a constant. -/
theorem moved_le : weight prio i * ((key : ℚ) - s.timebase i) ≤
    (s.nextTime i - s.timebase i) +
      (50 + 5 * (100 + s.timebaseOffset + Fintype.card ι)) := by
  obtain ⟨hlow, hhigh⟩ := weight_bounds prio i
  obtain ⟨hfloor, -⟩ := weight_mul_floor prio i (s.slice i - left)
  have hle : (key : ℚ) ≤ s.timebase i +
      ⌊((s.slice i - left : ℕ) : ℚ) * (1 / weight prio i)⌋₊ + 50 + (s.timebaseOffset + 50) +
        Fintype.card ι := by
    have hkey := h.le
    unfold advance granularity at hkey
    exact_mod_cast hkey
  have hslice : ((s.slice i - left : ℕ) : ℚ) ≤ (s.nextTime i - s.timebase i) + 50 := by
    have hnext := timebase_le_nextTime h.least
    have hmax : s.slice i - left ≤ (s.nextTime i - s.timebase i) + 50 := by
      unfold slice granularity
      omega
    have hcast : ((s.slice i - left : ℕ) : ℚ) ≤ ((s.nextTime i - s.timebase i : ℕ) : ℚ) + 50 := by
      exact_mod_cast hmax
    rwa [Nat.cast_sub hnext] at hcast
  have hconst : (0 : ℚ) ≤ 100 + s.timebaseOffset + Fintype.card ι := by positivity
  nlinarith

end Moved

/-! ## Weights above one -/

/-- The rounds while the offset is at most `O`. -/
def Move (prio : ι → SchedulerPriority) (O : ℕ) (i : ι) (s t : Timeline ι) : Prop :=
  s.timebaseOffset ≤ O ∧ ∃ left, round prio s (i, left) = some t

theorem weights_settling (hW : 1 < ∑ i, weight prio i) (O : ℕ) :
    Settling (weight prio) height (Move prio O) where
  weight_nonneg := fun i => by linarith [(weight_bounds prio i).1]
  nonneg := height_nonneg
  others := by
    rintro i s t ⟨-, left, hround⟩ j hj
    obtain ⟨key, h⟩ := round_spec hround
    exact h.height_le hj
  settle := by
    intro D
    -- `C` is what a move costs beside the gap, `G` the gap from which on it takes `D`
    set C : ℚ := 50 + 5 * (100 + O + Fintype.card ι) with hC
    set G : ℚ := (C + D) / ((∑ i, weight prio i) - 1) with hG
    refine ⟨max 0 (5 * (G + C)), ?_⟩
    rintro i s t ⟨hO, left, hround⟩
    obtain ⟨key, h⟩ := round_spec hround
    have hmoved : weight prio i * ((key : ℚ) - s.timebase i) ≤
        (s.nextTime i - s.timebase i) + C := by
      have hcast : (s.timebaseOffset : ℚ) ≤ O := Nat.cast_le.mpr hO
      linarith [h.moved_le]
    have hnext : (s.timebase i : ℚ) ≤ s.nextTime i :=
      Nat.cast_le.mpr (timebase_le_nextTime h.least)
    have hti : t.height i = key - t.lowest := by
      rw [height, h.timebase, Function.update_self]
    rcases le_total key (s.nextTime i) with hstay | hpass
    · -- the task is the least one again
      refine Or.inr (le_max_of_le_left ?_)
      rw [hti, h.lowest_eq, min_eq_left hstay, sub_self]
    · have hlowest : t.lowest = s.nextTime i := by rw [h.lowest_eq, min_eq_right hpass]
      rcases le_or_gt G (s.nextTime i - s.timebase i) with hwide | hnarrow
      · refine Or.inl ?_
        have htake : C + D ≤ (s.nextTime i - s.timebase i) * ((∑ i, weight prio i) - 1) := by
          rw [← div_le_iff₀ (by linarith)]
          exact hwide
        rw [h.potential_eq, hlowest, Timeline.lowest_eq h.least]
        linarith
      · refine Or.inr (le_max_of_le_right ?_)
        have hlow := (weight_bounds prio i).1
        have hkey : (s.timebase i : ℚ) ≤ key := Nat.cast_le.mpr (le_of_lt h.timebase_lt)
        rw [hti, hlowest]
        nlinarith

/-- A run is a path of rounds with no more offset than there is at the start. -/
theorem reachable_moves (hr : Reachable (round prio) s t) :
    ReflTransGen (fun u v => ∃ i, Move prio s.timebaseOffset i u v) s t := by
  have hI : ReflTransGen (fun u v => ∃ i, Move prio s.timebaseOffset i u v) s t ∧
      t.timebaseOffset ≤ s.timebaseOffset := by
    refine reachable_invariant (I := fun t => ReflTransGen (fun u v =>
      ∃ i, Move prio s.timebaseOffset i u v) s t ∧ t.timebaseOffset ≤ s.timebaseOffset)
      ⟨ReflTransGen.refl, le_refl _⟩ ?_ hr
    rintro u ⟨i, left⟩ v ⟨hpath, hoffset⟩ hround
    obtain ⟨key, h⟩ := round_spec hround
    refine ⟨hpath.tail ⟨i, hoffset, left, hround⟩, ?_⟩
    rw [h.offset]
    exact Nat.zero_le _
  exact hI.1

/-- Times and slices are bounded by the heights. -/
theorem bounds_of_height {B : ℕ} (h : ∀ i, s.height i ≤ B) :
    (∀ i j, s.timebase i ≤ s.timebase j + B) ∧ ∀ i, s.Least i → s.slice i ≤ B + granularity := by
  have hnat : ∀ i, s.timebase i ≤ s.lowest + B := by
    intro i
    have hi := h i
    unfold height at hi
    have hcast : (s.timebase i : ℚ) ≤ s.lowest + B := by linarith
    exact_mod_cast hcast
  refine ⟨fun i j => (hnat i).trans (Nat.add_le_add_right (s.lowest_le j) B), fun i hi => ?_⟩
  obtain ⟨j, -, hj⟩ := s.exists_nextTime i
  have hle := hnat j
  rw [lowest_eq hi] at hle
  unfold slice
  omega

theorem bounded_of_one_lt (hW : 1 < ∑ i, weight prio i) (s : Timeline ι) : Bounded prio s := by
  obtain ⟨f, hf⟩ := (weights_settling hW s.timebaseOffset).potential_bounded
  refine ⟨⌈5 * (potential (weight prio) height s + f)⌉₊ + granularity, fun t hr => ?_⟩
  have hpotential := hf s t (reachable_moves hr)
  have hheight : ∀ i, t.height i ≤ ⌈5 * (potential (weight prio) height s + f)⌉₊ := by
    intro i
    have hi := height_le_potential prio t i
    refine le_trans ?_ (Nat.le_ceil _)
    linarith
  obtain ⟨htimes, hslices⟩ := bounds_of_height hheight
  exact ⟨fun i j => (htimes i j).trans (by omega), hslices⟩

/-! ## Weights up to one -/

/-- A round that uses up its slice. -/
theorem Moved.potential_gain {key : ℕ} (h : Moved prio s t i 0 key)
    (hW : ∑ j, weight prio j ≤ 1) :
    potential (weight prio) height s + 1 ≤ potential (weight prio) height t := by
  obtain ⟨-, hfloor⟩ := weight_mul_floor prio i (s.slice i)
  have hlow := (weight_bounds prio i).1
  have hge : (s.timebase i : ℚ) + ⌊(s.slice i : ℚ) * (1 / weight prio i)⌋₊ + 100 ≤ key := by
    have hkey := h.ge
    rw [Nat.sub_zero] at hkey
    unfold advance granularity at hkey
    have hnat : s.timebase i + ⌊(s.slice i : ℚ) * (1 / prioToWeight (prio i))⌋₊ + 100 ≤ key := by
      omega
    exact_mod_cast hnat
  have hslice : (s.nextTime i : ℚ) - s.timebase i ≤ s.slice i := by
    rw [← Nat.cast_sub (timebase_le_nextTime h.least)]
    exact Nat.cast_le.mpr (le_max_right _ _)
  have hgap : (t.lowest : ℚ) - s.lowest ≤ s.nextTime i - s.timebase i := by
    rw [Timeline.lowest_eq h.least]
    have hle : t.lowest ≤ s.nextTime i := h.lowest_eq ▸ min_le_right _ _
    have hcast : (t.lowest : ℚ) ≤ s.nextTime i := Nat.cast_le.mpr hle
    linarith
  have hmono : (s.lowest : ℚ) ≤ t.lowest := Nat.cast_le.mpr h.lowest_mono
  rw [h.potential_eq]
  nlinarith

theorem exists_potential (hW : ∑ j, weight prio j ≤ 1) (s : Timeline ι) (k : ℕ) :
    ∃ t, Reachable (round prio) s t ∧ (k : ℚ) ≤ potential (weight prio) height t := by
  induction k with
  | zero =>
    refine ⟨s, ⟨[], rfl⟩, ?_⟩
    rw [Nat.cast_zero]
    exact Finset.sum_nonneg fun j _ =>
      mul_nonneg (by linarith [(weight_bounds prio j).1]) (s.height_nonneg j)
  | succ k ih =>
    obtain ⟨t, hr, hk⟩ := ih
    obtain ⟨i, hi⟩ := t.exists_least
    obtain ⟨u, hround⟩ : ∃ u, round prio t (i, 0) = some u :=
      ⟨_, if_pos ⟨hi, Nat.zero_le _⟩⟩
    obtain ⟨key, h⟩ := round_spec hround
    refine ⟨u, hr.trans ⟨[(i, 0)], ?_⟩, ?_⟩
    · exact run_cons_iff.mpr ⟨u, hround, rfl⟩
    · have hgain := h.potential_gain hW
      push_cast
      linarith

theorem not_bounded_of_le_one (hW : ∑ j, weight prio j ≤ 1) (s : Timeline ι) :
    ¬ Bounded prio s := by
  rintro ⟨B, hB⟩
  obtain ⟨t, hr, hk⟩ := exists_potential hW s (B + 1)
  obtain ⟨i, hi⟩ := t.exists_least
  have hheight : ∀ j, t.height j ≤ B := by
    intro j
    have hj : (t.timebase j : ℚ) ≤ t.timebase i + B := by exact_mod_cast (hB t hr).1 j i
    rw [height, lowest_eq hi]
    linarith
  have hpotential : potential (weight prio) height t ≤ (∑ j, weight prio j) * B := by
    rw [potential, Finset.sum_mul]
    exact Finset.sum_le_sum fun j _ =>
      mul_le_mul_of_nonneg_left (hheight j) (by linarith [(weight_bounds prio j).1])
  have hB0 : (0 : ℚ) ≤ B := Nat.cast_nonneg B
  push_cast at hk
  nlinarith

/-- For tasks of any priorities and every timeline of them: times and slices of all runs
stay below one bound if and only if the weights of the tasks add up to more than one. The
weights are the decimals of the source (`prioToWeight`). -/
theorem bounded_iff (prio : ι → SchedulerPriority) (s : Timeline ι) :
    Bounded prio s ↔ 1 < ∑ i, prioToWeight (prio i) := by
  constructor
  · intro h
    by_contra hW
    exact not_bounded_of_le_one (not_lt.mp hW) s h
  · exact fun hW => bounded_of_one_lt hW s

/-- Two tasks as `schedule` puts them on an empty timeline. -/
def firstTwo : Timeline Bool where
  timebase := fun i => if i then 250 else 100
  injective := by decide
  timebaseOffset := 100

theorem bounded_iff_twoNormal : Bounded (fun _ => .normal) firstTwo := by
  refine (bounded_iff _ firstTwo).mpr ?_
  rw [Fintype.sum_bool]
  norm_num [prioToWeight]

/-- Two tasks of the lowest priority have slices beyond every bound. -/
theorem veryLow_unbounded : ¬ Bounded (fun _ => .veryLow) firstTwo := by
  refine not_bounded_of_le_one ?_ firstTwo
  rw [Fintype.sum_bool]
  norm_num [weight, prioToWeight]

end Timeline

end Yarns
