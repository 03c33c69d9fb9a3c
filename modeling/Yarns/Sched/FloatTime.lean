import Mathlib.Data.Rat.Floor
import Yarns.Base.Rounding
import Yarns.Sched.VirtualTimeFair

/-!
# The `float` expression of the fair scheduler

`lastTask->timebase + (lastTask->runtime - job->runtime) * lastTask->inverseWeight` of
`scheduler_fair_reschedule`, with the conversions of C: both `unsigned long` operands become
a `float` of 24 digits, the product and the sum are rounded to one, and the sum is truncated
back to `unsigned long`. From `2 ^ 24` on the timebase is rounded. Where it is rounded down,
the offsets of `timeline_insert` may or may not make up for the loss.
-/

namespace Yarns

open Base

/-- `(float)n`. -/
def toFloat (n : ULong) : ℚ := roundTo 24 (n.toNat : ℚ)

/-- `used * inverseWeight`. -/
def product (used : ULong) (inverseWeight : ℚ) : ℚ := roundTo 24 (toFloat used * inverseWeight)

def floatSum (timebase used : ULong) (inverseWeight : ℚ) : ℚ :=
  roundTo 24 (toFloat timebase + product used inverseWeight)

/-- `(unsigned long)x`, where `x` is in range. -/
def toULong (x : ℚ) : ULong := BitVec.ofNat 64 ⌊x⌋₊

def Config.literal (cfg : Config) : Config :=
  { cfg with fairAdvance := fun timebase used inverseWeight =>
      toULong (floatSum timebase used inverseWeight) }

/-- The sum of `y` and `p` is rounded up: `p` is more than half of what lies between `y` and
the next `float`, or half of it and the significand of `y` is odd. -/
def RoundsUp (y p : ℚ) : Prop :=
  spacing 24 y / 2 < p ∨ p = spacing 24 y / 2 ∧ ¬ Even ⌊y / spacing 24 y⌋

namespace Fair

variable {cfg : Config} {s : Fair} {job : SchedulerJob} {task : SchedulerTask} {tree : Rbtree}
  {timebase used key : ULong} {inverseWeight : ℚ}

/-! ## What the sum is -/

theorem toFloat_nonneg (n : ULong) : 0 ≤ toFloat n :=
  roundTo_nonneg (by decide) (Nat.cast_nonneg _)

theorem product_nonneg (used : ULong) (hweight : 0 ≤ inverseWeight) :
    0 ≤ product used inverseWeight :=
  roundTo_nonneg (by decide) (mul_nonneg (toFloat_nonneg used) hweight)

theorem cast_pos (htime : timebase ≠ 0) : (0 : ℚ) < timebase.toNat := by
  have hpos : 0 < timebase.toNat := by
    apply Nat.pos_of_ne_zero
    exact fun h => htime (BitVec.eq_of_toNat_eq h)
  exact_mod_cast hpos

theorem toFloat_pos (htime : timebase ≠ 0) : 0 < toFloat timebase :=
  (zpow_pos (by norm_num) _).trans_le (zpow_log_le_roundTo (by decide) (cast_pos htime))

/-- The significand of a timebase. -/
theorem digits_toFloat (htime : timebase ≠ 0) :
    Digits 24 (toFloat timebase) ⌊toFloat timebase / spacing 24 (toFloat timebase)⌋ := by
  have hprec : 0 < 24 := by decide
  obtain ⟨m, hm⟩ := digits_roundTo hprec (cast_pos htime)
  have hdigits : Digits 24 (toFloat timebase) m := hm
  rwa [hdigits.div, Int.floor_intCast]

/-- A product that does not round the sum up is lost. -/
theorem floatSum_eq (htime : timebase ≠ 0) (hweight : 0 ≤ inverseWeight)
    (h : ¬ RoundsUp (toFloat timebase) (product used inverseWeight)) :
    floatSum timebase used inverseWeight = toFloat timebase := by
  apply roundTo_add_eq (digits_toFloat htime) (toFloat_pos htime) (product_nonneg used hweight)
  rw [RoundsUp, not_or, not_and, not_not, not_lt] at h
  exact h.1.lt_or_eq.imp_right fun heq => ⟨heq, h.2 heq⟩

/-- A sum that is rounded up is not below the timebase, however that was rounded. -/
theorem le_floatSum (htime : timebase ≠ 0)
    (h : RoundsUp (toFloat timebase) (product used inverseWeight)) :
    (timebase.toNat : ℚ) ≤ floatSum timebase used inverseWeight := by
  have hup := le_roundTo_add (by decide) (digits_toFloat htime) (toFloat_pos htime) h
  rcases le_or_gt (toFloat timebase) timebase.toNat with hle | hgt
  · exact (lt_roundTo_add_spacing (by decide) (cast_pos htime) hle).le.trans hup
  · have hpos := spacing_pos 24 (toFloat timebase)
    have hsum : toFloat timebase ≤ floatSum timebase used inverseWeight := by
      unfold floatSum
      linarith
    exact hgt.le.trans hsum

theorem toFloat_le_floatSum (timebase used : ULong) (hweight : 0 ≤ inverseWeight) :
    toFloat timebase ≤ floatSum timebase used inverseWeight := by
  by_cases htime : timebase = 0
  · have hzero : toFloat timebase = 0 := by
      rw [htime]
      exact roundTo_zero 24
    rw [floatSum, hzero, zero_add]
    exact roundTo_nonneg (by decide) (product_nonneg used hweight)
  · by_cases hup : RoundsUp (toFloat timebase) (product used inverseWeight)
    · have hpos := spacing_pos 24 (toFloat timebase)
      have hle := le_roundTo_add (by decide) (digits_toFloat htime) (toFloat_pos htime) hup
      unfold floatSum
      linarith
    · exact (floatSum_eq htime hweight hup).ge

/-- Before `2 ^ 24` the sum is exact for a task of normal priority. -/
theorem floatSum_of_lt (h : timebase.toNat + used.toNat < 2 ^ 24) :
    floatSum timebase used 1 = (timebase.toNat + used.toNat : ℕ) := by
  have hused : toFloat used = used.toNat := roundTo_of_lt (by omega)
  have hproduct : product used 1 = used.toNat := by
    rw [product, mul_one, hused]
    exact roundTo_of_lt (by omega)
  have htime : toFloat timebase = timebase.toNat := roundTo_of_lt (by omega)
  rw [floatSum, hproduct, htime, ← Nat.cast_add]
  exact roundTo_of_lt h

/-- Before `2 ^ 31` a timebase loses at most 64. -/
theorem le_toFloat_add (h : timebase.toNat < 2 ^ 31) :
    timebase.toNat ≤ ⌊toFloat timebase⌋₊ + 64 := by
  have hlog : Int.log 2 (timebase.toNat : ℚ) ≤ 30 := by
    rw [Int.log_natCast]
    have hlt : Nat.log 2 timebase.toNat < 31 := Nat.log_lt_of_lt_pow' (by decide) h
    omega
  have hspacing : spacing 24 (timebase.toNat : ℚ) ≤ 128 := by
    have hexp : Int.log 2 (timebase.toNat : ℚ) + 1 - (24 : ℕ) ≤ 7 := by
      push_cast
      omega
    calc spacing 24 (timebase.toNat : ℚ) ≤ 2 ^ (7 : ℤ) := zpow_le_zpow_right₀ (by norm_num) hexp
      _ = 128 := by norm_num
  have hloss := le_roundTo_add_half 24 (timebase.toNat : ℚ)
  have hle : ((timebase.toNat - 64 : ℕ) : ℚ) ≤ toFloat timebase := by
    rcases le_or_gt timebase.toNat 64 with hsmall | hlarge
    · rw [Nat.sub_eq_zero_of_le hsmall, Nat.cast_zero]
      exact toFloat_nonneg timebase
    · rw [Nat.cast_sub hlarge.le, toFloat]
      push_cast
      linarith
  have hfloor := Nat.le_floor hle
  omega

/-! ## What is stored -/

/-- The stored timebase is the first free key from the truncated sum, the granularity added
twice, and the offset on. -/
theorem reschedule_stores (cfg : Config) (htask : s.tasks job.data = some task)
    (hdata : job.data ≠ 0) (hleft : job.runtime ≤ task.runtime) {start : ℕ}
    (hstart : start = (cfg.fairAdvance task.timebase (task.runtime - job.runtime)
      task.inverseWeight).toNat + 100 + s.timebaseOffset.toNat)
    (hroom : start + rbtreeSize s.processTree < 2 ^ 64) :
    ∃ s' stored, s.reschedule cfg job = some s' ∧
      s'.tasks job.data = some { task with timebase := stored } ∧
      start ≤ stored.toNat ∧ stored ∉ s.processTree.keys ∧
      ∀ k, start ≤ k → k < stored.toNat → BitVec.ofNat 64 k ∈ s.processTree.keys := by
  have hsize : rbtreeSize s.processTree < 2 ^ 64 := by omega
  obtain ⟨stored, hfind⟩ := freeKey_total hsize
    (cfg.fairAdvance task.timebase (task.runtime - job.runtime) task.inverseWeight +
      SCHED_FAIR_MIN_GRANULARITY + (s.timebaseOffset + SCHED_FAIR_MIN_GRANULARITY))
  obtain ⟨n, hn, hkey, hprobes⟩ := freeKey_probes hfind
  have hfirst : cfg.fairAdvance task.timebase (task.runtime - job.runtime) task.inverseWeight +
      SCHED_FAIR_MIN_GRANULARITY + (s.timebaseOffset + SCHED_FAIR_MIN_GRANULARITY) =
      BitVec.ofNat 64 start := by
    have htwice : 2 * SCHED_FAIR_MIN_GRANULARITY.toNat = 100 := rfl
    rw [hstart, ← htwice, ← probe_start, BitVec.ofNat_toNat, BitVec.setWidth_eq]
  rw [hfirst, ← BitVec.ofNat_add] at hkey
  have hstored : stored.toNat = start + n := by
    rw [hkey, BitVec.toNat_ofNat, Nat.mod_eq_of_lt (by omega)]
  have hs : s.reschedule cfg job = some {
      processTree := rbtreeInsert s.processTree stored job.data
      timebaseOffset := 0
      tasks := Function.update s.tasks job.data (some { task with timebase := stored }) } := by
    rw [reschedule, if_neg hdata, htask]
    simp only [Option.bind_eq_bind, Option.bind_some, if_neg (not_lt.mpr hleft), timelineInsert,
      hfind]
  refine ⟨_, stored, hs, Function.update_self .., by omega, freeKey_spec hfind, fun k hk hlt => ?_⟩
  obtain ⟨m, rfl⟩ := Nat.exists_eq_add_of_le hk
  have hused := hprobes m (by omega)
  rwa [hfirst, ← BitVec.ofNat_add] at hused

/-- In range the conversion truncates. -/
theorem literal_toNat (cfg : Config) {n m : ℕ}
    (hroom : ⌊floatSum timebase used inverseWeight⌋₊ + 100 + n + m < 2 ^ 64) :
    (cfg.literal.fairAdvance timebase used inverseWeight).toNat =
      ⌊floatSum timebase used inverseWeight⌋₊ := by
  show (toULong _).toNat = _
  rw [toULong, BitVec.toNat_ofNat, Nat.mod_eq_of_lt (by omega)]

/-- A lonely task of normal priority in the timeline. -/
def lonely (timebase : ULong) : Fair where
  processTree := rbtreeInsert rbtreeNew timebase 4096
  timebaseOffset := 0
  tasks := Function.update (fun _ => none) 4096 (some ⟨7, 0, timebase, 1, 1⟩)

/-- The same task while it is out, with ten timeslices. -/
def lonelyOut (timebase : ULong) : Fair where
  processTree := rbtreeRemove (lonely timebase).processTree timebase
  timebaseOffset := 0
  tasks := Function.update (fun _ => none) 4096 (some ⟨7, 10000, timebase, 1, 1⟩)

def lonelyJob (left : ULong) : SchedulerJob := ⟨7, left, 4096, 0, .normal⟩

theorem lonelyOut_tasks (timebase : ULong) (left : ULong) :
    (lonelyOut timebase).tasks (lonelyJob left).data = some ⟨7, 10000, timebase, 1, 1⟩ := rfl

theorem lonelyOut_entries (timebase : ULong) : (lonelyOut timebase).processTree.entries = [] := by
  have hentries : (lonely timebase).processTree.entries = [(timebase, 4096)] := rfl
  exact (entries_remove hentries).1

theorem select_lonely (timebase : ULong) :
    (lonely timebase).select Config.defaultProfile.literal .blank =
      some (lonelyOut timebase, lonelyJob 10000) := by
  have hentries : (lonely timebase).processTree.entries = [(timebase, 4096)] := rfl
  have htask : (lonely timebase).tasks 4096 = some ⟨7, 0, timebase, 1, 1⟩ := rfl
  have hempty : rbtreeEmpty (rbtreeRemove (lonely timebase).processTree timebase) = true :=
    rbtreeEmpty_iff.mpr (lonelyOut_entries timebase)
  have hslice : slice Config.defaultProfile.literal
      (rbtreeRemove (lonely timebase).processTree timebase) timebase = some 10000 := by
    rw [slice, if_pos hempty]
    rfl
  rw [select_cons _ _ hentries htask hslice, lonelyOut, lonely, Function.update_idem]
  rfl

/-! ## When virtual time advances -/

/-- The stored timebase is later than the one before exactly if the sum is rounded up, or
every key is taken from the rounded timebase with the offsets up to the old one. -/
theorem reschedule_literal_iff (cfg : Config) (s : Fair) (job : SchedulerJob)
    (task : SchedulerTask) (htask : s.tasks job.data = some task) (hdata : job.data ≠ 0)
    (hleft : job.runtime ≤ task.runtime) (hweight : 0 ≤ task.inverseWeight)
    (hroom : ⌊floatSum task.timebase (task.runtime - job.runtime) task.inverseWeight⌋₊ + 100 +
      s.timebaseOffset.toNat + rbtreeSize s.processTree < 2 ^ 64) :
    (∃ s' task', s.reschedule cfg.literal job = some s' ∧ s'.tasks job.data = some task' ∧
      task.timebase < task'.timebase) ↔
    RoundsUp (toFloat task.timebase)
        (product (task.runtime - job.runtime) task.inverseWeight) ∨
      ∀ key, ⌊toFloat task.timebase⌋₊ + 100 + s.timebaseOffset.toNat ≤ key →
        key ≤ task.timebase.toNat → BitVec.ofNat 64 key ∈ s.processTree.keys := by
  have hsum := literal_toNat cfg hroom
  obtain ⟨s', stored, hs, hstored, hstart, hfree, hprobes⟩ :=
    reschedule_stores cfg.literal htask hdata hleft rfl (by rwa [hsum])
  rw [hsum] at hstart hprobes
  have hiff : (∃ s' task', s.reschedule cfg.literal job = some s' ∧
      s'.tasks job.data = some task' ∧ task.timebase < task'.timebase) ↔
      task.timebase.toNat < stored.toNat := by
    constructor
    · rintro ⟨s₁, task₁, hs₁, htask₁, hlt⟩
      rw [hs] at hs₁
      cases hs₁
      rw [hstored] at htask₁
      cases htask₁
      exact hlt
    · exact fun hlt => ⟨s', _, hs, hstored, hlt⟩
  rw [hiff]
  by_cases htime : task.timebase = 0
  · have hzero : task.timebase.toNat = 0 := by
      rw [htime]
      rfl
    exact ⟨fun _ => Or.inr fun key hlow hhigh => by omega, fun _ => by omega⟩
  · by_cases hup : RoundsUp (toFloat task.timebase)
        (product (task.runtime - job.runtime) task.inverseWeight)
    · -- then the offsets come on top of the old timebase
      have hle := Nat.le_floor (le_floatSum htime hup)
      exact ⟨fun _ => Or.inl hup, fun _ => by omega⟩
    · rw [floatSum_eq htime hweight hup] at hstart hprobes
      constructor
      · exact fun hlt => Or.inr fun key hlow hhigh => hprobes key hlow (by omega)
      · intro h
        by_contra hnot
        have hused := (h.resolve_left hup) stored.toNat hstart (by omega)
        rw [BitVec.ofNat_toNat, BitVec.setWidth_eq] at hused
        exact hfree hused

theorem reschedule_literal_iff_early : ∃ s' task',
    (lonelyOut 100).reschedule Config.defaultProfile.literal (lonelyJob 9950) = some s' ∧
      s'.tasks 4096 = some task' ∧ 100 < task'.timebase := by
  have hsum : floatSum 100 (10000 - 9950) 1 = (150 : ℕ) := floatSum_of_lt (by decide)
  have hfloat : toFloat 100 = (100 : ℕ) := roundTo_of_lt (by decide)
  refine (reschedule_literal_iff .defaultProfile (lonelyOut 100) (lonelyJob 9950)
    ⟨7, 10000, 100, 1, 1⟩ (lonelyOut_tasks 100 9950) (by decide) (by decide) (by norm_num)
    ?_).mpr (Or.inr fun key hlow hhigh => ?_)
  · show ⌊floatSum 100 (10000 - 9950) 1⌋₊ + 100 + 0 + 0 < 2 ^ 64
    rw [hsum, Nat.floor_natCast]
    decide
  · change ⌊toFloat 100⌋₊ + 100 + 0 ≤ key at hlow
    change key ≤ 100 at hhigh
    rw [hfloat, Nat.floor_natCast] at hlow
    omega

/-- Before `2 ^ 31` the offsets hide the rounding: virtual time advances. -/
theorem reschedule_advances_of_lt (cfg : Config) (htask : s.tasks job.data = some task)
    (hdata : job.data ≠ 0) (hleft : job.runtime ≤ task.runtime) (hweight : 0 ≤ task.inverseWeight)
    (hroom : ⌊floatSum task.timebase (task.runtime - job.runtime) task.inverseWeight⌋₊ + 100 +
      s.timebaseOffset.toNat + rbtreeSize s.processTree < 2 ^ 64)
    (htime : task.timebase.toNat < 2 ^ 31) :
    ∃ s' task', s.reschedule cfg.literal job = some s' ∧ s'.tasks job.data = some task' ∧
      task.timebase < task'.timebase := by
  have hsum := literal_toNat cfg hroom
  obtain ⟨s', stored, hs, hstored, hstart, -, -⟩ :=
    reschedule_stores cfg.literal htask hdata hleft rfl (by rwa [hsum])
  refine ⟨s', _, hs, hstored, ?_⟩
  have hloss := le_toFloat_add htime
  have hfloor := Nat.floor_le_floor
    (toFloat_le_floatSum task.timebase (task.runtime - job.runtime) hweight)
  show task.timebase.toNat < stored.toNat
  omega

/-! ## Where it stands still -/

/-- The neighbours of this time as a `float` are 256 apart. -/
theorem roundTo_late : roundTo 24 (2147483748 : ℚ) = 2147483648 := by
  have hlog : Int.log 2 (2147483648 : ℚ) = 31 :=
    log_eq_of_bounds (by norm_num) (by norm_num)
  have hspacing : spacing 24 (2147483648 : ℚ) = 256 := by
    rw [spacing, hlog]
    norm_num
  have hdigits : Digits 24 (2147483648 : ℚ) (2 ^ 23) := by
    rw [Digits, hspacing]
    norm_num
  have hround := roundTo_add_eq (d := 100) hdigits (by norm_num) (by norm_num)
    (Or.inl (by rw [hspacing]; norm_num))
  rwa [show (2147483648 : ℚ) + 100 = 2147483748 by norm_num] at hround

/-- The hundred units that the task has run are lost, and the granularity, added twice, only
makes up for the rounded timebase. -/
theorem virtual_time_stands_still : ∃ task s₁ granted s₂ task₂,
    (lonely 2147483748).tasks 4096 = some task ∧ task.timebase.toNat < 2 ^ 63 ∧
    (lonely 2147483748).select Config.defaultProfile.literal .blank = some (s₁, granted) ∧
    granted.data = 4096 ∧ 9900 ≤ granted.runtime ∧
    s₁.reschedule Config.defaultProfile.literal { granted with runtime := 9900 } = some s₂ ∧
    s₂.tasks 4096 = some task₂ ∧ ¬ task.timebase < task₂.timebase := by
  have hused : toFloat 100 = (100 : ℕ) := roundTo_of_lt (by decide)
  have hproduct : product 100 1 = (100 : ℕ) := by
    rw [product, mul_one, hused]
    exact roundTo_of_lt (by decide)
  have htime : toFloat 2147483748 = 2147483648 := by
    have hnat : (2147483748 : ULong).toNat = 2147483748 := rfl
    rw [toFloat, hnat, Nat.cast_ofNat, roundTo_late]
  have hsum : floatSum 2147483748 (10000 - 9900) 1 = (2147483648 : ℕ) := by
    have hadd : (2147483648 : ℚ) + (100 : ℕ) = 2147483748 := by norm_num
    show roundTo 24 (toFloat 2147483748 + product 100 1) = _
    rw [htime, hproduct, hadd, roundTo_late]
    norm_num
  have hstart : 2147483748 = (Config.defaultProfile.literal.fairAdvance 2147483748
      (10000 - 9900) 1).toNat + 100 + (lonelyOut 2147483748).timebaseOffset.toNat := by
    show 2147483748 = (toULong (floatSum 2147483748 (10000 - 9900) 1)).toNat + 100 + 0
    rw [hsum, toULong, Nat.floor_natCast]
    rfl
  obtain ⟨s₂, stored, hs, hstored, -, -, hprobes⟩ :=
    reschedule_stores Config.defaultProfile.literal
      (lonelyOut_tasks 2147483748 9900) (by decide) (by decide) hstart (by decide)
  refine ⟨⟨7, 0, 2147483748, 1, 1⟩, _, _, s₂, _, rfl, by decide, select_lonely _, rfl, by decide,
    hs, hstored, fun hlt => ?_⟩
  -- the timeline is empty, so the search ends where it starts
  have hkey := hprobes 2147483748 (le_refl _) hlt
  rw [OrderedMap.keys, lonelyOut_entries] at hkey
  exact absurd hkey List.not_mem_nil

end Fair

end Yarns
