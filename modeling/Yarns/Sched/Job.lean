import Mathlib.Algebra.Order.Ring.Rat
import Yarns.Data.Word

/-!
# Scheduler jobs and build constants

`sched/scheduler.h`, and the constants a generated `config.h` fixes.
-/

namespace Yarns

inductive SchedulerPriority where
  | titanic
  | veryHigh
  | high
  | normal
  | low
  | veryLow
  deriving DecidableEq, Repr

/-- The value of the C enumerator. -/
def SchedulerPriority.toNat : SchedulerPriority → Nat
  | titanic => 0
  | veryHigh => 1
  | high => 2
  | normal => 3
  | low => 4
  | veryLow => 5

structure SchedulerJob where
  pid : ULong
  runtime : ULong
  data : ULong
  next : ULong
  priority : SchedulerPriority
  deriving DecidableEq, Repr

/-- The job an empty-handed caller passes to `select`. -/
def SchedulerJob.blank : SchedulerJob := ⟨0, 0, 0, 0, .normal⟩

/-- `job` is the granted job handed back: same pid and scheduler data, and at most the
granted runtime left. -/
def SchedulerJob.Returns (job granted : SchedulerJob) : Prop :=
  job.pid = granted.pid ∧ job.data = granted.data ∧ job.runtime ≤ granted.runtime

instance (job granted : SchedulerJob) : Decidable (job.Returns granted) :=
  inferInstanceAs (Decidable
    (job.pid = granted.pid ∧ job.data = granted.data ∧ job.runtime ≤ granted.runtime))

/-- Build constants. `fairAdvance timebase used inverseWeight` is the value of the `float`
expression `timebase + used * inverseWeight` converted back to `unsigned long`;
`YARNS_MAX_PROCESSES` bounds an `int`. -/
structure Config where
  timeslice : ULong
  maxProcesses : Nat
  maxProcesses_le : maxProcesses ≤ 2 ^ 31
  fairAdvance : ULong → ULong → ℚ → ULong

/-- `YARNS_TIMESLICE * n`. The macro stands for a decimal literal, which is an `int` where it
fits in one, and so is the product then: it wraps around at 32 bits, as compilers leave it,
and its sign is extended when it is stored in an `unsigned long`. -/
def Config.timeslices (cfg : Config) (n : ULong) : ULong :=
  if cfg.timeslice.toNat < 2 ^ 31 then ((cfg.timeslice * n).setWidth 32).signExtend 64
  else cfg.timeslice * n

theorem Config.timeslices_of_zero {cfg : Config} (h : cfg.timeslice = 0) (n : ULong) :
    cfg.timeslices n = 0 := by
  have hmul : (0 : ULong) * n = 0 := BitVec.zero_mul
  rw [Config.timeslices, h, if_pos (by decide), hmul]
  rfl

/-- The product is what it looks like where it fits in an `int`. -/
theorem Config.timeslices_toNat {cfg : Config} {n : ULong} (hn : 0 < n.toNat)
    (h : cfg.timeslice.toNat * n.toNat < 2 ^ 31) :
    (cfg.timeslices n).toNat = cfg.timeslice.toNat * n.toNat := by
  have hlt : cfg.timeslice.toNat < 2 ^ 31 := lt_of_le_of_lt (Nat.le_mul_of_pos_right _ hn) h
  have hmul : (cfg.timeslice * n).toNat = cfg.timeslice.toNat * n.toNat := by
    rw [BitVec.toNat_mul, Nat.mod_eq_of_lt (by omega)]
  have hlow : ((cfg.timeslice * n).setWidth 32).toNat = cfg.timeslice.toNat * n.toNat := by
    rw [BitVec.toNat_setWidth, hmul, Nat.mod_eq_of_lt (by omega)]
  have hmsb : ((cfg.timeslice * n).setWidth 32).msb = false := by
    rw [BitVec.msb_eq_false_iff_two_mul_lt, hlow]
    omega
  rw [Config.timeslices, if_pos hlt, BitVec.signExtend_eq_setWidth_of_msb_false hmsb,
    BitVec.toNat_setWidth, hlow, Nat.mod_eq_of_lt (by omega)]

/-- `default.profile`. For small operands the `float` expression is exact. -/
def Config.defaultProfile : Config where
  timeslice := 1000
  maxProcesses := 65536
  maxProcesses_le := by decide
  fairAdvance := fun timebase used inverseWeight =>
    timebase + BitVec.ofNat 64 (used.toNat * inverseWeight).floor.toNat

end Yarns
