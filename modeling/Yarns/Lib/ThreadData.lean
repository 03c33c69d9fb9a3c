import Yarns.Sched.Job
import Mathlib.Logic.Function.Basic

/-!
# Thread data: from the dispatch to the scheduler loop

The part of `lib/yarn.c` that hands a time slice to a yarn and takes the rest of it back:
the thread data of a core, the calls by which a yarn leaves the core, and the decision of
`yarn_processor` after the context swap (synergies COOPERATIVE and MARKED).

With `dt = start_time - t` a yarn that ran for `e` ticks of its `r` stores `r + e` when it
yields, and `-e` or `0` when it suspends, all modulo `2 ^ 64`. `KeepsSentinel` is the
exact condition under which no such value is the `UNSCHEDULE` mark, `ChargesElapsed`
the one under which the job carries on with `r - e`.
-/

namespace Yarns

def UNSCHEDULE : ULong := ulongMax

structure ThreadData where
  yarnCurrent : ULong
  startTime : ULong
  runtime : ULong
  next : ULong
  shouldSuspend : Bool
  deriving DecidableEq, Repr

/-- What the loop does with the job after a yarn has left the core. -/
inductive LoopAction where
  | unschedule (job : SchedulerJob)
  | park (job : SchedulerJob)
  | reschedule (job : SchedulerJob)
  deriving DecidableEq, Repr

/-- How a yarn leaves the core it runs on. `ret home` is the return of its routine in
`yarn_launcher`, which has read the thread data of core `home` when the yarn started. -/
inductive YarnCall where
  | yield (target t : ULong)
  | mark (t : ULong)
  | suspend (t : ULong)
  | ret (home : Nat)
  deriving DecidableEq, Repr

namespace ThreadData

/-- The assignments of the loop before the context swap. -/
def dispatch (yarn : ULong) (job : SchedulerJob) (now : ULong) : ThreadData where
  yarnCurrent := yarn
  startTime := now
  runtime := job.runtime
  next := 0
  shouldSuspend := false

variable (ttd : ThreadData)

def yarnSwitch (runtime target : ULong) : ThreadData := { ttd with runtime, next := target }

def yarnYield (target t : ULong) : ThreadData :=
  let dt := ttd.startTime - t
  ttd.yarnSwitch (ttd.runtime - dt) target

/-- `none` where the yarn goes on. -/
def yarnMark (t : ULong) : Option ThreadData :=
  let dt := ttd.startTime - t
  if dt > ttd.runtime then some (ttd.yarnSwitch 0 0) else none

def suspend (t : ULong) : ThreadData :=
  let ttd := { ttd with shouldSuspend := true }
  let dt := ttd.startTime - t
  if dt > ttd.runtime then ttd.yarnSwitch 0 0 else ttd.yarnSwitch dt 0

/-- The end of `yarn_launcher`, on the thread data it has read. -/
def launcherDone : ThreadData := { ttd with runtime := UNSCHEDULE }

/-- `yarn_processor` after the context swap. -/
def afterSwap (job : SchedulerJob) : LoopAction :=
  let job := { job with next := ttd.next, runtime := min ttd.runtime job.runtime }
  if ttd.runtime = UNSCHEDULE then .unschedule job
  else if ttd.shouldSuspend then .park job
  else .reschedule job

end ThreadData

/-- The thread data of the cores after a call of the yarn on `core`, and the core whose
scheduler context is switched to; `none` where the yarn goes on. -/
def leaveCore (ttds : Nat → ThreadData) (core : Nat) :
    YarnCall → Option (Nat × (Nat → ThreadData))
  | .yield target t =>
    some (core, Function.update ttds core ((ttds core).yarnYield target t))
  | .mark t => ((ttds core).yarnMark t).map fun ttd => (core, Function.update ttds core ttd)
  | .suspend t => some (core, Function.update ttds core ((ttds core).suspend t))
  | .ret home => some (home, Function.update ttds home (ttds home).launcherDone)

/-- The action of the loop of `core` when its yarn, dispatched at `t₀` with `job`, makes
the call; `none` where that loop does not get the core back. -/
def loopAfter (ttds : Nat → ThreadData) (core : Nat) (yarn : ULong) (job : SchedulerJob)
    (t₀ : ULong) (call : YarnCall) : Option LoopAction :=
  let ttds := Function.update ttds core (.dispatch yarn job t₀)
  match leaveCore ttds core call with
  | some (loop, ttds) => if loop = core then some ((ttds core).afterSwap job) else none
  | none => none

/-- The routine has returned. -/
def YarnCall.Returned : YarnCall → Prop
  | .ret _ => True
  | _ => False

/-- The loop takes the `UNSCHEDULE` branch. -/
def Unschedules (action : Option LoopAction) : Prop := ∃ job, action = some (.unschedule job)

/-- The condition under which the mark is told from a remaining time: `r` is the granted
runtime, the elapsed time is `t - t₀`. -/
def KeepsSentinel (core : Nat) (r t₀ : ULong) : YarnCall → Prop
  | .yield _ t => r.toNat + (t - t₀).toNat ≠ 2 ^ 64 - 1
  | .mark _ => True
  | .suspend t => ¬ (r.toNat = 2 ^ 64 - 1 ∧ (t - t₀).toNat = 1)
  | .ret home => home = core

section

variable {ttds : Nat → ThreadData} {ttd : ThreadData} {core home : Nat}
  {job : SchedulerJob} {yarn t₀ t target : ULong}

theorem yield_runtime (r t₀ t : ULong) : r - (t₀ - t) = r + (t - t₀) := by
  bv_omega

/-- The distance between the readings, taken backwards. -/
theorem backward_toNat (t₀ t : ULong) :
    ((t - t₀).toNat = 0 ∧ (t₀ - t).toNat = 0) ∨
      (0 < (t - t₀).toNat ∧ (t₀ - t).toNat = 2 ^ 64 - (t - t₀).toNat) := by
  bv_omega

theorem loopAfter_yield : loopAfter ttds core yarn job t₀ (.yield target t) =
    some (((ThreadData.dispatch yarn job t₀).yarnYield target t).afterSwap job) := by
  simp [loopAfter, leaveCore]

theorem loopAfter_mark : loopAfter ttds core yarn job t₀ (.mark t) =
    if t₀ - t > job.runtime then
      some (((ThreadData.dispatch yarn job t₀).yarnSwitch 0 0).afterSwap job)
    else none := by
  by_cases h : t₀ - t > job.runtime <;>
    simp [loopAfter, leaveCore, ThreadData.yarnMark, ThreadData.dispatch, h]

theorem loopAfter_suspend : loopAfter ttds core yarn job t₀ (.suspend t) =
    some (((ThreadData.dispatch yarn job t₀).suspend t).afterSwap job) := by
  simp [loopAfter, leaveCore]

/-- Only where the launcher has read the thread data of the core the yarn ends on does
that core's loop see the mark. -/
theorem loopAfter_ret : loopAfter ttds core yarn job t₀ (.ret home) =
    if home = core then
      some ((ThreadData.dispatch yarn job t₀).launcherDone.afterSwap job)
    else none := by
  by_cases h : home = core
  · subst h
    simp [loopAfter, leaveCore]
  · simp [loopAfter, leaveCore, h]

theorem unschedules_afterSwap : Unschedules (some (ttd.afterSwap job)) ↔
    ttd.runtime = UNSCHEDULE := by
  simp only [Unschedules, ThreadData.afterSwap, Option.some.injEq]
  split
  · simp [*]
  · split <;> simp [*]

theorem not_unschedules_none : ¬ Unschedules none := by
  intro h
  obtain ⟨job, h⟩ := h
  cases h

theorem suspend_runtime : ((ThreadData.dispatch yarn job t₀).suspend t).runtime =
    if t₀ - t > job.runtime then 0 else t₀ - t := by
  by_cases h : t₀ - t > job.runtime <;>
    simp [ThreadData.suspend, ThreadData.dispatch, ThreadData.yarnSwitch, h]

/-- The loop takes the `UNSCHEDULE` branch exactly when the routine has returned, if and
only if the stored time is not the mark and the launcher knows its core. -/
theorem unschedules_iff_returned_iff (ttds : Nat → ThreadData) (core : Nat)
    (yarn : ULong) (job : SchedulerJob) (t₀ : ULong) (call : YarnCall) :
    (Unschedules (loopAfter ttds core yarn job t₀ call) ↔ call.Returned) ↔
      KeepsSentinel core job.runtime t₀ call := by
  cases call with
  | yield target t =>
    rw [loopAfter_yield, unschedules_afterSwap]
    have hr : ((ThreadData.dispatch yarn job t₀).yarnYield target t).runtime =
        job.runtime + (t - t₀) := yield_runtime job.runtime t₀ t
    rw [hr]
    simp only [YarnCall.Returned, iff_false, KeepsSentinel]
    refine not_congr ?_
    rw [← BitVec.toNat_inj, BitVec.toNat_add, UNSCHEDULE, ulongMax_toNat]
    have := job.runtime.isLt
    have := (t - t₀).isLt
    omega
  | mark t =>
    rw [loopAfter_mark]
    simp only [YarnCall.Returned, iff_false, KeepsSentinel, iff_true]
    split
    · rw [unschedules_afterSwap]
      exact fun h => absurd (show (0 : ULong) = UNSCHEDULE from h) (by decide)
    · exact not_unschedules_none
  | suspend t =>
    rw [loopAfter_suspend, unschedules_afterSwap, suspend_runtime]
    simp only [YarnCall.Returned, iff_false, KeepsSentinel]
    refine not_congr ?_
    have hb := backward_toNat t₀ t
    have := job.runtime.isLt
    have := (t - t₀).isLt
    split
    · rename_i hgt
      rw [gt_iff_lt, BitVec.lt_def] at hgt
      constructor
      · exact fun h => absurd h (by decide)
      · omega
    · rename_i hle
      rw [gt_iff_lt, BitVec.lt_def] at hle
      rw [← BitVec.toNat_inj, UNSCHEDULE, ulongMax_toNat]
      omega
  | ret home =>
    rw [loopAfter_ret]
    simp only [YarnCall.Returned, iff_true, KeepsSentinel]
    split
    · rename_i h
      rw [unschedules_afterSwap]
      exact ⟨fun _ => h, fun _ => rfl⟩
    · rename_i h
      exact ⟨fun hu => absurd hu not_unschedules_none, fun he => absurd he h⟩

/-- A dedicated core grants `~0UL - 1`; a yield one tick later frees the yarn. -/
theorem yield_frees_running_yarn :
    ¬ (Unschedules (loopAfter (fun _ => ⟨0, 0, 0, 0, false⟩) 1 4096
        ⟨7, ulongMax - 1, 0, 0, .titanic⟩ 100 (.yield 0 101)) ↔
      (YarnCall.yield 0 101).Returned) := by
  intro h
  exact h.mp ⟨⟨7, ulongMax - 1, 0, 0, .titanic⟩, by decide⟩

/-! ## The time that is left -/

/-- What a job keeps of the granted `r` after `e` ticks. -/
def remaining (r e : ULong) : ULong := if e ≤ r then r - e else 0

/-- A call charges the elapsed time: the job that is rescheduled or parked keeps what
remains, and a mark gives the core back once the time is used up. -/
def AccountsTime (ttds : Nat → ThreadData) (core : Nat) (yarn : ULong) (job : SchedulerJob)
    (t₀ : ULong) : YarnCall → Prop
  | .yield target t => ∃ job', loopAfter ttds core yarn job t₀ (.yield target t) =
      some (.reschedule job') ∧ job'.runtime = remaining job.runtime (t - t₀)
  | .suspend t => ∃ job', loopAfter ttds core yarn job t₀ (.suspend t) = some (.park job') ∧
      job'.runtime = remaining job.runtime (t - t₀)
  | .mark t => (loopAfter ttds core yarn job t₀ (.mark t)).isSome ↔ job.runtime < t - t₀
  | .ret _ => True

/-- The granted and the elapsed times for which the reversed difference does no harm. -/
def ChargesElapsed (r t₀ : ULong) : YarnCall → Prop
  | .yield _ t =>
    let e := (t - t₀).toNat
    if r.toNat + e < 2 ^ 64 then (e = 0 ∨ r.toNat = 0) ∧ r.toNat + e ≠ 2 ^ 64 - 1
    else if e ≤ r.toNat then e = 2 ^ 63
    else r.toNat + e = 2 ^ 64
  | .suspend t =>
    let e := (t - t₀).toNat
    r.toNat ≤ e ∧ r.toNat + e < 2 ^ 64
  | .mark t =>
    let e := (t - t₀).toNat
    e = 0 ∨ (r.toNat < e ↔ r.toNat + e < 2 ^ 64)
  | .ret _ => True

theorem min_toNat (a b : ULong) : (min a b).toNat = min a.toNat b.toNat := by
  rcases le_total a b with h | h
  · rw [min_eq_left h, Nat.min_eq_left (BitVec.le_def.mp h)]
  · rw [min_eq_right h, Nat.min_eq_right (BitVec.le_def.mp h)]

theorem remaining_toNat (r e : ULong) : (remaining r e).toNat = r.toNat - e.toNat := by
  unfold remaining
  split
  · rename_i h
    rw [BitVec.le_def] at h
    rw [BitVec.toNat_sub_of_le (BitVec.le_def.mpr h)]
  · rename_i h
    rw [BitVec.le_def] at h
    rw [zero_toNat]
    omega

/-- The job of a yield that is not taken for a return. -/
theorem afterSwap_reschedule (hne : ttd.runtime ≠ UNSCHEDULE) (hs : ttd.shouldSuspend = false) :
    ttd.afterSwap job = .reschedule { job with
      next := ttd.next
      runtime := min ttd.runtime job.runtime } := by
  simp only [ThreadData.afterSwap]
  rw [if_neg hne, hs]
  rfl

theorem afterSwap_park (hne : ttd.runtime ≠ UNSCHEDULE) (hs : ttd.shouldSuspend = true) :
    ttd.afterSwap job = .park { job with
      next := ttd.next
      runtime := min ttd.runtime job.runtime } := by
  simp only [ThreadData.afterSwap]
  rw [if_neg hne, hs]
  rfl

theorem afterSwap_unschedule (he : ttd.runtime = UNSCHEDULE) :
    ttd.afterSwap job = .unschedule { job with
      next := ttd.next
      runtime := min ttd.runtime job.runtime } := by
  simp only [ThreadData.afterSwap]
  rw [if_pos he]

theorem accounts_yield_iff : AccountsTime ttds core yarn job t₀ (.yield target t) ↔
    job.runtime + (t - t₀) ≠ UNSCHEDULE ∧
      min (job.runtime + (t - t₀)) job.runtime = remaining job.runtime (t - t₀) := by
  have hr : ((ThreadData.dispatch yarn job t₀).yarnYield target t).runtime =
      job.runtime + (t - t₀) := yield_runtime job.runtime t₀ t
  simp only [AccountsTime, loopAfter_yield, Option.some.injEq]
  rw [← hr]
  constructor
  · intro h
    obtain ⟨job', hact, hrt⟩ := h
    by_cases hne : ((ThreadData.dispatch yarn job t₀).yarnYield target t).runtime = UNSCHEDULE
    · rw [afterSwap_unschedule hne] at hact
      cases hact
    · rw [afterSwap_reschedule hne rfl] at hact
      cases hact
      exact ⟨hne, hrt⟩
  · intro h
    exact ⟨_, afterSwap_reschedule h.1 rfl, h.2⟩

theorem suspend_shouldSuspend (ttd : ThreadData) (t : ULong) :
    (ttd.suspend t).shouldSuspend = true := by
  unfold ThreadData.suspend
  dsimp only
  split <;> rfl

theorem accounts_suspend_iff : AccountsTime ttds core yarn job t₀ (.suspend t) ↔
    (if t₀ - t > job.runtime then 0 else t₀ - t) ≠ UNSCHEDULE ∧
      min (if t₀ - t > job.runtime then 0 else t₀ - t) job.runtime =
        remaining job.runtime (t - t₀) := by
  simp only [AccountsTime, loopAfter_suspend, Option.some.injEq]
  rw [← suspend_runtime]
  constructor
  · intro h
    obtain ⟨job', hact, hrt⟩ := h
    by_cases hne : ((ThreadData.dispatch yarn job t₀).suspend t).runtime = UNSCHEDULE
    · rw [afterSwap_unschedule hne] at hact
      cases hact
    · rw [afterSwap_park hne (suspend_shouldSuspend _ t)] at hact
      cases hact
      exact ⟨hne, hrt⟩
  · intro h
    exact ⟨_, afterSwap_park h.1 (suspend_shouldSuspend _ t), h.2⟩

/-- The elapsed time is charged exactly for these granted and elapsed times. -/
theorem accountsTime_iff (ttds : Nat → ThreadData) (core : Nat) (yarn : ULong)
    (job : SchedulerJob) (t₀ : ULong) (call : YarnCall) :
    AccountsTime ttds core yarn job t₀ call ↔ ChargesElapsed job.runtime t₀ call := by
  have hr := job.runtime.isLt
  cases call with
  | yield target t =>
    have he := (t - t₀).isLt
    rw [accounts_yield_iff, ← BitVec.toNat_inj, min_toNat, remaining_toNat, Ne,
      ← BitVec.toNat_inj, BitVec.toNat_add, UNSCHEDULE, ulongMax_toNat]
    simp only [ChargesElapsed]
    split
    · rename_i hwrap
      rw [Nat.mod_eq_of_lt hwrap]
      omega
    · rename_i hwrap
      have hmod : (job.runtime.toNat + (t - t₀).toNat) % 2 ^ 64 =
          job.runtime.toNat + (t - t₀).toNat - 2 ^ 64 := by omega
      rw [hmod]
      split <;> omega
  | suspend t =>
    have he := (t - t₀).isLt
    have hb := backward_toNat t₀ t
    rw [accounts_suspend_iff, ← BitVec.toNat_inj, min_toNat, remaining_toNat, Ne,
      ← BitVec.toNat_inj, UNSCHEDULE, ulongMax_toNat]
    simp only [ChargesElapsed]
    split
    · rename_i hgt
      rw [gt_iff_lt, BitVec.lt_def] at hgt
      rw [zero_toNat]
      omega
    · rename_i hle
      rw [gt_iff_lt, BitVec.lt_def] at hle
      omega
  | mark t =>
    have he := (t - t₀).isLt
    have hb := backward_toNat t₀ t
    simp only [AccountsTime, loopAfter_mark, ChargesElapsed, gt_iff_lt, BitVec.lt_def]
    split
    · simp only [Option.isSome_some, true_iff]
      omega
    · simp only [Option.isSome_none, Bool.false_eq_true, false_iff]
      omega
  | ret home => exact Iff.rfl

/-- A yield after 3 of 10 ticks leaves all 10. -/
theorem yield_charges_nothing :
    ¬ AccountsTime (fun _ => ⟨0, 0, 0, 0, false⟩) 0 4096 ⟨7, 10, 0, 0, .normal⟩ 100
      (.yield 0 103) := by
  intro h
  obtain ⟨job', hact, hrt⟩ := h
  have hrun : loopAfter (fun _ => ⟨0, 0, 0, 0, false⟩) 0 4096 ⟨7, 10, 0, 0, .normal⟩ 100
      (.yield 0 103) = some (.reschedule ⟨7, 10, 0, 0, .normal⟩) := by decide
  rw [hrun] at hact
  cases hact
  exact absurd hrt (by decide)

end

end Yarns
