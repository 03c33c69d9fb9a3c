import Yarns.Base.Run
import Yarns.Sched.Master

/-!
# The master scheduler on one core

Without `YARNS_ENABLE_SMP` the calls of `sched/master_scheduler.h` go straight to one
scheduler. With it, and one core, they go through the search for a core, the accounting,
the dedicated cores and the count of the jobs first. Both give the same jobs in the same
order, for every sequence of calls (`one_core`).
-/

namespace Yarns

open Base

/-! ## Without SMP -/

namespace MainScheduler

variable (cfg : Config) (s : Scheduler)

/-- What `_main_scheduler` is set to. -/
def masterSchedInit (_nprocs : Nat) (prim _sec : Int) : Scheduler :=
  allocateSchedByNumber cfg prim

def masterSchedSchedule (ptr pid : ULong) (prio : SchedulerPriority) : Option Scheduler :=
  s.schedule cfg ptr pid prio

def masterSchedSelect (_core : Nat) (job : SchedulerJob) : Option (Scheduler × SchedulerJob) :=
  s.select cfg job

def masterSchedReschedule (_core : Nat) (job : SchedulerJob) : Option Scheduler :=
  s.reschedule cfg job

def masterSchedUnschedule (_core : Nat) (job : SchedulerJob) : Option Scheduler :=
  s.unschedule job

/-- The calls of the loop of core 0. The clock reading and the addresses for the accounting
are of no use to the build without SMP. -/
inductive LoopCall where
  | schedule (ptr pid : ULong) (prio : SchedulerPriority)
  | select (job : SchedulerJob) (newTime : ULong) (ptrs : Nat → List ULong)
  | reschedule (job : SchedulerJob)
  | unschedule (job : SchedulerJob)

def LoopCall.isSchedule : LoopCall → Bool
  | schedule .. => true
  | _ => false

def LoopCall.isUnschedule : LoopCall → Bool
  | unschedule .. => true
  | _ => false

/-- A build of the scheduler with the jobs it has handed out, the last one first. -/
structure Served (σ : Type) where
  sched : σ
  jobs : List SchedulerJob

def smpCall (cfg : Config) (s : Served Master) : LoopCall → Option (Served Master)
  | .schedule ptr pid prio =>
    (s.sched.masterSchedSchedule cfg ptr pid prio).map fun m => ⟨m, s.jobs⟩
  | .select job newTime ptrs =>
    (s.sched.masterSchedSelect cfg 0 job newTime ptrs).map fun r => ⟨r.1, r.2 :: s.jobs⟩
  | .reschedule job => (s.sched.masterSchedReschedule cfg 0 job).map fun m => ⟨m, s.jobs⟩
  | .unschedule job => (s.sched.masterSchedUnschedule cfg 0 job).map fun m => ⟨m, s.jobs⟩

def mainCall (cfg : Config) (s : Served Scheduler) : LoopCall → Option (Served Scheduler)
  | .schedule ptr pid prio =>
    (masterSchedSchedule cfg s.sched ptr pid prio).map fun t => ⟨t, s.jobs⟩
  | .select job _ _ =>
    (masterSchedSelect cfg s.sched 0 job).map fun r => ⟨r.1, r.2 :: s.jobs⟩
  | .reschedule job => (masterSchedReschedule cfg s.sched 0 job).map fun t => ⟨t, s.jobs⟩
  | .unschedule job => (masterSchedUnschedule s.sched 0 job).map fun t => ⟨t, s.jobs⟩

/-- The same jobs were handed out, and the scheduler of core 0 is the one of the other build. -/
structure Agree (a : Served Master) (b : Served Scheduler) : Prop where
  jobs : a.jobs = b.jobs
  sched : a.sched.schedulers 0 = some b.sched

/-- One core with `n` jobs, and `s` as its scheduler. -/
structure OneCore (n : Nat) (m : Master) (s : Scheduler) : Prop where
  nprocs : m.nprocs = 1
  scheduler : m.schedulers 0 = some s
  shared : m.singleJobs 0 = 0
  count : m.jobcounts 0 = BitVec.ofNat 64 n
  cached : m.Cached

variable {cfg : Config} {m m' : Master} {s t : Scheduler} {job : SchedulerJob} {n : Nat}
  {ptr pid newTime : ULong} {prio : SchedulerPriority} {ptrs : Nat → List ULong}

theorem OneCore.init (cfg : Config) (prim sec : Int) :
    OneCore 0 (Yarns.masterSchedInit cfg 1 prim sec) (masterSchedInit cfg 1 prim sec) where
  nprocs := rfl
  scheduler := rfl
  shared := rfl
  count := rfl
  cached := fun h => absurd h (Nat.lt_irrefl 0)

namespace OneCore

theorem forCore (h : OneCore n m s) : m.schedulerForCore cfg 0 = (m, s) := by
  rw [Master.schedulerForCore, h.scheduler]

/-- The scheduler was called and is put back. -/
theorem put (h : OneCore n m s) (t : Scheduler) : OneCore n (m.setScheduler 0 t) t where
  nprocs := h.nprocs
  scheduler := Master.schedulers_setScheduler
  shared := h.shared
  count := h.count
  cached := h.cached

theorem recount (h : OneCore n m s) {k : Nat} {v : ULong} (hv : v = BitVec.ofNat 64 k) :
    OneCore k { m with jobcounts := Function.update m.jobcounts 0 v } s where
  nprocs := h.nprocs
  scheduler := h.scheduler
  shared := h.shared
  count := by
    show Function.update m.jobcounts 0 v 0 = _
    rw [Function.update_self, hv]
  cached := h.cached

/-- No core is unused, so a titanic job is a job like others. -/
theorem unused (h : OneCore n m s) : m.selectCoreUnused = none := by
  rw [Master.selectCoreUnused, h.nprocs]
  rfl

/-- The only core has the least load, as long as its count is not taken for that of a
dedicated core. -/
theorem leastLoad (h : OneCore n m s) (hn : n < 2 ^ 64 - 1) :
    ∃ m', m.selectCoreLeastLoad = some (m', 0) ∧ OneCore n m' s ∧
      m'.jobcounts = m.jobcounts := by
  cases hsel : m.selectCoreLeastLoad with
  | none =>
    have hfull := Master.selectCoreLeastLoad_eq_none hsel 0 (by rw [h.nprocs]; exact Nat.one_pos)
    rw [h.count] at hfull
    have hval := congrArg BitVec.toNat hfull
    rw [BitVec.toNat_ofNat, Nat.mod_eq_of_lt (by omega)] at hval
    have hmax : ulongMax.toNat = 2 ^ 64 - 1 := rfl
    omega
  | some r =>
    obtain ⟨m', target⟩ := r
    obtain ⟨htarget, hcached, cd, rfl⟩ := Master.selectCoreLeastLoad_spec h.cached hsel
    rw [h.nprocs] at htarget
    obtain rfl : target = 0 := Nat.lt_one_iff.mp htarget
    exact ⟨_, rfl, ⟨h.nprocs, h.scheduler, h.shared, h.count, hcached⟩, rfl⟩

theorem scheduleShared (h : OneCore n m s) (hn : n < 2 ^ 64 - 1) :
    Option.Rel (OneCore (n + 1)) (m.scheduleShared cfg ptr pid prio)
      (s.schedule cfg ptr pid prio) := by
  obtain ⟨m', hleast, h', hcounts⟩ := h.leastLoad hn
  simp only [Master.scheduleShared, hleast, Option.bind_eq_bind, Option.bind_some, h'.forCore]
  cases s.schedule cfg ptr pid prio with
  | none => exact .none
  | some t =>
    refine .some ((h'.put t).recount ?_)
    show m'.jobcounts 0 + 1 = BitVec.ofNat 64 (n + 1)
    rw [h'.count, BitVec.ofNat_add]
    rfl

theorem schedule (h : OneCore n m s) (hn : n < 2 ^ 64 - 1) :
    Option.Rel (OneCore (n + 1)) (m.masterSchedSchedule cfg ptr pid prio)
      (s.schedule cfg ptr pid prio) := by
  rw [Master.masterSchedSchedule]
  split
  · rw [h.unused]
    exact h.scheduleShared hn
  · exact h.scheduleShared hn

/-- There is nothing to balance. -/
theorem account (h : OneCore n m s) : m.account cfg newTime ptrs = some m := by
  rw [Master.account, h.nprocs]
  exact if_neg fun hmore => Nat.lt_irrefl 1 hmore.1

theorem select (h : OneCore n m s) :
    Option.Rel (fun a b => OneCore n a.1 b.1 ∧ a.2 = b.2)
      (m.masterSchedSelect cfg 0 job newTime ptrs) (s.select cfg job) := by
  rw [Master.masterSchedSelect, h.account, Option.bind_some, Master.selectOn,
    if_neg (not_not_intro h.shared)]
  simp only [Master.doselect, h.forCore, Option.bind_eq_bind]
  cases s.select cfg job with
  | none => exact .none
  | some r => exact .some ⟨h.put r.1, rfl⟩

theorem reschedule (h : OneCore n m s) :
    Option.Rel (OneCore n) (m.masterSchedReschedule cfg 0 job) (s.reschedule cfg job) := by
  rw [Master.masterSchedReschedule, if_pos h.shared]
  simp only [h.forCore, Option.bind_eq_bind]
  cases s.reschedule cfg job with
  | none => exact .none
  | some t => exact .some (h.put t)

theorem unschedule (h : OneCore (n + 1) m s) :
    Option.Rel (OneCore n) (m.masterSchedUnschedule cfg 0 job) (s.unschedule job) := by
  rw [Master.masterSchedUnschedule, if_neg (not_not_intro h.shared)]
  simp only [h.forCore, Option.bind_eq_bind]
  cases s.unschedule job with
  | none => exact .none
  | some t =>
    refine .some ((h.put t).recount ?_)
    show m.jobcounts 0 - 1 = BitVec.ofNat 64 n
    rw [h.count, BitVec.ofNat_add]
    exact BitVec.add_sub_cancel _ _

end OneCore

/-! ## Whole runs -/

/-- The client gives up no more jobs than it has brought, and brings fewer than a word
counts; `n` are there already. -/
structure Balanced (n : Nat) (calls : List LoopCall) : Prop where
  gives : ∀ pre, pre <+: calls →
    pre.countP LoopCall.isUnschedule ≤ n + pre.countP LoopCall.isSchedule
  brings : n + calls.countP LoopCall.isSchedule < 2 ^ 64

/-- The calls after the first one, with the jobs that are there then. -/
theorem Balanced.tail {c : LoopCall} {calls : List LoopCall} (h : Balanced n (c :: calls))
    {k : Nat} (hk : k + c.isUnschedule.toNat = n + c.isSchedule.toNat) : Balanced k calls where
  gives := by
    intro pre hpre
    have hle := h.gives (c :: pre) (List.cons_prefix_cons.mpr ⟨rfl, hpre⟩)
    simp only [List.countP_cons] at hle
    cases hs : c.isSchedule <;> cases hu : c.isUnschedule <;> simp [hs, hu] at hle hk <;> omega
  brings := by
    have hlt := h.brings
    rw [List.countP_cons] at hlt
    cases hs : c.isSchedule <;> simp [hs] at hlt hk <;> omega

/-- The two builds before the calls that are still to come. -/
def Lockstep (calls : List LoopCall) (a : Served Master) (b : Served Scheduler) : Prop :=
  a.jobs = b.jobs ∧ ∃ n, OneCore n a.sched b.sched ∧ Balanced n calls

/-- One call of either build. -/
theorem call_lockstep (cfg : Config) (c : LoopCall) (calls : List LoopCall) (a : Served Master)
    (b : Served Scheduler) (h : Lockstep (c :: calls) a b) :
    Option.Rel (Lockstep calls) (smpCall cfg a c) (mainCall cfg b c) := by
  obtain ⟨hjobs, n, hone, hbal⟩ := h
  cases c with
  | schedule ptr pid prio =>
    have hlt := hbal.brings
    rw [List.countP_cons] at hlt
    have hn : n < 2 ^ 64 - 1 := by
      simp only [LoopCall.isSchedule, if_true] at hlt
      omega
    exact rel_map (hone.schedule hn) fun m t ht => ⟨hjobs, n + 1, ht, hbal.tail rfl⟩
  | select job newTime ptrs =>
    refine rel_map hone.select fun r r' hr => ⟨?_, n, hr.1, hbal.tail rfl⟩
    show r.2 :: a.jobs = r'.2 :: b.jobs
    rw [hr.2, hjobs]
  | reschedule job => exact rel_map hone.reschedule fun m t ht => ⟨hjobs, n, ht, hbal.tail rfl⟩
  | unschedule job =>
    -- there is a job to give up
    have hle := hbal.gives [.unschedule job] ⟨calls, rfl⟩
    obtain ⟨k, rfl⟩ : ∃ k, n = k + 1 := Nat.exists_eq_add_of_le' hle
    exact rel_map hone.unschedule fun m t ht => ⟨hjobs, k, ht, hbal.tail rfl⟩

/-- For every sequence of calls, the build with SMP and one core hands out the same jobs as
the build without, and fails where it fails. -/
theorem one_core (cfg : Config) (prim sec : Int) (calls : List LoopCall)
    (hcalls : Balanced 0 calls) :
    Option.Rel Agree (run (smpCall cfg) ⟨Yarns.masterSchedInit cfg 1 prim sec, []⟩ calls)
      (run (mainCall cfg) ⟨masterSchedInit cfg 1 prim sec, []⟩ calls) := by
  have hstart : Lockstep calls ⟨Yarns.masterSchedInit cfg 1 prim sec, []⟩
      ⟨masterSchedInit cfg 1 prim sec, []⟩ := ⟨rfl, 0, OneCore.init cfg prim sec, hcalls⟩
  have hrel := run_rel (R := Lockstep) (call_lockstep cfg) hstart
  generalize run (smpCall cfg) _ calls = x, run (mainCall cfg) _ calls = y at hrel ⊢
  cases hrel with
  | none => exact .none
  | some h =>
    obtain ⟨hjobs, n, hone, -⟩ := h
    exact .some ⟨hjobs, hone.scheduler⟩

/-- One yarn comes, runs and goes. -/
def visit : List LoopCall :=
  [.schedule 4096 7 .titanic, .select .blank 0 (fun _ => []), .unschedule ⟨7, 0, 4096, 0, .normal⟩]

theorem one_core_visit :
    (run (mainCall .defaultProfile) ⟨masterSchedInit .defaultProfile 1 2 2, []⟩ visit).map
        (fun b => b.jobs.map SchedulerJob.pid) = some [7] ∧
      Option.Rel Agree
        (run (smpCall .defaultProfile) ⟨Yarns.masterSchedInit .defaultProfile 1 2 2, []⟩ visit)
        (run (mainCall .defaultProfile) ⟨masterSchedInit .defaultProfile 1 2 2, []⟩ visit) := by
  refine ⟨by decide +kernel, one_core .defaultProfile 2 2 visit ⟨fun pre hpre => ?_, by decide⟩⟩
  cases pre with
  | nil => exact Nat.le_refl 0
  | cons c pre =>
    have hle : (c :: pre).countP LoopCall.isUnschedule ≤ 1 := hpre.sublist.countP_le
    obtain ⟨rfl, -⟩ := List.cons_prefix_cons.mp hpre
    rw [List.countP_cons (p := LoopCall.isSchedule)]
    simp only [LoopCall.isSchedule, if_true]
    omega

end MainScheduler

end Yarns
