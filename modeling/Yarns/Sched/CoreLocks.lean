import Yarns.Base.Parties
import Yarns.Base.WaitFor
import Yarns.Sched.Master

/-!
# The locks of the cores

The calls of `sched/master_scheduler.c` on any number of cores at once. What a call reads
and writes without a lock (the loads, the dedicated cores, the cache of
`select_core_least_load`) is one step an access; what it does under the lock of its core
is one step, and in `rebalance` every job that is moved is one. `lock_lock` spins, so its
step can be taken once the lock is free. What a call returns to its caller is left out.

`Pc.holds` and `Pc.waits` say which locks a core holds and which it waits for at each
place of the code; `access_cases` says what one step does to the locks.
-/

namespace Yarns

open Base

namespace Master

/-! ## What is done under one lock -/

def scheduleOn (cfg : Config) (m : Master) (target : Nat) (ptr pid : ULong)
    (prio : SchedulerPriority) : Option Master := do
  let (m, s) := m.schedulerForCore cfg target
  let s ← s.schedule cfg ptr pid prio
  let m := m.setScheduler target s
  some { m with jobcounts := Function.update m.jobcounts target (m.jobcounts target + 1) }

def unscheduleOn (cfg : Config) (m : Master) (core : Nat) (job : SchedulerJob) :
    Option Master := do
  let (m, s) := m.schedulerForCore cfg core
  let s ← s.unschedule job
  let m := m.setScheduler core s
  some { m with jobcounts := Function.update m.jobcounts core (m.jobcounts core - 1) }

def rescheduleOn (cfg : Config) (m : Master) (core : Nat) (job : SchedulerJob) :
    Option Master := do
  let (m, s) := m.schedulerForCore cfg core
  let s ← s.reschedule cfg job
  some (m.setScheduler core s)

theorem scheduleShared_eq (cfg : Config) (m : Master) (ptr pid : ULong)
    (prio : SchedulerPriority) : m.scheduleShared cfg ptr pid prio =
      m.selectCoreLeastLoad.bind fun r => r.1.scheduleOn cfg r.2 ptr pid prio := rfl

theorem masterSchedUnschedule_eq {cfg : Config} {m : Master} {core : Nat} {job : SchedulerJob}
    (h : m.singleJobs core = 0) :
    m.masterSchedUnschedule cfg core job = m.unscheduleOn cfg core job :=
  if_neg (not_not_intro h)

theorem masterSchedReschedule_eq {cfg : Config} {m : Master} {core : Nat} {job : SchedulerJob}
    (h : m.singleJobs core = 0) :
    m.masterSchedReschedule cfg core job = m.rescheduleOn cfg core job := if_pos h

end Master

/-- What a core does under the lock of one core. -/
inductive CoreWork where
  | schedule (pid : ULong) (prio : SchedulerPriority)
  | select (job : SchedulerJob)
  | unschedule (job : SchedulerJob)
  | reschedule (job : SchedulerJob)
  deriving DecidableEq

def CoreWork.run (cfg : Config) (m : Master) (core : Nat) (ptr : ULong) :
    CoreWork → Option Master
  | .schedule pid prio => m.scheduleOn cfg core ptr pid prio
  | .select job => (m.doselect cfg core job).map Prod.fst
  | .unschedule job => m.unscheduleOn cfg core job
  | .reschedule job => m.rescheduleOn cfg core job

/-- The arguments of a `master_sched_select`. -/
structure CoreSelect where
  core : Nat
  job : SchedulerJob
  deriving DecidableEq

/-- Who asked `select_core_least_load`. -/
inductive LeastFor where
  | rebalance (sel : CoreSelect) (shifts src : Nat)
  | schedule (pid : ULong) (prio : SchedulerPriority)
  deriving DecidableEq

/-- The next step of a core. `shifts` is how many rounds of the accounting come after. -/
inductive CorePc where
  | idle
  -- master_sched_schedule
  | unused (pid : ULong) (i : Nat)
  | dedicateJob (pid : ULong) (target : Nat)
  | dedicateCount (target : Nat)
  -- select_core_least_load
  | cacheTest (who : LeastFor)
  | cacheLoad (who : LeastFor)
  | cacheStore (who : LeastFor) (cd : Nat)
  | cacheMin (who : LeastFor)
  | least (who : LeastFor) (i : Nat) (acc : Nat × ULong)
  | storeCd (who : LeastFor) (min : Nat)
  | storeMin (who : LeastFor) (min : Nat)
  -- master_sched_select
  | due (sel : CoreSelect) (newTime : ULong)
  | stamp (sel : CoreSelect) (newTime : ULong)
  | single (sel : CoreSelect)
  -- select_core_most_load
  | most (sel : CoreSelect) (shifts i : Nat) (acc : Nat × ULong)
  | mostSingle (sel : CoreSelect) (shifts i : Nat) (acc : Nat × ULong) (jc : ULong)
  -- rebalance
  | lockSrc (sel : CoreSelect) (shifts src target : Nat)
  | lockTarget (sel : CoreSelect) (shifts src target : Nat)
  | hoist (sel : CoreSelect) (shifts src target : Nat)
  | unlockSrc (sel : CoreSelect) (shifts src target : Nat)
  | unlockTarget (sel : CoreSelect) (shifts target : Nat)
  -- one lock
  | lockOne (core : Nat) (work : CoreWork)
  | work (core : Nat) (work : CoreWork)
  | unlockOne (core : Nat)
  -- master_sched_unschedule, master_sched_reschedule
  | unscheduleTest (core : Nat) (job : SchedulerJob)
  | clearJob (core : Nat)
  | clearCount (core : Nat)
  | rescheduleTest (core : Nat) (job : SchedulerJob)
  deriving DecidableEq

/-- The master scheduler with the locks of its cores. -/
structure CoreLocks where
  master : Master
  locks : Nat → Bool

inductive CoreCall where
  | schedule (pid : ULong) (prio : SchedulerPriority)
  | unschedule (core : Nat) (job : SchedulerJob)
  | reschedule (core : Nat) (job : SchedulerJob)
  | select (core : Nat) (job : SchedulerJob) (newTime : ULong)

/-- A core makes a call, or goes on with the one it is in; `ptr` is the address that
`yalloc` returns if it is asked. -/
inductive CoreAct where
  | call (c : CoreCall)
  | step (ptr : ULong)

namespace CoreLocks

def setMaster (m : CoreLocks) (master : Master) : CoreLocks := { m with master := master }

@[simp] theorem setMaster_locks (m : CoreLocks) (master : Master) :
    (m.setMaster master).locks = m.locks := rfl

def lock (m : CoreLocks) (l : Nat) : CoreLocks :=
  { m with locks := Function.update m.locks l true }

def unlock (m : CoreLocks) (l : Nat) : CoreLocks :=
  { m with locks := Function.update m.locks l false }

/-- `cd - 1`, as a word. -/
def decCd (cd : Nat) : Nat := (cd + (2 ^ 64 - 1)) % 2 ^ 64

/-- Where `select_core_least_load` returns to. -/
def chosen (core : Nat) : LeastFor → CorePc
  | .rebalance sel shifts src => .lockSrc sel shifts src core
  | .schedule pid prio => .lockOne core (.schedule pid prio)

/-- The next round of the accounting. -/
def nextShift (sel : CoreSelect) : Nat → CorePc
  | 0 => .single sel
  | shifts + 1 => .most sel shifts 0 (ulongMax.toNat, 0)

def begin (m : CoreLocks) : CoreCall → CorePc
  | .schedule pid prio =>
    if prio = .titanic then .unused pid 1 else .cacheTest (.schedule pid prio)
  | .unschedule core job => .unscheduleTest core job
  | .reschedule core job => .rescheduleTest core job
  | .select core job newTime =>
    if m.master.nprocs > 1 then .due ⟨core, job⟩ newTime else .single ⟨core, job⟩

/-- The next step of a core that is in a call. -/
def access (cfg : Config) (m : CoreLocks) (ptr : ULong) : CorePc → Option (CoreLocks × CorePc)
  | .idle => none
  | .unused pid i =>
    if i < m.master.nprocs then
      match m.master.schedulers i with
      | none => some (m, .dedicateJob pid i)
      | some _ => some (m, .unused pid (i + 1))
    else some (m, .cacheTest (.schedule pid .titanic))
  | .dedicateJob pid target =>
    some (m.setMaster { m.master with
      singleJobs := Function.update m.master.singleJobs target pid }, .dedicateCount target)
  | .dedicateCount target =>
    some (m.setMaster { m.master with
      jobcounts := Function.update m.master.jobcounts target ulongMax }, .idle)
  | .cacheTest who =>
    if m.master.lastMinCd > 0 then some (m, .cacheLoad who)
    else some (m, .least who 0 (ulongMax.toNat, ulongMax))
  | .cacheLoad who => some (m, .cacheStore who m.master.lastMinCd)
  | .cacheStore who cd =>
    -- another core may have taken the last one in between, and then the word wraps
    some (m.setMaster { m.master with lastMinCd := decCd cd }, .cacheMin who)
  | .cacheMin who => some (m, chosen m.master.lastMin who)
  | .least who i acc =>
    if i < m.master.nprocs then some (m, .least who (i + 1) (m.master.leastLoadStep acc i))
    else if acc.2 = ulongMax then none
    else some (m, .storeCd who acc.1)
  | .storeCd who min => some (m.setMaster { m.master with lastMinCd := 2 }, .storeMin who min)
  | .storeMin who min => some (m.setMaster { m.master with lastMin := min }, chosen min who)
  | .due sel newTime =>
    if m.master.lastAccounting + ACCOUNTING_PERIOD < newTime then some (m, .stamp sel newTime)
    else some (m, .single sel)
  | .stamp sel newTime =>
    some (m.setMaster { m.master with lastAccounting := newTime },
      nextShift sel ACCOUNTING_SHIFTS)
  | .single sel =>
    if m.master.singleJobs sel.core ≠ 0 then some (m, .idle)
    else some (m, .lockOne sel.core (.select sel.job))
  | .most sel shifts i acc =>
    if i < m.master.nprocs then some (m, .mostSingle sel shifts i acc (m.master.jobcounts i))
    else some (m, .cacheTest (.rebalance sel shifts (if acc.2 = 0 then 0 else acc.1)))
  | .mostSingle sel shifts i acc jc =>
    if m.master.singleJobs i = 0 ∧ jc > acc.2 then some (m, .most sel shifts (i + 1) (i, jc))
    else some (m, .most sel shifts (i + 1) acc)
  | .lockSrc sel shifts src target =>
    if m.locks src then none else some (m.lock src, .lockTarget sel shifts src target)
  | .lockTarget sel shifts src target =>
    if m.locks target then none else some (m.lock target, .hoist sel shifts src target)
  | .hoist sel shifts src target =>
    if m.master.jobcounts src > m.master.jobcounts target then
      (m.master.jobHoist cfg src target ptr).map fun master =>
        (m.setMaster master, .hoist sel shifts src target)
    else some (m, .unlockSrc sel shifts src target)
  | .unlockSrc sel shifts src target => some (m.unlock src, .unlockTarget sel shifts target)
  | .unlockTarget sel shifts target => some (m.unlock target, nextShift sel shifts)
  | .lockOne core work => if m.locks core then none else some (m.lock core, .work core work)
  | .work core work =>
    (work.run cfg m.master core ptr).map fun master => (m.setMaster master, .unlockOne core)
  | .unlockOne core => some (m.unlock core, .idle)
  | .unscheduleTest core job =>
    if m.master.singleJobs core ≠ 0 then some (m, .clearJob core)
    else some (m, .lockOne core (.unschedule job))
  | .clearJob core =>
    some (m.setMaster { m.master with
      singleJobs := Function.update m.master.singleJobs core 0 }, .clearCount core)
  | .clearCount core =>
    some (m.setMaster { m.master with
      jobcounts := Function.update m.master.jobcounts core 0 }, .idle)
  | .rescheduleTest core job =>
    if m.master.singleJobs core = 0 then some (m, .lockOne core (.reschedule job))
    else some (m, .idle)

def act (cfg : Config) (m : CoreLocks) (pc : CorePc) : CoreAct → Option (CoreLocks × CorePc)
  | .call c => if pc = .idle then some (m, m.begin c) else none
  | .step ptr => access cfg m ptr pc

end CoreLocks

namespace CorePc

/-- The locks that a core holds. -/
def holds : CorePc → List Nat
  | .lockTarget _ _ src _ => [src]
  | .hoist _ _ src target | .unlockSrc _ _ src target => [src, target]
  | .unlockTarget _ _ target => [target]
  | .work core _ | .unlockOne core => [core]
  | _ => []

/-- The lock that a core waits for. -/
def waits : CorePc → Option Nat
  | .lockSrc _ _ src _ => some src
  | .lockTarget _ _ _ target => some target
  | .lockOne core _ => some core
  | _ => none

/-- The pair of cores of a `rebalance` that does not have both of its locks yet. -/
def pair : CorePc → Option (Nat × Nat)
  | .lockSrc _ _ src target | .lockTarget _ _ src target => some (src, target)
  | _ => none

/-- Past the second lock the two cores of a `rebalance` are different. -/
def Distinct : CorePc → Prop
  | .hoist _ _ src target | .unlockSrc _ _ src target => src ≠ target
  | _ => True

end CorePc

namespace CoreLocks

/-- What one step does to the locks, and to the pair of a `rebalance`. -/
inductive Effect (m : CoreLocks) (pc : CorePc) (m' : CoreLocks) (pc' : CorePc) : Prop
  | keep : m'.locks = m.locks → pc'.holds = pc.holds →
      (pc'.pair = none ∨ pc.pair = none) → Effect m pc m' pc'
  | acquire (l : Nat) : m.locks l = false → m'.locks = Function.update m.locks l true →
      pc.waits = some l → pc'.holds = pc.holds ++ [l] → (pc'.pair = none ∨ pc'.pair = pc.pair) →
      Effect m pc m' pc'
  | release (l : Nat) : m'.locks = Function.update m.locks l false → pc.holds = l :: pc'.holds →
      l ∉ pc'.holds → pc'.pair = none → Effect m pc m' pc'

variable {cfg : Config} {m m' : CoreLocks} {pc pc' : CorePc} {ptr : ULong}

theorem nextShift_holds (sel : CoreSelect) (shifts : Nat) :
    (nextShift sel shifts).holds = [] ∧ (nextShift sel shifts).pair = none ∧
      (nextShift sel shifts).Distinct := by
  cases shifts <;> exact ⟨rfl, rfl, trivial⟩

theorem chosen_holds (core : Nat) (who : LeastFor) :
    (chosen core who).holds = [] ∧ (chosen core who).Distinct := by
  cases who <;> exact ⟨rfl, trivial⟩

theorem begin_holds (m : CoreLocks) (c : CoreCall) :
    (m.begin c).holds = [] ∧ (m.begin c).Distinct := by
  cases c with
  | schedule pid prio =>
    rw [begin]
    split <;> exact ⟨rfl, trivial⟩
  | unschedule core job => exact ⟨rfl, trivial⟩
  | reschedule core job => exact ⟨rfl, trivial⟩
  | select core job newTime =>
    rw [begin]
    split <;> exact ⟨rfl, trivial⟩

theorem access_cases (hheld : ∀ l ∈ pc.holds, m.locks l = true) (hd : pc.Distinct)
    (h : access cfg m ptr pc = some (m', pc')) : Effect m pc m' pc' ∧ pc'.Distinct := by
  cases pc with
  | idle => cases h
  | unused pid i =>
    simp only [access] at h
    split at h
    · split at h <;> cases h <;> exact ⟨.keep rfl rfl (Or.inl rfl), trivial⟩
    · cases h
      exact ⟨.keep rfl rfl (Or.inl rfl), trivial⟩
  | dedicateJob | dedicateCount | cacheLoad | storeCd | clearJob | clearCount =>
    cases h
    exact ⟨.keep rfl rfl (Or.inl rfl), trivial⟩
  | cacheStore who cd =>
    rw [access] at h
    obtain ⟨rfl, rfl⟩ := Prod.mk.inj (Option.some.inj h)
    exact ⟨.keep (setMaster_locks ..) rfl (Or.inl rfl), trivial⟩
  | cacheTest | due | single | most | mostSingle | unscheduleTest | rescheduleTest =>
    simp only [access] at h
    split at h <;> cases h <;> exact ⟨.keep rfl rfl (Or.inl rfl), trivial⟩
  | cacheMin who =>
    cases h
    obtain ⟨hh, hd'⟩ := chosen_holds m.master.lastMin who
    exact ⟨.keep rfl hh (Or.inr rfl), hd'⟩
  | storeMin who min =>
    cases h
    obtain ⟨hh, hd'⟩ := chosen_holds min who
    exact ⟨.keep rfl hh (Or.inr rfl), hd'⟩
  | least who i acc =>
    simp only [access] at h
    split at h
    · cases h
      exact ⟨.keep rfl rfl (Or.inl rfl), trivial⟩
    · split at h <;> cases h
      exact ⟨.keep rfl rfl (Or.inl rfl), trivial⟩
  | stamp sel newTime =>
    cases h
    exact ⟨.keep rfl rfl (Or.inl rfl), trivial⟩
  | lockSrc sel shifts src target =>
    simp only [access] at h
    split at h
    · cases h
    next hfree =>
      cases h
      exact ⟨.acquire src (Bool.eq_false_iff.mpr hfree) rfl rfl rfl (Or.inr rfl), trivial⟩
  | lockTarget sel shifts src target =>
    simp only [access] at h
    split at h
    · cases h
    next hfree =>
      cases h
      refine ⟨.acquire target (Bool.eq_false_iff.mpr hfree) rfl rfl rfl (Or.inl rfl), ?_⟩
      -- the first lock is taken and the second was free
      rintro rfl
      exact hfree (hheld src List.mem_cons_self)
  | hoist sel shifts src target =>
    simp only [access] at h
    split at h
    · obtain ⟨master, -, heq⟩ := Option.map_eq_some_iff.mp h
      cases heq
      exact ⟨.keep rfl rfl (Or.inl rfl), hd⟩
    · cases h
      exact ⟨.keep rfl rfl (Or.inl rfl), hd⟩
  | unlockSrc sel shifts src target =>
    cases h
    exact ⟨.release src rfl rfl (fun hmem => hd (List.mem_singleton.mp hmem)) rfl, trivial⟩
  | unlockTarget sel shifts target =>
    cases h
    obtain ⟨hh, hp, hd'⟩ := nextShift_holds sel shifts
    refine ⟨.release target rfl ?_ ?_ hp, hd'⟩
    · rw [hh]
      rfl
    · rw [hh]
      exact List.not_mem_nil
  | lockOne core work =>
    simp only [access] at h
    split at h
    · cases h
    next hfree =>
      cases h
      exact ⟨.acquire core (Bool.eq_false_iff.mpr hfree) rfl rfl rfl (Or.inl rfl), trivial⟩
  | work core work =>
    obtain ⟨master, -, heq⟩ := Option.map_eq_some_iff.mp h
    cases heq
    exact ⟨.keep rfl rfl (Or.inl rfl), trivial⟩
  | unlockOne core =>
    cases h
    exact ⟨.release core rfl rfl List.not_mem_nil rfl, trivial⟩

/-- The step of a core that waits for a taken lock. -/
theorem access_taken {l : Nat} (hw : pc.waits = some l) (hl : m.locks l = true) :
    access cfg m ptr pc = none := by
  cases pc with
  | lockSrc | lockTarget | lockOne =>
    obtain rfl := Option.some.inj hw
    exact if_pos hl
  | _ => cases hw

theorem act_cases {a : CoreAct} (hheld : ∀ l ∈ pc.holds, m.locks l = true) (hd : pc.Distinct)
    (h : act cfg m pc a = some (m', pc')) : Effect m pc m' pc' ∧ pc'.Distinct := by
  cases a with
  | call c =>
    simp only [act] at h
    split at h
    next hidle =>
      cases h
      subst hidle
      obtain ⟨hh, hd'⟩ := begin_holds m c
      exact ⟨.keep rfl hh (Or.inr rfl), hd'⟩
    · cases h
  | step ptr => exact access_cases hheld hd h

/-- A core that takes one lock twice does not come to another place. -/
theorem act_of_self_pair {a : CoreAct} {l : Nat} (hheld : ∀ k ∈ pc.holds, m.locks k = true)
    (hself : pc.pair = some (l, l)) (h : act cfg m pc a = some (m', pc')) :
    pc'.pair = some (l, l) := by
  cases a with
  | call c =>
    simp only [act] at h
    split at h
    · rw [‹pc = .idle›] at hself
      cases hself
    · cases h
  | step ptr =>
    cases pc with
    | lockSrc sel shifts src target =>
      simp only [act, access] at h
      split at h
      · cases h
      · cases h
        exact hself
    | lockTarget sel shifts src target =>
      cases hself
      rw [act, access_taken rfl (hheld l List.mem_cons_self)] at h
      cases h
    | _ => cases hself

end CoreLocks

end Yarns
