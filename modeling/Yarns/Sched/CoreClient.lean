import Yarns.Sched.CoreErrands
import Yarns.Sched.CoreLocksRuns

/-!
# The master scheduler under interleaving

The calls of `sched/master_scheduler.c` on any number of cores, interleaved access by access,
with what the callers know: which jobs the selects have handed out and which pids are with
the scheduler. If nothing is `TITANIC`, no call loses a job or makes a second one
(`jobs_kept`): every live pid is with one call that is under way, queued on one core, or
handed out by one core, the counter of a core counts the pids at it, and a scheduler or a
counter is only changed by the core that holds its lock.
-/

namespace Yarns

open Base Master

/-! ## What a call carries -/

def CoreCall.errand : CoreCall → Option Errand
  | .schedule pid _ => some (.enter pid)
  | .unschedule core job => some (.drop core job)
  | .reschedule core job => some (.requeue core job)
  | .select .. => none

def LeastFor.errand : LeastFor → Option Errand
  | .rebalance .. => none
  | .schedule pid _ => some (.enter pid)

def CoreWork.errand (core : Nat) : CoreWork → Option Errand
  | .schedule pid _ => some (.enter pid)
  | .select _ => none
  | .unschedule job => some (.drop core job)
  | .reschedule job => some (.requeue core job)

namespace CorePc

def errand : CorePc → Option Errand
  | .unused pid _ | .dedicateJob pid _ => some (.enter pid)
  | .cacheTest who | .cacheLoad who | .cacheStore who _ | .cacheMin who | .least who _ _
  | .storeCd who _ | .storeMin who _ => who.errand
  | .lockOne core w | .work core w => w.errand core
  | .unscheduleTest core job => some (.drop core job)
  | .rescheduleTest core job => some (.requeue core job)
  | _ => none

/-- The next step of a select takes a job from its scheduler. -/
def handsOut : CorePc → Bool
  | .work _ (.select _) => true
  | _ => false

/-- The cores of the call are cores, and none is dedicated. -/
def Shared (n : Nat) : CorePc → Prop
  | .idle => True
  | .unused .. | .dedicateJob .. | .dedicateCount _ | .clearJob _ | .clearCount _ => False
  | .cacheTest who | .cacheLoad who | .cacheStore who _ | .cacheMin who => LeastShared who
  | .least who _ acc => LeastShared who ∧ (acc.2 ≠ ulongMax → acc.1 < n)
  | .storeCd who min | .storeMin who min => LeastShared who ∧ min < n
  | .due sel _ | .stamp sel _ | .single sel => sel.core < n
  | .most sel _ _ acc => sel.core < n ∧ (acc.2 ≠ 0 → acc.1 < n)
  | .mostSingle sel _ i acc _ => sel.core < n ∧ i < n ∧ (acc.2 ≠ 0 → acc.1 < n)
  | .lockSrc sel _ src target | .lockTarget sel _ src target | .hoist sel _ src target
  | .unlockSrc sel _ src target => sel.core < n ∧ src < n ∧ target < n
  | .unlockTarget sel _ _ => sel.core < n
  | .lockOne core _ | .work core _ | .unlockOne core => core < n
  | .unscheduleTest core _ | .rescheduleTest core _ => core < n
where
  LeastShared : LeastFor → Prop
    | .rebalance sel _ src => sel.core < n ∧ src < n
    | .schedule .. => True

end CorePc

/-! ## One access -/

namespace CoreLocks

/-- What one access does to the master scheduler. -/
inductive Section (cfg : Config) (m : Master) (ptr : ULong) (pc pc' : CorePc) :
    Master → Prop
  | cache (time : ULong) (min cd : Nat) : min < m.nprocs → pc'.errand = pc.errand →
      pc.handsOut = false →
      Section cfg m ptr pc pc' { m with lastAccounting := time, lastMin := min, lastMinCd := cd }
  | hoist {src dst : Nat} {m' : Master} : src < m.nprocs → dst < m.nprocs →
      src ≠ dst → pc.holds = [src, dst] → m.jobHoist cfg src dst ptr = some m' →
      pc'.errand = pc.errand → pc.handsOut = false → Section cfg m ptr pc pc' m'
  | work {core : Nat} {work : CoreWork} {m' : Master} : pc = .work core work →
      core < m.nprocs → work.run cfg m core ptr = some m' → pc'.errand = none →
      Section cfg m ptr pc pc' m'

variable {cfg : Config} {s s' : CoreLocks} {m m' : Master} {pc pc' : CorePc} {ptr : ULong}
  {core : Nat}

theorem keep_section (hmin : m.lastMin < m.nprocs) (he : pc'.errand = pc.errand)
    (hpc : pc.handsOut = false) : Section cfg m ptr pc pc' m :=
  .cache m.lastAccounting m.lastMin m.lastMinCd hmin he hpc

theorem chosen_errand (core : Nat) (who : LeastFor) : (chosen core who).errand = who.errand := by
  cases who <;> rfl

theorem chosen_shared {n : Nat} {who : LeastFor} (hcore : core < n)
    (h : CorePc.Shared.LeastShared n who) : (chosen core who).Shared n := by
  cases who with
  | rebalance sel shifts src => exact ⟨h.1, h.2, hcore⟩
  | schedule pid prio => exact hcore

theorem nextShift_errand (sel : CoreSelect) (shifts : Nat) :
    (nextShift sel shifts).errand = none := by
  cases shifts <;> rfl

theorem nextShift_shared {n : Nat} (sel : CoreSelect) (shifts : Nat) (h : sel.core < n) :
    (nextShift sel shifts).Shared n := by
  cases shifts with
  | zero => exact h
  | succ shifts => exact ⟨h, fun hne => absurd rfl hne⟩

theorem access_section (hmin : s.master.lastMin < s.master.nprocs)
    (hsingle : ∀ c, s.master.singleJobs c = 0) (hshared : pc.Shared s.master.nprocs)
    (hd : pc.Distinct) (h : access cfg s ptr pc = some (s', pc')) :
    Section cfg s.master ptr pc pc' s'.master ∧ pc'.Shared s.master.nprocs := by
  cases pc with
  | idle => cases h
  | unused | dedicateJob | dedicateCount | clearJob | clearCount => cases hshared
  | cacheTest who =>
    simp only [access] at h
    split at h
    · cases h
      exact ⟨keep_section hmin rfl rfl, hshared⟩
    · cases h
      exact ⟨keep_section hmin rfl rfl, hshared, fun hne => absurd rfl hne⟩
  | cacheLoad who =>
    cases h
    exact ⟨keep_section hmin rfl rfl, hshared⟩
  | cacheStore who cd =>
    rw [access] at h
    obtain ⟨rfl, rfl⟩ := Prod.mk.inj (Option.some.inj h)
    exact ⟨.cache _ _ _ hmin rfl rfl, hshared⟩
  | cacheMin who =>
    cases h
    refine ⟨keep_section hmin (chosen_errand _ who) rfl, ?_⟩
    exact chosen_shared hmin hshared
  | least who i acc =>
    obtain ⟨hwho, hacc⟩ := hshared
    simp only [access] at h
    split at h
    next hi =>
      cases h
      refine ⟨keep_section hmin rfl rfl, hwho, ?_⟩
      rw [leastLoadStep]
      split
      · exact fun _ => hi
      · exact hacc
    next =>
      split at h
      · cases h
      next hne =>
        cases h
        exact ⟨keep_section hmin rfl rfl, hwho, hacc hne⟩
  | storeCd who min =>
    cases h
    exact ⟨.cache _ _ _ hmin rfl rfl, hshared⟩
  | storeMin who min =>
    cases h
    refine ⟨.cache _ _ _ hshared.2 (chosen_errand _ who) rfl, ?_⟩
    exact chosen_shared hshared.2 hshared.1
  | due sel newTime =>
    simp only [access] at h
    split at h <;> cases h <;> exact ⟨keep_section hmin rfl rfl, hshared⟩
  | stamp sel newTime =>
    cases h
    exact ⟨.cache _ _ _ hmin rfl rfl, nextShift_shared sel _ hshared⟩
  | single sel =>
    rw [access, if_neg (not_not_intro (hsingle _))] at h
    cases h
    exact ⟨keep_section hmin rfl rfl, hshared⟩
  | most sel shifts i acc =>
    obtain ⟨hcore, hacc⟩ := hshared
    simp only [access] at h
    split at h
    next hi =>
      cases h
      exact ⟨keep_section hmin rfl rfl, hcore, hi, hacc⟩
    next =>
      cases h
      refine ⟨keep_section hmin rfl rfl, hcore, ?_⟩
      split
      · omega
      next hne => exact hacc hne
  | mostSingle sel shifts i acc jc =>
    obtain ⟨hcore, hi, hacc⟩ := hshared
    simp only [access] at h
    split at h <;> cases h
    · exact ⟨keep_section hmin rfl rfl, hcore, fun _ => hi⟩
    · exact ⟨keep_section hmin rfl rfl, hcore, hacc⟩
  | lockSrc sel shifts src target =>
    simp only [access] at h
    split at h <;> cases h
    exact ⟨keep_section hmin rfl rfl, hshared⟩
  | lockTarget sel shifts src target =>
    simp only [access] at h
    split at h <;> cases h
    exact ⟨keep_section hmin rfl rfl, hshared⟩
  | hoist sel shifts src target =>
    simp only [access] at h
    split at h
    · obtain ⟨m', hm, heq⟩ := Option.map_eq_some_iff.mp h
      cases heq
      obtain ⟨hcore, hsrc, htarget⟩ := hshared
      exact ⟨.hoist hsrc htarget hd rfl hm rfl rfl, hcore, hsrc, htarget⟩
    · cases h
      exact ⟨keep_section hmin rfl rfl, hshared⟩
  | unlockSrc sel shifts src target =>
    cases h
    exact ⟨keep_section hmin rfl rfl, hshared.1⟩
  | unlockTarget sel shifts target =>
    cases h
    exact ⟨keep_section hmin (nextShift_errand sel shifts) rfl, nextShift_shared sel _ hshared⟩
  | lockOne core w =>
    simp only [access] at h
    split at h <;> cases h
    exact ⟨keep_section hmin rfl rfl, hshared⟩
  | work core w =>
    obtain ⟨m', hm, heq⟩ := Option.map_eq_some_iff.mp h
    cases heq
    exact ⟨.work rfl hshared hm rfl, hshared⟩
  | unlockOne core =>
    cases h
    exact ⟨keep_section hmin rfl rfl, trivial⟩
  | unscheduleTest core job =>
    rw [access, if_neg (not_not_intro (hsingle core))] at h
    cases h
    exact ⟨keep_section hmin rfl rfl, hshared⟩
  | rescheduleTest core job =>
    rw [access, if_pos (hsingle core)] at h
    cases h
    exact ⟨keep_section hmin rfl rfl, hshared⟩

theorem begin_errand (s : CoreLocks) (c : CoreCall) : (s.begin c).errand = c.errand := by
  cases c with
  | schedule pid prio =>
    rw [begin]
    split <;> rfl
  | unschedule | reschedule => rfl
  | select core job newTime =>
    rw [begin]
    split <;> rfl

/-! ## What a critical section leaves alone -/

/-- All but the scheduler and the counter of some cores. -/
structure SameExcept (cores : List Nat) (m m' : Master) : Prop where
  nprocs : m'.nprocs = m.nprocs
  lastMin : m'.lastMin = m.lastMin
  off : ∀ c, c ∉ cores → m'.schedulers c = m.schedulers c ∧ m'.jobcounts c = m.jobcounts c

theorem sameExcept_set (cfg : Config) (m : Master) (core : Nat) (s : Scheduler) :
    SameExcept [core] m ((m.schedulerForCore cfg core).1.setScheduler core s) := by
  rw [schedulerForCore_set]
  refine ⟨rfl, rfl, fun c hc => ⟨?_, rfl⟩⟩
  exact schedulers_setScheduler_of_ne fun he => hc (List.mem_singleton.mpr he)

theorem SameExcept.count (h : SameExcept [core] m m') (n : ULong) :
    SameExcept [core] m { m' with jobcounts := Function.update m'.jobcounts core n } := by
  refine ⟨h.nprocs, h.lastMin, fun c hc => ⟨(h.off c hc).1, ?_⟩⟩
  refine Eq.trans ?_ (h.off c hc).2
  exact Function.update_of_ne (fun he => hc (List.mem_singleton.mpr he)) _ _

theorem work_frame {w : CoreWork} (h : w.run cfg m core ptr = some m') :
    SameExcept [core] m m' := by
  cases w with
  | schedule pid prio =>
    simp only [CoreWork.run, scheduleOn, Option.bind_eq_bind, Option.bind_eq_some_iff] at h
    obtain ⟨s, -, heq⟩ := h
    cases heq
    exact (sameExcept_set cfg m core s).count _
  | select job =>
    obtain ⟨r, hr, rfl⟩ := Option.map_eq_some_iff.mp h
    simp only [doselect, Option.bind_eq_bind, Option.bind_eq_some_iff] at hr
    obtain ⟨⟨s, job'⟩, -, heq⟩ := hr
    cases heq
    exact sameExcept_set cfg m core s
  | unschedule job =>
    simp only [CoreWork.run, unscheduleOn, Option.bind_eq_bind, Option.bind_eq_some_iff] at h
    obtain ⟨s, -, heq⟩ := h
    cases heq
    exact (sameExcept_set cfg m core s).count _
  | reschedule job =>
    simp only [CoreWork.run, rescheduleOn, Option.bind_eq_bind, Option.bind_eq_some_iff] at h
    obtain ⟨s, -, heq⟩ := h
    cases heq
    exact sameExcept_set cfg m core s

theorem hoist_frame {src dst : Nat} (h : m.jobHoist cfg src dst ptr = some m') :
    SameExcept [src, dst] m m' := by
  simp only [jobHoist, Option.bind_eq_bind, Option.bind_eq_some_iff] at h
  obtain ⟨source, -, ⟨source', job⟩, -, h⟩ := h
  have hne : ∀ {c}, c ∉ [src, dst] → c ≠ src ∧ c ≠ dst := by
    intro c hc
    simpa using hc
  dsimp only at h
  split at h
  · simp only [hoistJob, Option.bind_eq_bind, Option.bind_eq_some_iff] at h
    obtain ⟨target, -, target', -, source₂, -, source₃, -, heq⟩ := h
    cases heq
    refine ⟨rfl, rfl, fun c hc => ?_⟩
    obtain ⟨hsrc, hdst⟩ := hne hc
    constructor
    · rw [schedulers_setScheduler_of_ne hsrc, schedulers_setScheduler_of_ne hdst,
        schedulers_setScheduler_of_ne hsrc]
    · exact (Function.update_of_ne hdst _ _).trans (Function.update_of_ne hsrc _ _)
  · cases h
    exact ⟨rfl, rfl, fun c hc => ⟨schedulers_setScheduler_of_ne (hne hc).1, rfl⟩⟩

/-- Only under its lock a scheduler or a counter is changed. -/
theorem Section.frame (h : Section cfg m ptr pc pc' m') :
    m'.nprocs = m.nprocs ∧ ∀ c, c ∉ pc.holds →
      m'.schedulers c = m.schedulers c ∧ m'.jobcounts c = m.jobcounts c := by
  cases h with
  | cache => exact ⟨rfl, fun _ _ => ⟨rfl, rfl⟩⟩
  | hoist hsrc hdst hne hholds hm =>
    have hsame := hoist_frame hm
    rw [hholds]
    exact ⟨hsame.nprocs, hsame.off⟩
  | work hpc hcore hm =>
    have hsame := work_frame hm
    rw [hpc]
    exact ⟨hsame.nprocs, hsame.off⟩

theorem Section.lastMin (h : Section cfg m ptr pc pc' m') (hmin : m.lastMin < m.nprocs) :
    m'.lastMin < m'.nprocs := by
  cases h with
  | cache _ _ _ hmin => exact hmin
  | hoist hsrc hdst hne hholds hm =>
    have hsame := hoist_frame hm
    rwa [hsame.lastMin, hsame.nprocs]
  | work hpc hcore hm =>
    have hsame := work_frame hm
    rwa [hsame.lastMin, hsame.nprocs]

end CoreLocks

/-! ## The callers -/

/-- The cores, the jobs that were handed out and not taken back, and the pids that are with
the master scheduler. -/
structure CoreClient (ι : Type) where
  cores : CoreState ι
  out : Nat → List SchedulerJob
  live : ULong → Bool

/-- The jobs that are out after a step. -/
def outAfter (cfg : Config) (m : Master) (pc : CorePc) (out : Nat → List SchedulerJob) :
    CoreAct → Nat → List SchedulerJob
  | .call c =>
    match c.errand.bind Errand.returned with
    | some (core, job) =>
      Function.update out core ((out core).filter fun g => g.pid ≠ job.pid)
    | none => out
  | .step _ =>
    match pc with
    | .work core (.select job) =>
      match m.doselect cfg core job with
      | some (_, job') =>
        if job'.pid = 0 then out else Function.update out core (job' :: out core)
      | none => out
    | _ => out

def liveAfter (live : ULong → Bool) : CoreAct → ULong → Bool
  | .call c =>
    match c.errand with
    | some e => e.mark live
    | none => live
  | .step _ => live

namespace CoreClient

variable {ι : Type}

def start (cfg : Config) (procs : Nat) (prim sec : Int) : CoreClient ι :=
  ⟨CoreLocks.start (masterSchedInit cfg procs prim sec), fun _ => [], fun _ => false⟩

def step [DecidableEq ι] (cfg : Config) (s : CoreClient ι) (p : ι × CoreAct) :
    Option (CoreClient ι) :=
  (CoreLocks.step cfg s.cores p).map fun cores =>
    ⟨cores, outAfter cfg s.cores.memory.master (s.cores.locals p.1) s.out p.2, liveAfter s.live p.2⟩

def master (s : CoreClient ι) : Master := s.cores.memory.master

def carried (s : CoreClient ι) (i : ι) : Option Errand := (s.cores.locals i).errand

/-- Every call is about cores that are there, a new pid is new and not `TITANIC`, and a job
goes back once, to the core it comes from. -/
def Orderly (s : CoreClient ι) (p : ι × CoreAct) : Prop :=
  match p.2 with
  | .call (.schedule pid prio) => prio ≠ .titanic ∧ pid ≠ 0 ∧ s.live pid = false ∧
      ∀ i, (s.carried i).map Errand.pid ≠ some pid
  | .call (.select core _ _) => core < s.master.nprocs
  | .call (.unschedule core job) | .call (.reschedule core job) =>
      core < s.master.nprocs ∧ ∃ g ∈ s.out core, job.Returns g
  | .step _ => True

instance [Fintype ι] (s : CoreClient ι) : (p : ι × CoreAct) → Decidable (s.Orderly p)
  | (_, .call (.schedule pid prio)) => inferInstanceAs (Decidable (prio ≠ .titanic ∧ pid ≠ 0 ∧
      s.live pid = false ∧ ∀ i, (s.carried i).map Errand.pid ≠ some pid))
  | (_, .call (.select core _ _)) => inferInstanceAs (Decidable (core < s.master.nprocs))
  | (_, .call (.unschedule core job)) | (_, .call (.reschedule core job)) =>
    inferInstanceAs (Decidable (core < s.master.nprocs ∧ ∃ g ∈ s.out core, job.Returns g))
  | (_, .step _) => inferInstanceAs (Decidable True)

inductive Place (ι : Type) where
  | call (i : ι)
  | queue (core : Nat)
  | out (core : Nat)

/-- The pid is there. -/
def At (s : CoreClient ι) (pid : ULong) : Place ι → Prop
  | .call i => (s.carried i).map Errand.pid = some pid
  | .queue core => core < s.master.nprocs ∧ pid ∈ s.master.queuedPids core
  | .out core => core < s.master.nprocs ∧ pid ∈ (s.out core).map SchedulerJob.pid

/-- The pid is queued on the core, handed out by it, or on its way back to it. -/
def Counted (s : CoreClient ι) (core : Nat) (pid : ULong) : Prop :=
  pid ∈ s.master.queuedPids core ∨ pid ∈ (s.out core).map SchedulerJob.pid ∨
    Carries s.carried fun e => e.Brings core pid

/-- What a step keeps. -/
structure Kept (s : CoreClient ι) (p : ι × CoreAct) (t : CoreClient ι) : Prop where
  one_place : ∀ pid, t.live pid = true → ∃! place, t.At pid place
  counted : ∀ c < t.master.nprocs, ∃ pids : List ULong, pids.Nodup ∧
    (∀ pid, pid ∈ pids ↔ t.Counted c pid) ∧ t.master.jobcounts c = BitVec.ofNat 64 pids.length
  locked : ∀ c, ¬ (t.master.schedulers c = s.master.schedulers c ∧
      t.master.jobcounts c = s.master.jobcounts c) →
    c ∈ (s.cores.locals p.1).holds ∧ ∀ j, c ∈ (s.cores.locals j).holds → j = p.1

/-- What holds of every state of an orderly run. -/
structure Sound (s : CoreClient ι) : Prop where
  locks : CoreLocks.Inv s.cores
  tracks : ∃ st queued, st.master = s.master ∧ Tracks s.carried s.out s.live st queued
  shared : ∀ i, (s.cores.locals i).Shared s.master.nprocs
  lastMin : s.master.lastMin < s.master.nprocs

variable {cfg : Config} {s t : CoreClient ι} {p : ι × CoreAct} {pid : ULong}

theorem start_sound (cfg : Config) {procs : Nat} (hp : 0 < procs) (prim sec : Int) :
    Sound (start cfg procs prim sec : CoreClient ι) where
  locks := CoreLocks.start_inv _
  tracks := by
    refine ⟨Client.start cfg procs prim sec, fun _ => [], rfl,
      Client.start_inv True cfg procs prim sec, fun _ _ h => h, fun _ _ h => (by cases h), ?_,
      fun _ _ _ _ h => (by cases h), fun _ _ h => (by cases h), fun pid => ?_⟩
    · exact fun c g hg => Or.inl hg
    · refine iff_of_false Bool.false_ne_true ?_
      rintro (⟨h, -⟩ | ⟨i, e, h, -⟩)
      · cases h
      · cases h
  shared := fun _ => trivial
  lastMin := hp

variable [DecidableEq ι]

omit [DecidableEq ι] in
theorem carried_update [DecidableEq ι] (m : CoreLocks) (locals : ι → CorePc) (i : ι) (pc : CorePc)
    (out : Nat → List SchedulerJob) (live : ULong → Bool) :
    carried ⟨⟨m, Function.update locals i pc⟩, out, live⟩ =
      Function.update (fun j => (locals j).errand) i pc.errand :=
  Function.comp_update CorePc.errand locals i pc

omit [DecidableEq ι] in
/-- The errand of a call that begins is one about jobs that are there. -/
theorem call_tracks [DecidableEq ι] (cfg : Config) {st : Client} {queued : Nat → List ULong}
    (h : Tracks s.carried s.out s.live st queued) (hst : st.master = s.master) {i : ι}
    {c : CoreCall} (hnone : s.carried i = none) (hgood : s.Orderly (i, .call c)) :
    Tracks (Function.update s.carried i c.errand)
      (outAfter cfg s.master (s.cores.locals i) s.out (.call c)) (liveAfter s.live (.call c)) st
      queued := by
  cases c with
  | schedule pid prio =>
    obtain ⟨-, h0, hlive, hno⟩ := hgood
    refine h.enter hnone h0 hlive ?_
    rintro ⟨j, e, hj, he⟩
    refine hno j ?_
    rw [hj, Option.map_some, he]
  | select core job newTime =>
    have hsame : Function.update s.carried i none = s.carried := by
      rw [← hnone, Function.update_eq_self]
    rw [CoreCall.errand, hsame]
    exact h
  | unschedule core job =>
    obtain ⟨hcore, g, hg, hjob⟩ := hgood
    exact h.takeBack hnone rfl (hst ▸ hcore) hg hjob
  | reschedule core job =>
    obtain ⟨hcore, g, hg, hjob⟩ := hgood
    exact h.takeBack hnone rfl (hst ▸ hcore) hg hjob

omit [DecidableEq ι] in
theorem begin_shared {i : ι} {c : CoreCall} (hgood : s.Orderly (i, .call c)) :
    (s.cores.memory.begin c).Shared s.master.nprocs := by
  cases c with
  | schedule pid prio =>
    rw [CoreLocks.begin, if_neg hgood.1]
    trivial
  | unschedule | reschedule => exact hgood.1
  | select core job newTime =>
    rw [CoreLocks.begin]
    split <;> exact hgood

/-- A call begins. -/
theorem Sound.call_sound (h : Sound s) {i : ι} {c : CoreCall} (hgood : s.Orderly (i, .call c))
    (hs : s.step cfg (i, .call c) = some t) : Sound t ∧ t.master = s.master := by
  obtain ⟨cores, hcores, rfl⟩ := Option.map_eq_some_iff.mp hs
  have hlocks := CoreLocks.step_inv h.locks hcores
  obtain ⟨m, pc, hact, rfl⟩ := Parties.step_cases hcores
  rw [CoreLocks.act] at hact
  split at hact
  next hidle =>
    obtain ⟨rfl, rfl⟩ := Prod.mk.inj (Option.some.inj hact)
    obtain ⟨st, queued, hst, htracks⟩ := h.tracks
    have hnone : s.carried i = none := by
      rw [carried, hidle]
      rfl
    refine ⟨⟨hlocks, ⟨st, queued, hst, ?_⟩, ?_, h.lastMin⟩, rfl⟩
    · rw [carried_update, CoreLocks.begin_errand]
      exact call_tracks cfg htracks hst hnone hgood
    · exact forall_update (P := fun _ (pc : CorePc) => pc.Shared s.master.nprocs)
        (fun j _ => h.shared j) (begin_shared hgood)
  next => cases hact

/-- A critical section. -/
theorem work_tracks {st : Client} {queued : Nat → List ULong}
    (h : Tracks s.carried s.out s.live st queued) (hst : st.master = s.master) {i : ι} {core : Nat}
    {w : CoreWork} {ptr : ULong} {m : Master} (hpc : s.cores.locals i = .work core w)
    (hcore : core < s.master.nprocs) (hmin : m.lastMin < m.nprocs)
    (hn : m.nprocs = s.master.nprocs) (hm : w.run cfg s.master core ptr = some m) :
    ∃ st' queued', st'.master = m ∧ Tracks (Function.update s.carried i none)
      (outAfter cfg s.master (s.cores.locals i) s.out (.step ptr)) s.live st' queued' := by
  have hi : s.carried i = w.errand core := by
    rw [carried, hpc]
    rfl
  rw [← hst] at hcore hn hm
  rw [hpc]
  cases w with
  | schedule pid prio =>
    obtain ⟨queued', h'⟩ := h.entered hi hcore hmin hn hm
    exact ⟨_, queued', rfl, h'⟩
  | select job =>
    obtain ⟨⟨m', job'⟩, hsel, rfl⟩ := Option.map_eq_some_iff.mp hm
    have hsame : Function.update s.carried i none = s.carried := by
      rw [← show s.carried i = none from hi, Function.update_eq_self]
    obtain ⟨st', queued', hst', h'⟩ := h.selected hcore hsel
    refine ⟨st', queued', hst', ?_⟩
    rw [hst] at hsel
    simp only [outAfter, hsel]
    rw [hsame]
    exact h'
  | unschedule job => exact h.dropped hi hn hm
  | reschedule job => exact h.requeued hi hn hm

omit [DecidableEq ι] in
/-- An access that hands nothing out. -/
theorem outAfter_step {m : Master} {pc : CorePc} {out : Nat → List SchedulerJob} {ptr : ULong}
    (hpc : pc.handsOut = false) :
    outAfter cfg m pc out (.step ptr) = out := by
  cases pc with
  | work core w =>
    cases w with
    | select job => cases hpc
    | _ => rfl
  | _ => rfl

theorem section_tracks {st : Client} {queued : Nat → List ULong}
    (h : Tracks s.carried s.out s.live st queued) (hst : st.master = s.master)
    (hmin : s.master.lastMin < s.master.nprocs) {i : ι} {pc : CorePc} {ptr : ULong} {m : Master}
    (hsec : CoreLocks.Section cfg s.master ptr (s.cores.locals i) pc m) :
    ∃ st' queued', st'.master = m ∧ Tracks (Function.update s.carried i pc.errand)
      (outAfter cfg s.master (s.cores.locals i) s.out (.step ptr)) s.live st' queued' := by
  have hkeep : pc.errand = (s.cores.locals i).errand →
      Function.update s.carried i pc.errand = s.carried := by
    intro he
    rw [he]
    exact Function.update_eq_self i s.carried
  have hlast := hsec.lastMin hmin
  have hn := hsec.frame.1
  cases hsec with
  | cache time min cd hmin he hpc =>
    rw [hkeep he, outAfter_step hpc]
    rw [← hst] at hmin ⊢
    exact ⟨_, queued, rfl, h.cached time min cd hmin⟩
  | hoist hsrc hdst hne hholds hm he hpc =>
    rw [hkeep he, outAfter_step hpc]
    rw [← hst] at hsrc hdst hm
    exact h.hoisted hsrc hdst hne hm
  | work hpc hcore hm he =>
    rw [he]
    exact work_tracks h hst hpc hcore hlast hn hm

/-- A core goes on with its call. -/
theorem Sound.access_sound (h : Sound s) {i : ι} {ptr : ULong}
    (hs : s.step cfg (i, .step ptr) = some t) :
    Sound t ∧ ∀ c, ¬ (t.master.schedulers c = s.master.schedulers c ∧
      t.master.jobcounts c = s.master.jobcounts c) → c ∈ (s.cores.locals i).holds := by
  obtain ⟨cores, hcores, rfl⟩ := Option.map_eq_some_iff.mp hs
  have hlocks := CoreLocks.step_inv h.locks hcores
  obtain ⟨m, pc, hact, rfl⟩ := Parties.step_cases hcores
  obtain ⟨st, queued, hst, htracks⟩ := h.tracks
  have hsingle : ∀ c, s.master.singleJobs c = 0 := hst ▸ htracks.shared
  obtain ⟨hsection, hshared⟩ :=
    CoreLocks.access_section h.lastMin hsingle (h.shared i) (h.locks.distinct i) hact
  obtain ⟨hn, hoff⟩ := hsection.frame
  refine ⟨⟨hlocks, ?_, ?_, hsection.lastMin h.lastMin⟩, fun c hc => ?_⟩
  · rw [carried_update]
    exact section_tracks htracks hst h.lastMin hsection
  · show ∀ j, (Function.update s.cores.locals i pc j).Shared m.master.nprocs
    rw [hn]
    exact forall_update (P := fun _ (pc : CorePc) => pc.Shared s.master.nprocs)
      (fun j _ => h.shared j) hshared
  · by_contra hnot
    exact hc (hoff c hnot)

/-! ## One place -/

omit [DecidableEq ι] in
/-- A pid that a call carries is not queued, and it is out only as that call's. -/
theorem Sound.carried_apart (h : Sound s) {i : ι} (hi : (s.carried i).map Errand.pid = some pid)
    {c : Nat} (hc : c < s.master.nprocs) :
    pid ∉ s.master.queuedPids c ∧ pid ∉ (s.out c).map SchedulerJob.pid := by
  obtain ⟨st, queued, hst, htracks⟩ := h.tracks
  obtain ⟨e, he, rfl⟩ := Option.map_eq_some_iff.mp hi
  rw [← hst] at hc ⊢
  have hback : ∀ core job, e.returned = some (core, job) →
      job.pid ∉ st.master.queuedPids c ∧ job.pid ∉ (s.out c).map SchedulerJob.pid := by
    intro core job hret
    obtain ⟨hcore, g, hg, hjob, hnot⟩ := htracks.returns i e he core job hret
    rw [hjob.1]
    constructor
    · intro hq
      exact htracks.not_out hc hcore ((htracks.inv.books.queuedPids_perm c).subset hq) hg rfl
    · intro hout
      obtain ⟨g', hg', hpid⟩ := List.mem_map.mp hout
      obtain ⟨rfl, rfl⟩ := htracks.out_unique hc hcore (htracks.kept c g' hg') hg hpid
      exact hnot hg'
  cases e with
  | enter pid =>
    have hnew := (htracks.fresh i _ he pid rfl).2
    constructor
    · intro hq
      have hq := (htracks.inv.books.queuedPids_perm c).subset hq
      exact hnew (htracks.inv.live_of_held hc (List.mem_append_left _ hq))
    · intro hout
      obtain ⟨g, hg, rfl⟩ := List.mem_map.mp hout
      exact hnew (htracks.pid_mem hc (htracks.kept c g hg))
  | requeue core job => exact hback core job rfl
  | drop core job => exact hback core job rfl

omit [DecidableEq ι] in
theorem Sound.place_unique (h : Sound s) {place place' : Place ι} (hat : s.At pid place)
    (hat' : s.At pid place') : place = place' := by
  obtain ⟨st, queued, hst, htracks⟩ := h.tracks
  have hqueued : ∀ c, pid ∈ s.master.queuedPids c → pid ∈ queued c := by
    rw [← hst]
    exact fun c hq => (htracks.inv.books.queuedPids_perm c).subset hq
  have hout : ∀ c d, c < s.master.nprocs → d < s.master.nprocs → pid ∈ s.master.queuedPids c →
      pid ∉ (s.out d).map SchedulerJob.pid := by
    intro c d hc hd hq hmem
    obtain ⟨g, hg, hpid⟩ := List.mem_map.mp hmem
    rw [← hst] at hc hd
    exact htracks.not_out hc hd (hqueued c hq) (htracks.kept d g hg) hpid
  cases place with
  | call i =>
    cases place' with
    | call j =>
      obtain ⟨e, he, hpid⟩ := Option.map_eq_some_iff.mp hat
      obtain ⟨e', he', hpid'⟩ := Option.map_eq_some_iff.mp hat'
      rw [htracks.apart i j e e' he he' (hpid.trans hpid'.symm)]
    | queue d => exact absurd hat'.2 (h.carried_apart hat hat'.1).1
    | out d => exact absurd hat'.2 (h.carried_apart hat hat'.1).2
  | queue c =>
    cases place' with
    | call j => exact absurd hat.2 (h.carried_apart hat' hat.1).1
    | queue d =>
      rw [htracks.core_unique (hst ▸ hat.1) (hst ▸ hat'.1)
        (List.mem_append_left _ (hqueued c hat.2)) (List.mem_append_left _ (hqueued d hat'.2))]
    | out d => exact absurd hat'.2 (hout c d hat.1 hat'.1 hat.2)
  | out c =>
    cases place' with
    | call j => exact absurd hat.2 (h.carried_apart hat' hat.1).2
    | queue d => exact absurd hat.2 (hout d c hat'.1 hat.1 hat'.2)
    | out d =>
      obtain ⟨g, hg, hpid⟩ := List.mem_map.mp hat.2
      obtain ⟨g', hg', hpid'⟩ := List.mem_map.mp hat'.2
      rw [(htracks.out_unique (hst ▸ hat.1) (hst ▸ hat'.1) (htracks.kept c g hg)
        (htracks.kept d g' hg') (hpid.trans hpid'.symm)).1]

omit [DecidableEq ι] in
theorem Sound.exists_place (h : Sound s) (hp : s.live pid = true) : ∃ place, s.At pid place := by
  obtain ⟨st, queued, hst, htracks⟩ := h.tracks
  rcases (htracks.alive pid).mp hp with ⟨hmem, -⟩ | ⟨i, e, he, rfl⟩
  · obtain ⟨c, hc, hheld⟩ := List.mem_flatMap.mp (htracks.inv.tally.placed.symm.subset hmem)
    have hc := List.mem_range.mp hc
    rw [Client.held_of_shared (htracks.shared c)] at hheld
    rcases List.mem_append.mp hheld with hq | hout
    · refine ⟨.queue c, hst ▸ hc, ?_⟩
      rw [← hst]
      exact (htracks.inv.books.queuedPids_perm c).symm.subset hq
    · obtain ⟨g, hg, rfl⟩ := List.mem_map.mp hout
      rcases htracks.held c g hg with hg | ⟨i, e, he, hbrings⟩
      · exact ⟨.out c, hst ▸ hc, List.mem_map_of_mem hg⟩
      · refine ⟨.call i, ?_⟩
        rw [At, he, Option.map_some, hbrings.pid_eq]
  · refine ⟨.call i, ?_⟩
    rw [At, he]
    rfl

omit [DecidableEq ι] in
theorem Sound.counted (h : Sound s) {c : Nat} (hc : c < s.master.nprocs) :
    ∃ pids : List ULong, pids.Nodup ∧ (∀ pid, pid ∈ pids ↔ s.Counted c pid) ∧
      s.master.jobcounts c = BitVec.ofNat 64 pids.length := by
  obtain ⟨st, queued, hst, htracks⟩ := h.tracks
  rw [← hst] at hc
  refine ⟨queued c ++ (st.out c).map SchedulerJob.pid, htracks.held_nodup hc, fun pid => ?_, ?_⟩
  · rw [Counted, ← hst, (htracks.inv.books.queuedPids_perm c).mem_iff, List.mem_append]
    refine or_congr Iff.rfl ⟨fun hmem => ?_, fun hmem => ?_⟩
    · obtain ⟨g, hg, rfl⟩ := List.mem_map.mp hmem
      exact (htracks.held c g hg).imp_left fun hg => List.mem_map_of_mem hg
    · rcases hmem with hmem | ⟨i, e, he, job, hret, rfl⟩
      · obtain ⟨g, hg, rfl⟩ := List.mem_map.mp hmem
        exact List.mem_map_of_mem (htracks.kept c g hg)
      · obtain ⟨-, g, hg, hjob, -⟩ := htracks.returns i e he c job hret
        rw [hjob.1]
        exact List.mem_map_of_mem hg
  · rw [← hst, htracks.inv.tally.counted trivial c hc, Client.held_of_shared (htracks.shared c)]

theorem step_sound (h : Sound s) (hgood : s.Orderly p) (hs : s.step cfg p = some t) :
    Sound t ∧ Kept s p t := by
  have hstep : Sound t ∧ ∀ c, ¬ (t.master.schedulers c = s.master.schedulers c ∧
      t.master.jobcounts c = s.master.jobcounts c) → c ∈ (s.cores.locals p.1).holds := by
    obtain ⟨i, a⟩ := p
    cases a with
    | call c =>
      obtain ⟨ht, hsame⟩ := h.call_sound hgood hs
      refine ⟨ht, fun c hc => absurd ?_ hc⟩
      rw [hsame]
      exact ⟨rfl, rfl⟩
    | step ptr => exact h.access_sound hs
  obtain ⟨ht, hlocked⟩ := hstep
  refine ⟨ht, fun pid hp => ?_, fun c hc => ht.counted hc, fun c hc => ?_⟩
  · obtain ⟨place, hat⟩ := ht.exists_place hp
    exact ⟨place, hat, fun _ hat' => ht.place_unique hat' hat⟩
  · exact ⟨hlocked c hc, fun j hj => h.locks.unique j p.1 c hj (hlocked c hc)⟩

/-- In an orderly run no interleaving loses a job or makes a second one, the counters stay
exact, and schedulers and counters are changed under their lock only. -/
theorem jobs_kept (cfg : Config) {procs : Nat} (hp : 0 < procs) (prim sec : Int)
    (as : List (ι × CoreAct))
    (hgood : Along (step cfg) (fun s p _ => Orderly s p) (start cfg procs prim sec) as) :
    Along (step cfg) Kept (start cfg procs prim sec) as :=
  along_of_invariant (start_sound cfg hp prim sec) (fun _ _ _ h hg hs => step_sound h hg hs) hgood

/-- Two threads schedule at once and choose the same core; a third selects from it while
the first gives its job up. -/
def calls : List (Fin 5 × CoreAct) :=
  (0, .call (.schedule 7 .normal)) :: (1, .call (.schedule 8 .low)) ::
  (List.replicate 6 [((0 : Fin 5), CoreAct.step 0), (1, .step 0)]).flatten ++
  (0, .step 4096) :: (0, .step 4096) :: (0, .step 0) :: List.replicate 3 (1, .step 8192) ++
  (0, .call (.select 0 .blank 1)) :: List.replicate 5 (0, .step 0) ++
  [(2, .call (.select 0 .blank 1)), (0, .call (.unschedule 0 ⟨7, 1, 0, 0, .normal⟩)),
    (2, .step 0), (0, .step 0), (2, .step 0), (2, .step 0), (2, .step 0), (2, .step 0),
    (0, .step 0), (0, .step 0)]

theorem jobs_kept_calls : Along (step .defaultProfile) Kept (start .defaultProfile 2
    YARNS_SCHEDULER_ROUND_ROBIN YARNS_SCHEDULER_ROTATING_STAIRCASE) calls :=
  jobs_kept _ (by decide) _ _ _ (by decide +kernel)

end CoreClient

end Yarns
