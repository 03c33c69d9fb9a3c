import Yarns.Sched.Scheduler

/-!
# The master scheduler

`sched/master_scheduler.c` with `YARNS_ENABLE_SMP`: one scheduler a core, created on
first use, and cores dedicated to a single job. A core number is a `Nat`; `~0UL` for no
core is `none` where the code tests for it. The static variables of
`select_core_least_load` are fields of the state, the clock reading and the addresses
`yalloc` returns are arguments.

An operation is `none` where the code does not return: a null scheduler is called, an
`assert` fails, or a lock is taken twice by the same core.
-/

namespace Yarns

def ACCOUNTING_PERIOD : ULong := 5000000

def ACCOUNTING_SHIFTS : Nat := 2

structure Master where
  nprocs : Nat
  schedulers : Nat → Option Scheduler
  singleJobs : Nat → ULong
  jobcounts : Nat → ULong
  secSchedType : Int
  lastAccounting : ULong
  lastMin : Nat
  lastMinCd : Nat

def masterSchedInit (cfg : Config) (procs : Nat) (prim sec : Int) : Master where
  nprocs := procs
  schedulers := Function.update (fun _ => none) 0 (some (allocateSchedByNumber cfg prim))
  singleJobs := fun _ => 0
  jobcounts := fun _ => 0
  secSchedType := sec
  lastAccounting := 0
  lastMin := 0
  lastMinCd := 0

namespace Master

variable (cfg : Config) (m : Master)

def setScheduler (core : Nat) (s : Scheduler) : Master :=
  { m with schedulers := Function.update m.schedulers core (some s) }

def selectCoreUnused : Option Nat :=
  (List.range' 1 (m.nprocs - 1)).find? fun i => (m.schedulers i).isNone

/-- One iteration of `select_core_least_load` on `min` and `minVal`. -/
def leastLoadStep (acc : Nat × ULong) (i : Nat) : Nat × ULong :=
  if m.jobcounts i < acc.2 then (i, m.jobcounts i) else acc

def leastLoadScan (n : Nat) : Nat × ULong :=
  (List.range n).foldl m.leastLoadStep (ulongMax.toNat, ulongMax)

def selectCoreLeastLoad : Option (Master × Nat) :=
  if m.lastMinCd > 0 then
    some ({ m with lastMinCd := m.lastMinCd - 1 }, m.lastMin)
  else
    let (min, minVal) := m.leastLoadScan m.nprocs
    if minVal = ulongMax then none else
      some ({ m with lastMinCd := 2, lastMin := min }, min)

/-- One iteration of `select_core_most_load` on `max` and `maxVal`. -/
def mostLoadStep (acc : Nat × ULong) (i : Nat) : Nat × ULong :=
  if m.singleJobs i = 0 ∧ m.jobcounts i > acc.2 then (i, m.jobcounts i) else acc

def mostLoadScan (n : Nat) : Nat × ULong :=
  (List.range n).foldl m.mostLoadStep (ulongMax.toNat, 0)

def selectCoreMostLoad : Nat :=
  let (max, maxVal) := m.mostLoadScan m.nprocs
  if maxVal = 0 then 0 else max

def schedulerForCore (core : Nat) : Master × Scheduler :=
  match m.schedulers core with
  | some s => (m, s)
  | none =>
    let s := allocateSchedByNumber cfg m.secSchedType
    (m.setScheduler core s, s)

/-- The body of `job_hoist` once `job` has been selected from `src`. -/
def hoistJob (src dst : Nat) (job : SchedulerJob) (ptr : ULong) : Option Master := do
  let target ← m.schedulers dst
  let target ← target.schedule cfg ptr job.pid job.priority
  let m := m.setScheduler dst target
  let source ← m.schedulers src
  let source ← source.unschedule job
  let m := m.setScheduler src source
  let m := { m with jobcounts := Function.update m.jobcounts src (m.jobcounts src - 1) }
  some { m with jobcounts := Function.update m.jobcounts dst (m.jobcounts dst + 1) }

def jobHoist (src dst : Nat) (ptr : ULong) : Option Master := do
  let source ← m.schedulers src
  let (source, job) ← source.select cfg .blank
  let m := m.setScheduler src source
  if job.pid ≠ 0 then m.hoistJob cfg src dst job ptr else some m

/-- The loop of `rebalance`; `ptrs` are the addresses `yalloc` returns to it. -/
def hoistLoop (m : Master) (src target : Nat) : List ULong → Option Master
  | [] => if m.jobcounts src > m.jobcounts target then none else some m
  | ptr :: ptrs =>
    if m.jobcounts src > m.jobcounts target then
      (m.jobHoist cfg src target ptr).bind fun m => hoistLoop m src target ptrs
    else some m

def rebalance (src target : Nat) (ptrs : List ULong) : Option Master :=
  -- both locks are taken, also where they are the same one
  if src = target then none else m.hoistLoop cfg src target ptrs

/-- The accounting loop of `select`, `shifts` times. -/
def shift (m : Master) (ptrs : Nat → List ULong) : Nat → Option Master
  | 0 => some m
  | shifts + 1 => do
    let most := m.selectCoreMostLoad
    let (m, least) ← m.selectCoreLeastLoad
    let m ← m.rebalance cfg most least (ptrs shifts)
    shift m ptrs shifts

def account (newTime : ULong) (ptrs : Nat → List ULong) : Option Master :=
  if m.nprocs > 1 ∧ m.lastAccounting + ACCOUNTING_PERIOD < newTime then
    shift cfg { m with lastAccounting := newTime } ptrs ACCOUNTING_SHIFTS
  else some m

/-- `master_sched_schedule` for a job that gets no core of its own. -/
def scheduleShared (ptr pid : ULong) (prio : SchedulerPriority) : Option Master := do
  let (m, target) ← m.selectCoreLeastLoad
  let (m, s) := m.schedulerForCore cfg target
  let s ← s.schedule cfg ptr pid prio
  let m := m.setScheduler target s
  some { m with jobcounts := Function.update m.jobcounts target (m.jobcounts target + 1) }

def dedicate (target : Nat) (pid : ULong) : Master :=
  { m with
    singleJobs := Function.update m.singleJobs target pid
    jobcounts := Function.update m.jobcounts target ulongMax }

def masterSchedSchedule (ptr pid : ULong) (prio : SchedulerPriority) : Option Master :=
  if prio = .titanic then
    match m.selectCoreUnused with
    | some target => some (m.dedicate target pid)
    | none => m.scheduleShared cfg ptr pid prio
  else m.scheduleShared cfg ptr pid prio

def doselect (core : Nat) (job : SchedulerJob) : Option (Master × SchedulerJob) := do
  let (m, s) := m.schedulerForCore cfg core
  let (s, job) ← s.select cfg job
  some (m.setScheduler core s, job)

def masterSchedUnschedule (core : Nat) (job : SchedulerJob) : Option Master :=
  if m.singleJobs core ≠ 0 then
    some { m with
      singleJobs := Function.update m.singleJobs core 0
      jobcounts := Function.update m.jobcounts core 0 }
  else do
    let (m, s) := m.schedulerForCore cfg core
    let s ← s.unschedule job
    let m := m.setScheduler core s
    some { m with jobcounts := Function.update m.jobcounts core (m.jobcounts core - 1) }

def masterSchedReschedule (core : Nat) (job : SchedulerJob) : Option Master :=
  if m.singleJobs core = 0 then do
    let (m, s) := m.schedulerForCore cfg core
    let s ← s.reschedule cfg job
    some (m.setScheduler core s)
  else some m

/-- `master_sched_select` after the accounting. -/
def selectOn (core : Nat) (job : SchedulerJob) : Option (Master × SchedulerJob) :=
  if m.singleJobs core ≠ 0 then
    some (m, { job with
      pid := m.singleJobs core
      runtime := ulongMax - 1
      data := 0
      priority := .titanic })
  else m.doselect cfg core job

def masterSchedSelect (core : Nat) (job : SchedulerJob) (newTime : ULong)
    (ptrs : Nat → List ULong) : Option (Master × SchedulerJob) :=
  (m.account cfg newTime ptrs).bind fun m => m.selectOn cfg core job

/-! ## The books of the schedulers -/

/-- What the schedulers of the cores hold: `queued c` up to order, and jobs out of the
queue of core `c` that can be returned to it. -/
structure Books (schedulers : Nat → Option Scheduler) (queued : Nat → List ULong)
    (out : Nat → List SchedulerJob) : Prop where
  held : ∀ c s, schedulers c = some s → s.Owns (out c) ∧ s.queuedPids.Perm (queued c)
  idle : ∀ c, schedulers c = none → out c = [] ∧ queued c = []
  nonzero : ∀ c, (0 : ULong) ∉ queued c

variable {cfg m} {m' : Master} {s : Scheduler} {job job' g : SchedulerJob} {core src dst : Nat}
  {ptr pid newTime : ULong} {prio : SchedulerPriority} {ptrs : Nat → List ULong}
  {schedulers : Nat → Option Scheduler} {queued : Nat → List ULong}
  {out : Nat → List SchedulerJob}

theorem Books.set (h : Books schedulers queued out) (core : Nat) {jobs : List SchedulerJob}
    {pids : List ULong} (howns : s.Owns jobs) (hpids : s.queuedPids.Perm pids)
    (h0 : (0 : ULong) ∉ pids) :
    Books (Function.update schedulers core (some s)) (Function.update queued core pids)
      (Function.update out core jobs) where
  held := by
    intro c t ht
    by_cases hc : c = core
    · subst hc
      simp only [Function.update_self, Option.some.injEq] at ht ⊢
      subst ht
      exact ⟨howns, hpids⟩
    · simp only [Function.update_of_ne hc] at ht ⊢
      exact h.held c t ht
  idle := by
    intro c hn
    by_cases hc : c = core
    · subst hc
      rw [Function.update_self] at hn
      cases hn
    · simp only [Function.update_of_ne hc] at hn ⊢
      exact h.idle c hn
  nonzero := by
    intro c
    by_cases hc : c = core
    · subst hc
      rw [Function.update_self]
      exact h0
    · rw [Function.update_of_ne hc]
      exact h.nonzero c

theorem Books.perm (h : Books schedulers queued out) {queued' : Nat → List ULong}
    {out' : Nat → List SchedulerJob} (hq : ∀ c, (queued c).Perm (queued' c))
    (ho : ∀ c, (out c).Perm (out' c)) : Books schedulers queued' out' where
  held := by
    intro c s hs
    obtain ⟨howns, hpids⟩ := h.held c s hs
    exact ⟨howns.perm (ho c), hpids.trans (hq c)⟩
  idle := by
    intro c hn
    obtain ⟨hout, hqueued⟩ := h.idle c hn
    exact ⟨List.perm_nil.mp (hout ▸ (ho c).symm), List.perm_nil.mp (hqueued ▸ (hq c).symm)⟩
  nonzero := fun c hm => h.nonzero c ((hq c).symm.subset hm)

theorem init_books (cfg : Config) (procs : Nat) (prim sec : Int) :
    Books (masterSchedInit cfg procs prim sec).schedulers (fun _ => []) (fun _ => []) := by
  have h : Books (fun _ => none) (fun _ => []) (fun _ => []) :=
    ⟨fun _ _ h => (by cases h), fun _ _ => ⟨rfl, rfl⟩, fun _ => List.not_mem_nil⟩
  have h' := h.set 0 (Scheduler.allocate_owns cfg prim)
    (List.Perm.of_eq (Scheduler.allocate_queuedPids cfg prim)) List.not_mem_nil
  rwa [Function.update_eq_self_iff.mpr rfl, Function.update_eq_self_iff.mpr rfl] at h'

/-- A scheduler created on demand is empty, so the books do not change. -/
theorem schedulerForCore_spec (cfg : Config) (core : Nat) (h : Books m.schedulers queued out) :
    ∃ s, m.schedulerForCore cfg core = (m.setScheduler core s, s) ∧ s.Owns (out core) ∧
      s.queuedPids.Perm (queued core) := by
  unfold schedulerForCore
  cases hs : m.schedulers core with
  | some s =>
    have hself : m.setScheduler core s = m := by
      rw [setScheduler, Function.update_eq_self_iff.mpr hs.symm]
    exact ⟨s, by rw [hself], h.held core s hs⟩
  | none =>
    obtain ⟨hout, hqueued⟩ := h.idle core hs
    refine ⟨_, rfl, ?_, ?_⟩
    · rw [hout]
      exact Scheduler.allocate_owns cfg _
    · rw [hqueued]
      exact List.Perm.of_eq (Scheduler.allocate_queuedPids cfg _)

/-- `select` on one scheduler, with the books: nothing, or one of the queued pids. -/
theorem Books.select (h : Books schedulers queued out) {s' : Scheduler}
    (howns : s.Owns (out core)) (hpids : s.queuedPids.Perm (queued core))
    (hs : s.select cfg job = some (s', job')) :
    (job'.pid = 0 ∧ Books (Function.update schedulers core (some s')) queued out) ∨
      (job'.pid ≠ 0 ∧ job'.pid ∈ queued core ∧
        Books (Function.update schedulers core (some s'))
          (Function.update queued core ((queued core).erase job'.pid))
          (Function.update out core (job' :: out core))) := by
  have h0 : (0 : ULong) ∉ s.queuedPids := fun hm => h.nonzero core (hpids.subset hm)
  rcases Scheduler.select_spec howns h0 hs with ⟨hpid, howns', hp⟩ | ⟨hpid, howns', hp⟩
  · refine Or.inl ⟨hpid, ?_⟩
    have h' := h.set core howns' (hp.trans hpids) (h.nonzero core)
    rwa [Function.update_eq_self, Function.update_eq_self] at h'
  · have hmem : job'.pid ∈ queued core := hpids.subset (hp.symm.subset List.mem_cons_self)
    have hrest : s'.queuedPids.Perm ((queued core).erase job'.pid) :=
      (List.perm_cons job'.pid).mp
        ((hp.symm.trans hpids).trans (List.perm_cons_erase hmem))
    refine Or.inr ⟨hpid, hmem, h.set core howns' hrest fun hm => ?_⟩
    exact h.nonzero core (List.mem_of_mem_erase hm)

/-- One pid goes from the queue of `src` to the queue of `dst`. -/
def moveQueued (queued : Nat → List ULong) (src dst : Nat) (pid : ULong) :
    Nat → List ULong :=
  Function.update (Function.update queued src ((queued src).erase pid)) dst
    (pid :: queued dst)

theorem hoistJob_spec (h : Books m.schedulers queued out) {rest : List SchedulerJob}
    (hout : out src = job :: rest) (hne : src ≠ dst) (hpid : job.pid ≠ 0)
    (hs : m.hoistJob cfg src dst job ptr = some m') :
    Books m'.schedulers (Function.update queued dst (job.pid :: queued dst))
      (Function.update out src rest) ∧
    m' = { m with
      schedulers := m'.schedulers
      jobcounts := Function.update (Function.update m.jobcounts src (m.jobcounts src - 1))
        dst (m.jobcounts dst + 1) } := by
  simp only [hoistJob, Option.bind_eq_bind, Option.bind_eq_some_iff] at hs
  obtain ⟨target, htarget, target', hsched, source, hsource, source', hunsched, hs⟩ := hs
  -- the job joins the queue of `dst`
  obtain ⟨howns, hpids⟩ := h.held dst target htarget
  obtain ⟨howns, hperm⟩ := Scheduler.schedule_spec howns hsched
  have h1 := h.set dst howns (hperm.trans (hpids.cons _)) (by
    intro hm
    rcases List.mem_cons.mp hm with hz | hm
    · exact hpid hz.symm
    · exact h.nonzero dst hm)
  rw [Function.update_eq_self] at h1
  -- and leaves the scheduler of `src`
  obtain ⟨howns, hpids⟩ := h1.held src source hsource
  rw [hout] at howns
  obtain ⟨howns, hperm⟩ := Scheduler.unschedule_spec howns rfl rfl hpid hunsched
  have h2 := h1.set src howns ((List.Perm.of_eq hperm).trans hpids) (h1.nonzero src)
  rw [Function.update_eq_self] at h2
  cases hs
  refine ⟨h2, ?_⟩
  simp only [setScheduler, Function.update_of_ne hne.symm]

theorem jobHoist_spec (h : Books m.schedulers queued out) (hne : src ≠ dst)
    (hs : m.jobHoist cfg src dst ptr = some m') :
    (Books m'.schedulers queued out ∧ m' = { m with schedulers := m'.schedulers }) ∨
      ∃ pid ∈ queued src, Books m'.schedulers (moveQueued queued src dst pid) out ∧
        m' = { m with
          schedulers := m'.schedulers
          jobcounts := Function.update (Function.update m.jobcounts src (m.jobcounts src - 1))
            dst (m.jobcounts dst + 1) } := by
  simp only [jobHoist, Option.bind_eq_bind, Option.bind_eq_some_iff] at hs
  obtain ⟨source, hsource, ⟨source', job⟩, hsel, hs⟩ := hs
  obtain ⟨howns, hpids⟩ := h.held src source hsource
  rcases h.select howns hpids hsel with ⟨hpid, hbooks⟩ | ⟨hpid, hmem, hbooks⟩
  · rw [if_neg (not_not_intro hpid)] at hs
    cases hs
    exact Or.inl ⟨hbooks, rfl⟩
  · rw [if_pos hpid] at hs
    obtain ⟨hbooks, hm'⟩ := hoistJob_spec (m := m.setScheduler src source') hbooks
      (Function.update_self ..) hne hpid hs
    rw [Function.update_idem, Function.update_eq_self, Function.update_of_ne hne.symm] at hbooks
    exact Or.inr ⟨job.pid, hmem, hbooks, hm'⟩

/-! ## Which cores are chosen -/

/-- The lowest core from 1 on that has no scheduler. -/
def FirstUnused (m : Master) (core : Nat) : Prop :=
  0 < core ∧ core < m.nprocs ∧ m.schedulers core = none ∧
    ∀ c, 0 < c → c < core → m.schedulers c ≠ none

theorem selectCoreUnused_iff : m.selectCoreUnused = some core ↔ m.FirstUnused core := by
  rw [selectCoreUnused, List.find?_range'_eq_some, FirstUnused, List.mem_range'_1,
    Option.isNone_iff_eq_none]
  constructor
  · intro h
    obtain ⟨hnone, hmem, hbefore⟩ := h
    refine ⟨by omega, by omega, hnone, fun c h0 hc hn => ?_⟩
    have := hbefore c h0 hc
    simp [hn] at this
  · intro h
    obtain ⟨h0, hlt, hnone, hbefore⟩ := h
    refine ⟨hnone, by omega, fun c h1 hc => ?_⟩
    rw [Bool.not_eq_true', Option.isNone_eq_false_iff, Option.isSome_iff_ne_none]
    exact hbefore c h1 hc

/-- A `TITANIC` job gets a core without a scheduler if there is one; every other path ends
in `scheduleShared`. -/
theorem masterSchedSchedule_cases (hs : m.masterSchedSchedule cfg ptr pid prio = some m') :
    (prio = .titanic ∧ ∃ core, m.selectCoreUnused = some core ∧ m' = m.dedicate core pid) ∨
      (¬ (prio = .titanic ∧ m.selectCoreUnused.isSome) ∧
        m.scheduleShared cfg ptr pid prio = some m') := by
  unfold masterSchedSchedule at hs
  split at hs
  · rename_i hprio
    cases hunused : m.selectCoreUnused with
    | some core =>
      rw [hunused] at hs
      exact Or.inl ⟨hprio, core, rfl, (Option.some.inj hs).symm⟩
    | none =>
      rw [hunused] at hs
      exact Or.inr ⟨by simp, hs⟩
  · rename_i hprio
    exact Or.inr ⟨fun h => hprio h.1, hs⟩

theorem leastLoadScan_spec (m : Master) (n : Nat) :
    ((m.leastLoadScan n).2 ≠ ulongMax → (m.leastLoadScan n).1 < n) ∧
      ∀ i < n, (m.leastLoadScan n).2 ≤ m.jobcounts i := by
  induction n with
  | zero => exact ⟨fun h => absurd rfl h, fun i hi => absurd hi (Nat.not_lt_zero i)⟩
  | succ n ih =>
    obtain ⟨hcore, hmin⟩ := ih
    have hscan : m.leastLoadScan (n + 1) = m.leastLoadStep (m.leastLoadScan n) n := by
      simp [leastLoadScan, List.range_succ]
    rw [hscan, leastLoadStep]
    split
    · rename_i hlt
      refine ⟨fun _ => Nat.lt_succ_self n, fun i hi => ?_⟩
      rcases Nat.lt_succ_iff_lt_or_eq.mp hi with hi | rfl
      · exact le_trans (le_of_lt hlt) (hmin i hi)
      · exact le_refl _
    · rename_i hge
      refine ⟨fun h => Nat.lt_succ_of_lt (hcore h), fun i hi => ?_⟩
      rcases Nat.lt_succ_iff_lt_or_eq.mp hi with hi | rfl
      · exact hmin i hi
      · exact not_lt.mp hge

theorem mostLoadScan_spec (m : Master) (n : Nat) (h : (m.mostLoadScan n).2 ≠ 0) :
    (m.mostLoadScan n).1 < n := by
  induction n with
  | zero => exact absurd rfl h
  | succ n ih =>
    have hscan : m.mostLoadScan (n + 1) = m.mostLoadStep (m.mostLoadScan n) n := by
      simp [mostLoadScan, List.range_succ]
    rw [hscan, mostLoadStep] at h ⊢
    split
    · exact Nat.lt_succ_self n
    · rename_i hskip
      rw [if_neg hskip] at h
      exact Nat.lt_succ_of_lt (ih h)

theorem selectCoreMostLoad_lt (h : 0 < m.nprocs) : m.selectCoreMostLoad < m.nprocs := by
  simp only [selectCoreMostLoad]
  split
  · exact h
  · rename_i hne
    exact mostLoadScan_spec m m.nprocs hne

/-- The cached choice is a core. -/
def Cached (m : Master) : Prop := 0 < m.lastMinCd → m.lastMin < m.nprocs

theorem selectCoreLeastLoad_spec (hc : m.Cached) (h : m.selectCoreLeastLoad = some (m', dst)) :
    dst < m.nprocs ∧ m'.Cached ∧ ∃ cd, m' = { m with lastMin := dst, lastMinCd := cd } := by
  unfold selectCoreLeastLoad at h
  split at h
  · rename_i hcd
    cases h
    exact ⟨hc hcd, fun _ => hc hcd, _, rfl⟩
  · dsimp only at h
    split at h
    · cases h
    · rename_i hne
      cases h
      have hlt := (leastLoadScan_spec m m.nprocs).1 hne
      exact ⟨hlt, fun _ => hlt, _, rfl⟩

/-- The assertion fails only when every core is full. -/
theorem selectCoreLeastLoad_eq_none (h : m.selectCoreLeastLoad = none) :
    ∀ i < m.nprocs, m.jobcounts i = ulongMax := by
  unfold selectCoreLeastLoad at h
  split at h
  · cases h
  · dsimp only at h
    split at h
    · rename_i hmax
      intro i hi
      have hle := (leastLoadScan_spec m m.nprocs).2 i hi
      rw [hmax] at hle
      exact le_antisymm (le_ulongMax _) hle
    · cases h

/-! ## What an operation leaves alone -/

theorem schedulers_setScheduler {core : Nat} : (m.setScheduler core s).schedulers core = some s :=
  Function.update_self ..

theorem schedulers_setScheduler_of_ne {c core : Nat} (h : c ≠ core) :
    (m.setScheduler core s).schedulers c = m.schedulers c := Function.update_of_ne h ..

/-- A scheduler that is there is replaced. -/
theorem isSome_update {α : Type} {f : Nat → Option α} {x : α} (h : (f core).isSome) (c : Nat) :
    (Function.update f core (some x) c).isSome = (f c).isSome := by
  by_cases hc : c = core
  · subst hc
    rw [Function.update_self, h]
    rfl
  · rw [Function.update_of_ne hc]

theorem selectCoreLeastLoad_frame (hs : m.selectCoreLeastLoad = some (m', dst)) :
    ∃ a b, m' = { m with lastMin := a, lastMinCd := b } := by
  unfold selectCoreLeastLoad at hs
  split at hs
  · cases hs
    exact ⟨_, _, rfl⟩
  · dsimp only at hs
    split at hs
    · cases hs
    · cases hs
      exact ⟨_, _, rfl⟩

theorem schedulerForCore_set (s : Scheduler) :
    (m.schedulerForCore cfg core).1.setScheduler core s = m.setScheduler core s := by
  unfold schedulerForCore
  cases m.schedulers core with
  | some s => rfl
  | none => simp only [setScheduler, Function.update_idem]

/-- A hoist works on schedulers that are there and creates none. -/
theorem jobHoist_frame {ptr : ULong} (hs : m.jobHoist cfg src dst ptr = some m') :
    (∀ c, (m'.schedulers c).isSome = (m.schedulers c).isSome) ∧
      (∀ c, m.schedulers c = none → m'.jobcounts c = m.jobcounts c) ∧
      m' = { m with schedulers := m'.schedulers, jobcounts := m'.jobcounts } := by
  simp only [jobHoist, Option.bind_eq_bind, Option.bind_eq_some_iff] at hs
  obtain ⟨source, hsource, ⟨source', job⟩, -, hs⟩ := hs
  have h₁ : ∀ c, ((m.setScheduler src source').schedulers c).isSome = (m.schedulers c).isSome :=
    isSome_update (by rw [hsource]; rfl)
  dsimp only at hs
  split at hs
  · simp only [hoistJob, Option.bind_eq_bind, Option.bind_eq_some_iff] at hs
    obtain ⟨target, htarget, target', -, source₂, hsource₂, source₃, -, hs⟩ := hs
    cases hs
    have hdst : (m.schedulers dst).isSome := by
      rw [← h₁, htarget]
      rfl
    refine ⟨fun c => ?_, fun c hnone => ?_, rfl⟩
    · refine (isSome_update (by rw [hsource₂]; rfl) c).trans ?_
      exact (isSome_update (by rw [htarget]; rfl) c).trans (h₁ c)
    · have hnd : c ≠ dst := by
        rintro rfl
        rw [hnone] at hdst
        cases hdst
      have hns : c ≠ src := by
        rintro rfl
        rw [hnone] at hsource
        cases hsource
      show Function.update (Function.update m.jobcounts src _) dst _ c = m.jobcounts c
      rw [Function.update_of_ne hnd, Function.update_of_ne hns]
  · cases hs
    exact ⟨h₁, fun _ _ => rfl, rfl⟩

/-! ## The accounting -/

/-- What the accounting of `n` cores keeps: a property kept by each hoist, whatever the
cache of `select_core_least_load` and the time of the last accounting are. -/
structure KeptByAccounting (cfg : Config) (n : Nat) (P : Master → Prop) : Prop where
  cached : ∀ m, P m → m.nprocs = n ∧ m.Cached
  fields : ∀ m a b c, P m → (0 < c → b < n) →
    P { m with lastAccounting := a, lastMin := b, lastMinCd := c }
  hoist : ∀ m m' src dst ptr, P m → src < n → dst < n → src ≠ dst →
    m.jobHoist cfg src dst ptr = some m' → P m'

namespace KeptByAccounting

variable {P : Master → Prop} {n : Nat}

theorem hoistLoop (hk : KeptByAccounting cfg n P) (hP : P m) (hsrc : src < n) (hdst : dst < n)
    (hne : src ≠ dst) {addrs : List ULong} (hs : m.hoistLoop cfg src dst addrs = some m') :
    P m' := by
  induction addrs generalizing m with
  | nil =>
    rw [Master.hoistLoop] at hs
    split at hs
    · cases hs
    · cases hs
      exact hP
  | cons ptr addrs ih =>
    rw [Master.hoistLoop] at hs
    split at hs
    · obtain ⟨m₁, h₁, hs⟩ := Option.bind_eq_some_iff.mp hs
      exact ih (hk.hoist m m₁ src dst ptr hP hsrc hdst hne h₁) hs
    · cases hs
      exact hP

theorem leastLoad (hk : KeptByAccounting cfg n P) (hP : P m)
    (hs : m.selectCoreLeastLoad = some (m', dst)) : P m' ∧ dst < n := by
  obtain ⟨hn, hc⟩ := hk.cached m hP
  obtain ⟨hlt, -, cd, rfl⟩ := selectCoreLeastLoad_spec hc hs
  rw [hn] at hlt
  exact ⟨hk.fields m m.lastAccounting dst cd hP fun _ => hlt, hlt⟩

theorem shift (hk : KeptByAccounting cfg n P) (hn : 0 < n) (hP : P m) {shifts : Nat}
    (hs : m.shift cfg ptrs shifts = some m') : P m' := by
  induction shifts generalizing m with
  | zero =>
    cases hs
    exact hP
  | succ shifts ih =>
    simp only [Master.shift, Option.bind_eq_bind, Option.bind_eq_some_iff] at hs
    obtain ⟨⟨m₁, least⟩, h₁, m₂, h₂, hs⟩ := hs
    obtain ⟨hP₁, hleast⟩ := hk.leastLoad hP h₁
    refine ih ?_ hs
    unfold rebalance at h₂
    split at h₂
    · cases h₂
    · rename_i hne
      have hmost : m.selectCoreMostLoad < n := by
        rw [← (hk.cached m hP).1] at hn ⊢
        exact selectCoreMostLoad_lt hn
      exact hk.hoistLoop hP₁ hmost hleast hne h₂

theorem account (hk : KeptByAccounting cfg n P) (hP : P m)
    (hs : m.account cfg newTime ptrs = some m') : P m' := by
  obtain ⟨hn, hc⟩ := hk.cached m hP
  unfold Master.account at hs
  split at hs
  · rename_i hdue
    rw [hn] at hdue
    refine hk.shift (by omega) (hk.fields m newTime m.lastMin m.lastMinCd hP ?_) hs
    exact fun hcd => hn ▸ hc hcd
  · cases hs
    exact hP

end KeptByAccounting

/-! ## One call on a core -/

theorem doselect_spec (h : Books m.schedulers queued out)
    (hs : m.doselect cfg core job = some (m', job')) :
    m' = { m with schedulers := m'.schedulers } ∧
      ((job'.pid = 0 ∧ Books m'.schedulers queued out) ∨
        (job'.pid ≠ 0 ∧ job'.pid ∈ queued core ∧
          Books m'.schedulers
            (Function.update queued core ((queued core).erase job'.pid))
            (Function.update out core (job' :: out core)))) := by
  obtain ⟨s, hcore, howns, hpids⟩ := schedulerForCore_spec cfg core h
  simp only [doselect, hcore, Option.bind_eq_bind, Option.bind_eq_some_iff] at hs
  obtain ⟨⟨s', job₁⟩, hsel, hs⟩ := hs
  cases hs
  refine ⟨?_, ?_⟩
  · simp only [setScheduler, Function.update_idem]
  · simp only [setScheduler, Function.update_idem]
    exact h.select howns hpids hsel

theorem schedule_spec (h : Books m.schedulers queued out) (hc : m.Cached) (hpid : pid ≠ 0)
    (hs : m.scheduleShared cfg ptr pid prio = some m') :
    ∃ target < m.nprocs, m'.Cached ∧
      Books m'.schedulers (Function.update queued target (pid :: queued target)) out ∧
      m' = { m with
        schedulers := m'.schedulers
        jobcounts := Function.update m.jobcounts target (m.jobcounts target + 1)
        lastMin := m'.lastMin
        lastMinCd := m'.lastMinCd } := by
  simp only [scheduleShared, Option.bind_eq_bind, Option.bind_eq_some_iff] at hs
  obtain ⟨⟨m₁, target⟩, hleast, s', hsched, hs⟩ := hs
  obtain ⟨hlt, hc₁, cd, rfl⟩ := selectCoreLeastLoad_spec hc hleast
  obtain ⟨s, hcore, howns, hpids⟩ := schedulerForCore_spec
    (m := { m with lastMin := target, lastMinCd := cd }) cfg target h
  rw [hcore] at hsched hs
  obtain ⟨howns', hperm⟩ := Scheduler.schedule_spec howns hsched
  have hbooks := h.set target howns' (hperm.trans (hpids.cons _)) (by
    intro hm
    rcases List.mem_cons.mp hm with hz | hm
    · exact hpid hz.symm
    · exact h.nonzero target hm)
  rw [Function.update_eq_self] at hbooks
  cases hs
  refine ⟨target, hlt, hc₁, ?_, ?_⟩
  · simp only [setScheduler, Function.update_idem]
    exact hbooks
  · simp only [setScheduler, Function.update_idem]

/-- A job of a core that is not dedicated comes back to its queue. -/
theorem reschedule_spec (h : Books m.schedulers queued out) {rest : List SchedulerJob}
    (hsingle : m.singleJobs core = 0) (hout : (out core).Perm (g :: rest)) (hpid : job.pid = g.pid)
    (hdata : job.data = g.data) (h0 : g.pid ≠ 0)
    (hs : m.masterSchedReschedule cfg core job = some m') :
    m' = { m with schedulers := m'.schedulers } ∧
      Books m'.schedulers (Function.update queued core (g.pid :: queued core))
        (Function.update out core rest) := by
  obtain ⟨s, hcore, howns, hpids⟩ := schedulerForCore_spec cfg core h
  have howns := howns.perm hout
  rw [masterSchedReschedule, if_pos hsingle] at hs
  simp only [hcore, Option.bind_eq_bind, Option.bind_eq_some_iff] at hs
  obtain ⟨s', hresched, hs⟩ := hs
  obtain ⟨howns', hperm⟩ := Scheduler.reschedule_spec howns hpid hdata h0 hresched
  cases hs
  refine ⟨?_, ?_⟩
  · simp only [setScheduler, Function.update_idem]
  · simp only [setScheduler, Function.update_idem]
    refine h.set core howns' (hperm.trans (hpids.cons _)) fun hm => ?_
    rcases List.mem_cons.mp hm with hz | hm
    · exact h0 hz.symm
    · exact h.nonzero core hm

/-- A job of a core that is not dedicated is given up. -/
theorem unschedule_spec (h : Books m.schedulers queued out) {rest : List SchedulerJob}
    (hsingle : m.singleJobs core = 0) (hout : (out core).Perm (g :: rest)) (hpid : job.pid = g.pid)
    (hdata : job.data = g.data) (h0 : g.pid ≠ 0)
    (hs : m.masterSchedUnschedule cfg core job = some m') :
    m' = { m with
      schedulers := m'.schedulers
      jobcounts := Function.update m.jobcounts core (m.jobcounts core - 1) } ∧
      Books m'.schedulers queued (Function.update out core rest) := by
  obtain ⟨s, hcore, howns, hpids⟩ := schedulerForCore_spec cfg core h
  have howns := howns.perm hout
  rw [masterSchedUnschedule, if_neg (not_not_intro hsingle)] at hs
  simp only [hcore, Option.bind_eq_bind, Option.bind_eq_some_iff] at hs
  obtain ⟨s', hunsched, hs⟩ := hs
  obtain ⟨howns', hperm⟩ := Scheduler.unschedule_spec howns hpid hdata h0 hunsched
  have hbooks := h.set core howns' ((List.Perm.of_eq hperm).trans hpids) (h.nonzero core)
  rw [Function.update_eq_self] at hbooks
  cases hs
  refine ⟨?_, ?_⟩
  · simp only [setScheduler, Function.update_idem]
  · simp only [setScheduler, Function.update_idem]
    exact hbooks

/-- A job of a core that was dedicated when it was selected has no scheduler data. -/
theorem reschedule_null_spec (h : Books m.schedulers queued out) (hsingle : m.singleJobs core = 0)
    (hdata : job.data = 0) (h0 : job.pid ≠ 0)
    (hs : m.masterSchedReschedule cfg core job = some m') :
    m' = { m with schedulers := m'.schedulers } ∧
      (Books m'.schedulers queued out ∨
        Books m'.schedulers (Function.update queued core (job.pid :: queued core)) out) := by
  obtain ⟨s, hcore, howns, hpids⟩ := schedulerForCore_spec cfg core h
  rw [masterSchedReschedule, if_pos hsingle] at hs
  simp only [hcore, Option.bind_eq_bind, Option.bind_eq_some_iff] at hs
  obtain ⟨s', hresched, hs⟩ := hs
  obtain ⟨howns', hcase⟩ := Scheduler.reschedule_null howns hdata hresched
  cases hs
  simp only [setScheduler, Function.update_idem, true_and]
  rcases hcase with hperm | hperm
  · have hbooks := h.set core howns' (hperm.trans hpids) (h.nonzero core)
    rw [Function.update_eq_self, Function.update_eq_self] at hbooks
    exact Or.inl hbooks
  · refine Or.inr ?_
    have hbooks := h.set core howns' (hperm.trans (hpids.cons _)) (by
      intro hm
      rcases List.mem_cons.mp hm with hz | hm
      · exact h0 hz.symm
      · exact h.nonzero core hm)
    rwa [Function.update_eq_self (a := core) (f := out)] at hbooks

theorem unschedule_null_spec (h : Books m.schedulers queued out) (hsingle : m.singleJobs core = 0)
    (hdata : job.data = 0) (hs : m.masterSchedUnschedule cfg core job = some m') :
    m' = { m with
      schedulers := m'.schedulers
      jobcounts := Function.update m.jobcounts core (m.jobcounts core - 1) } ∧
      Books m'.schedulers queued out := by
  obtain ⟨s, hcore, howns, hpids⟩ := schedulerForCore_spec cfg core h
  rw [masterSchedUnschedule, if_neg (not_not_intro hsingle)] at hs
  simp only [hcore, Option.bind_eq_bind, Option.bind_eq_some_iff] at hs
  obtain ⟨s', hunsched, hs⟩ := hs
  obtain ⟨howns', hperm⟩ := Scheduler.unschedule_null howns hdata hunsched
  have hbooks := h.set core howns' ((List.Perm.of_eq hperm).trans hpids) (h.nonzero core)
  rw [Function.update_eq_self, Function.update_eq_self] at hbooks
  cases hs
  simp only [setScheduler, Function.update_idem, true_and]
  exact hbooks

end Master

end Yarns
