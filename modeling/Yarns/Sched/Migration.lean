import Yarns.Sched.MasterClient

/-!
# What a job keeps when it changes its core

`job_hoist` takes a job out of the scheduler of one core with `select` and enters it
into the scheduler of another with `schedule`. The second call gets the `priority` field
of the record the first one filled in, and no `select` writes that field
(`select_priority`): the destination receives the priority `job_hoist` itself put there.

A scheduler turns the priority it receives into data of its entry for the job, a weight
(fair) or a level (staircase), and no later call changes them (`Derived` and its lemmas).
So the data a job runs with say which priority its present core received.
-/

namespace Yarns

open Base

/-- The priorities are told apart by the weight. -/
theorem prioToWeight_injective : Function.Injective prioToWeight := by
  intro p q h
  cases p <;> cases q <;> first | rfl | exact absurd h (by decide +kernel)

/-- Every priority but `NORMAL` has another start level than `NORMAL`. -/
theorem Staircase.startLevel_eq_normal {prio : SchedulerPriority} :
    startLevel prio = startLevel .normal ↔ prio = .normal := by
  cases prio <;> decide

/-! ## The entries of one job -/

namespace Staircase

/-- The entries of `pid` start where a job of priority `prio` starts. -/
def Derived (pid : ULong) (prio : SchedulerPriority) (s : Staircase) : Prop :=
  ∀ a e, s.entries a = some e → e.pid = pid → e.originalLevel = startLevel prio

variable {cfg : Config} {s s' : Staircase} {job job' : SchedulerJob} {pid : ULong}
  {prio : SchedulerPriority}

/-- An entry is written: a new one of another pid, or one that was there, with its pid
and its original level. -/
theorem Derived.update (h : s.Derived pid prio) {a : ULong} {x : Option JobEntry}
    (hx : ∀ e, x = some e → e.pid = pid → e.originalLevel = startLevel prio)
    (active exhausted : StaircaseBlock) :
    Derived pid prio ⟨active, exhausted, Function.update s.entries a x⟩ :=
  update_forall h hx

theorem schedule_derived (h : s.Derived pid prio) {ptr pid' : ULong} {prio' : SchedulerPriority}
    (hp : pid' = pid → prio' = prio) (hs : s.schedule cfg ptr pid' prio' = some s') :
    s'.Derived pid prio := by
  unfold schedule at hs
  split at hs
  · cases hs
  · cases hs
    refine h.update ?_ _ _
    intro e he hpid
    cases he
    rw [hp hpid]

theorem reschedule_derived (h : s.Derived pid prio) (hs : s.reschedule cfg job = some s') :
    s'.Derived pid prio := by
  simp only [reschedule, Option.bind_eq_bind, Option.bind_eq_some_iff] at hs
  obtain ⟨je, hje, hs⟩ := hs
  obtain ⟨a, ha⟩ := entryOf_live hje
  -- both branches keep the pid and the original level
  split at hs <;>
  · cases hs
    refine h.update ?_ _ _
    intro e he hpid
    cases he
    exact h a je ha hpid

theorem unschedule_derived (h : s.Derived pid prio) (hs : s.unschedule job = some s') :
    s'.Derived pid prio := by
  simp only [unschedule, Option.bind_eq_bind, Option.bind_eq_some_iff] at hs
  obtain ⟨je, -, hs⟩ := hs
  cases hs
  refine h.update ?_ _ _
  intro e he
  cases he

theorem dispatch_derived (h : s.Derived pid prio) {level : Nat}
    (hs : s.dispatch cfg job level = some (s', job')) : s'.Derived pid prio := by
  cases dispatch_cases hs with
  | @intro ptr _ entry _ hentry =>
    refine h.update ?_ _ _
    intro e he hpid
    cases he
    exact h ptr entry hentry hpid

theorem select_derived (h : s.Derived pid prio) (hs : s.select cfg job = some (s', job')) :
    s'.Derived pid prio := by
  cases select_cases hs with
  | active _ hd => exact dispatch_derived h hd
  | exhausted _ _ _ hd => exact dispatch_derived (s := s.swap) h hd
  | flagged => exact h
  | empty => exact h

theorem dispatch_priority {level : Nat} (hs : s.dispatch cfg job level = some (s', job')) :
    job'.priority = job.priority := by
  cases dispatch_cases hs
  rfl

theorem select_priority (hs : s.select cfg job = some (s', job')) :
    job'.priority = job.priority := by
  cases select_cases hs with
  | active _ hd => exact dispatch_priority hd
  | exhausted _ _ _ hd => exact dispatch_priority hd
  | flagged => rfl
  | empty => rfl

end Staircase

namespace Fair

/-- The tasks of `pid` have the weight of a job of priority `prio`. -/
def Derived (pid : ULong) (prio : SchedulerPriority) (s : Fair) : Prop :=
  ∀ a t, s.tasks a = some t → t.pid = pid →
    t.weight = prioToWeight prio ∧ t.inverseWeight = 1 / prioToWeight prio

variable {cfg : Config} {s s' : Fair} {job job' : SchedulerJob} {ptr pid : ULong}
  {prio : SchedulerPriority}

theorem timelineInsert_derived (h : s.Derived pid prio) {task : SchedulerTask} {timebase : ULong}
    (htask : task.pid = pid →
      task.weight = prioToWeight prio ∧ task.inverseWeight = 1 / prioToWeight prio)
    (hs : s.timelineInsert task ptr timebase = some s') : s'.Derived pid prio := by
  obtain ⟨key, -, htasks⟩ := timelineInsert_spec hs
  intro a t ht hpid
  rw [htasks] at ht
  exact update_forall h (x := some { task with timebase := key }) (fun t ht => by
    cases ht
    exact htask) a t ht hpid

theorem schedule_derived (h : s.Derived pid prio) {pid' : ULong} {prio' : SchedulerPriority}
    (hp : pid' = pid → prio' = prio) (hs : s.schedule ptr pid' prio' = some s') :
    s'.Derived pid prio := by
  unfold schedule at hs
  split at hs
  · cases hs
  · obtain ⟨lowest, -, hs⟩ := Option.bind_eq_some_iff.mp hs
    refine timelineInsert_derived h (fun hpid => ?_) hs
    rw [← hp hpid]
    exact ⟨rfl, rfl⟩

theorem reschedule_derived (h : s.Derived pid prio) (hs : s.reschedule cfg job = some s') :
    s'.Derived pid prio := by
  unfold reschedule at hs
  split at hs
  · cases hs
    exact h
  · obtain ⟨task, htask, hs⟩ := Option.bind_eq_some_iff.mp hs
    split at hs
    · cases hs
    · obtain ⟨t, ht, hs⟩ := Option.bind_eq_some_iff.mp hs
      cases hs
      have hderived := timelineInsert_derived h (h job.data task htask) ht
      exact hderived

theorem unschedule_derived (h : s.Derived pid prio) (hs : s.unschedule job = some s') :
    s'.Derived pid prio := by
  unfold unschedule at hs
  split at hs
  · cases hs
    exact h
  · obtain ⟨task, -, hs⟩ := Option.bind_eq_some_iff.mp hs
    cases hs
    exact update_forall h fun t ht => by cases ht

theorem select_derived (h : s.Derived pid prio) (hs : s.select cfg job = some (s', job')) :
    s'.Derived pid prio := by
  unfold select at hs
  split at hs
  · cases hs
    exact h
  · simp only [Option.bind_eq_bind, Option.bind_eq_some_iff] at hs
    obtain ⟨lowest, -, ptr, -, task, htask, runtime, -, hs⟩ := hs
    cases hs
    refine update_forall h fun t ht => ?_
    cases ht
    exact h ptr task htask

theorem select_priority (hs : s.select cfg job = some (s', job')) :
    job'.priority = job.priority := by
  unfold select at hs
  split at hs
  · cases hs
    rfl
  · simp only [Option.bind_eq_bind, Option.bind_eq_some_iff] at hs
    obtain ⟨lowest, -, ptr, -, task, -, runtime, -, hs⟩ := hs
    cases hs
    rfl

end Fair

namespace Scheduler

/-- What the scheduler keeps about `pid` is what priority `prio` gives. The round-robin
scheduler keeps nothing. -/
def Derived (pid : ULong) (prio : SchedulerPriority) : Scheduler → Prop
  | roundRobin _ => True
  | staircase s => s.Derived pid prio
  | fair s => s.Derived pid prio

variable {cfg : Config} {s s' : Scheduler} {job job' : SchedulerJob} {ptr pid pid' : ULong}
  {prio prio' : SchedulerPriority}

theorem allocate_derived (cfg : Config) (n : Int) :
    (allocateSchedByNumber cfg n).Derived pid prio := by
  unfold allocateSchedByNumber
  split
  · trivial
  · split
    · intro a e he
      cases he
    · intro a t ht
      cases ht

theorem schedule_derived (h : s.Derived pid prio) (hp : pid' = pid → prio' = prio)
    (hs : s.schedule cfg ptr pid' prio' = some s') : s'.Derived pid prio := by
  cases s with
  | roundRobin s =>
    cases hs
    trivial
  | staircase s =>
    obtain ⟨t, ht, rfl⟩ := Option.map_eq_some_iff.mp hs
    exact Staircase.schedule_derived h hp ht
  | fair s =>
    obtain ⟨t, ht, rfl⟩ := Option.map_eq_some_iff.mp hs
    exact Fair.schedule_derived h hp ht

theorem reschedule_derived (h : s.Derived pid prio) (hs : s.reschedule cfg job = some s') :
    s'.Derived pid prio := by
  cases s with
  | roundRobin s =>
    cases hs
    trivial
  | staircase s =>
    obtain ⟨t, ht, rfl⟩ := Option.map_eq_some_iff.mp hs
    exact Staircase.reschedule_derived h ht
  | fair s =>
    obtain ⟨t, ht, rfl⟩ := Option.map_eq_some_iff.mp hs
    exact Fair.reschedule_derived h ht

theorem unschedule_derived (h : s.Derived pid prio) (hs : s.unschedule job = some s') :
    s'.Derived pid prio := by
  cases s with
  | roundRobin s =>
    cases hs
    trivial
  | staircase s =>
    obtain ⟨t, ht, rfl⟩ := Option.map_eq_some_iff.mp hs
    exact Staircase.unschedule_derived h ht
  | fair s =>
    obtain ⟨t, ht, rfl⟩ := Option.map_eq_some_iff.mp hs
    exact Fair.unschedule_derived h ht

theorem select_derived (h : s.Derived pid prio) (hs : s.select cfg job = some (s', job')) :
    s'.Derived pid prio := by
  cases s with
  | roundRobin s =>
    cases hs
    trivial
  | staircase s =>
    obtain ⟨⟨t, j⟩, ht, he⟩ := Option.map_eq_some_iff.mp hs
    cases he
    exact Staircase.select_derived h ht
  | fair s =>
    obtain ⟨⟨t, j⟩, ht, he⟩ := Option.map_eq_some_iff.mp hs
    cases he
    exact Fair.select_derived h ht

theorem select_priority (hs : s.select cfg job = some (s', job')) :
    job'.priority = job.priority := by
  cases s with
  | roundRobin s =>
    cases hq : s.queue with
    | nil =>
      rw [select, RoundRobin.select_empty cfg s job hq] at hs
      cases hs
      rfl
    | cons pid rest =>
      rw [select, RoundRobin.select_cons cfg s job hq] at hs
      cases hs
      rfl
  | staircase s =>
    obtain ⟨⟨t, j⟩, ht, he⟩ := Option.map_eq_some_iff.mp hs
    cases he
    exact Staircase.select_priority ht
  | fair s =>
    obtain ⟨⟨t, j⟩, ht, he⟩ := Option.map_eq_some_iff.mp hs
    cases he
    exact Fair.select_priority ht

/-- A scheduler that keeps anything about a job it received with `NORMAL` shows it. -/
theorem schedule_reveals (hs : s.schedule cfg ptr pid .normal = some s')
    (h : s'.Derived pid prio) : prio = .normal ∨ ∃ r, s' = roundRobin r := by
  cases s with
  | roundRobin s =>
    cases hs
    exact Or.inr ⟨_, rfl⟩
  | staircase s =>
    obtain ⟨t, ht, rfl⟩ := Option.map_eq_some_iff.mp hs
    unfold Staircase.schedule at ht
    split at ht
    · cases ht
    · cases ht
      have hlevel := h ptr _ (Function.update_self ..) rfl
      exact Or.inl (Staircase.startLevel_eq_normal.mp hlevel.symm)
  | fair s =>
    obtain ⟨t, ht, rfl⟩ := Option.map_eq_some_iff.mp hs
    unfold Fair.schedule at ht
    split at ht
    · cases ht
    · obtain ⟨lowest, -, ht⟩ := Option.bind_eq_some_iff.mp ht
      obtain ⟨key, -, htasks⟩ := Fair.timelineInsert_spec ht
      have hweight := h ptr _ (by rw [htasks, Function.update_self]) rfl
      exact Or.inl (prioToWeight_injective hweight.1).symm

end Scheduler

/-! ## The moves of a call -/

namespace Master

variable (cfg : Config) (m : Master)

/-- The job `job_hoist` takes from `src`, as it passes it on. -/
def hoisted (src : Nat) : List SchedulerJob :=
  match (m.schedulers src).bind fun s => s.select cfg .blank with
  | some (_, job) => if job.pid ≠ 0 then [job] else []
  | none => []

def hoistLoopMoved (m : Master) (src target : Nat) : List ULong → List SchedulerJob
  | [] => []
  | ptr :: ptrs =>
    if m.jobcounts src > m.jobcounts target then
      m.hoisted cfg src ++ match m.jobHoist cfg src target ptr with
        | some m => hoistLoopMoved m src target ptrs
        | none => []
    else []

def shiftMoved (m : Master) (ptrs : Nat → List ULong) : Nat → List SchedulerJob
  | 0 => []
  | shifts + 1 =>
    match m.selectCoreLeastLoad with
    | none => []
    | some (m', least) =>
      let most := m.selectCoreMostLoad
      hoistLoopMoved cfg m' most least (ptrs shifts) ++
        match m'.rebalance cfg most least (ptrs shifts) with
        | some m => shiftMoved m ptrs shifts
        | none => []

def accountMoved (newTime : ULong) (ptrs : Nat → List ULong) : List SchedulerJob :=
  if m.nprocs > 1 ∧ m.lastAccounting + ACCOUNTING_PERIOD < newTime then
    shiftMoved cfg { m with lastAccounting := newTime } ptrs ACCOUNTING_SHIFTS
  else []

/-- The jobs a call passes from one core to another. -/
def Client.moved (st : Client) : Op → List SchedulerJob
  | .select _ _ newTime ptrs => st.master.accountMoved cfg newTime ptrs
  | .hoist src _ _ => st.master.hoisted cfg src
  | _ => []

/-- Every scheduler keeps about `pid` what `prio` gives. -/
def Derived (pid : ULong) (prio : SchedulerPriority) (schedulers : Nat → Option Scheduler) :
    Prop :=
  ∀ c s, schedulers c = some s → s.Derived pid prio

/-- In this step the job `pid` of priority `prio` is received with that priority wherever
it goes, and afterwards it has the weight or level of `prio` on every core. -/
def Client.KeepsPriority (pid : ULong) (prio : SchedulerPriority) (st : Client) (op : Op)
    (st' : Client) : Prop :=
  (∀ job ∈ st.moved cfg op, job.pid = pid → job.priority = prio) ∧
    Derived pid prio st'.master.schedulers

/-- No job of the list is one of `pid`. -/
def Unmoved (pid : ULong) (jobs : List SchedulerJob) : Prop := ∀ job ∈ jobs, job.pid ≠ pid

variable {cfg m} {m' : Master} {pid ptr newTime : ULong} {prio : SchedulerPriority}
  {src dst core : Nat} {job job' : SchedulerJob} {jobs : List SchedulerJob}
  {ptrs : Nat → List ULong} {schedulers : Nat → Option Scheduler} {s : Scheduler}

theorem selectCoreLeastLoad_schedulers (h : m.selectCoreLeastLoad = some (m', dst)) :
    m'.schedulers = m.schedulers := by
  unfold selectCoreLeastLoad at h
  split at h
  · cases h
    rfl
  · dsimp only at h
    split at h
    · cases h
    · cases h
      rfl

theorem Unmoved.mono {jobs' : List SchedulerJob} (h : Unmoved pid jobs) (hsub : jobs' ⊆ jobs) :
    Unmoved pid jobs' := fun job hj => h job (hsub hj)

theorem Derived.set (h : Derived pid prio schedulers) (core : Nat) (hs : s.Derived pid prio) :
    Derived pid prio (Function.update schedulers core (some s)) := by
  intro c t ht
  by_cases hc : c = core
  · subst hc
    rw [Function.update_self] at ht
    obtain rfl := Option.some.inj ht
    exact hs
  · rw [Function.update_of_ne hc] at ht
    exact h c t ht

theorem schedulerForCore_derived (cfg : Config) (core : Nat) (h : Derived pid prio m.schedulers) :
    Derived pid prio (m.schedulerForCore cfg core).1.schedulers ∧
      (m.schedulerForCore cfg core).2.Derived pid prio := by
  unfold schedulerForCore
  cases hs : m.schedulers core with
  | some s => exact ⟨h, h core s hs⟩
  | none =>
    have hnew : (allocateSchedByNumber cfg m.secSchedType).Derived pid prio :=
      Scheduler.allocate_derived cfg m.secSchedType
    exact ⟨h.set core hnew, hnew⟩

/-! ## What the destination receives -/

/-- `job_hoist` passes its job on with the priority it set up for the call of `select`. -/
theorem hoisted_priority (h : job ∈ m.hoisted cfg src) : job.priority = .normal := by
  unfold hoisted at h
  split at h
  · rename_i s job' hsel
    split at h
    · obtain rfl := List.mem_singleton.mp h
      obtain ⟨source, -, hsel⟩ := Option.bind_eq_some_iff.mp hsel
      exact Scheduler.select_priority hsel
    · cases h
  · cases h

theorem hoistLoopMoved_priority {addrs : List ULong}
    (h : job ∈ hoistLoopMoved cfg m src dst addrs) : job.priority = .normal := by
  induction addrs generalizing m with
  | nil => cases h
  | cons ptr addrs ih =>
    rw [hoistLoopMoved] at h
    split at h
    · rcases List.mem_append.mp h with h | h
      · exact hoisted_priority h
      · split at h
        · exact ih h
        · cases h
    · cases h

theorem shiftMoved_priority {shifts : Nat} (h : job ∈ shiftMoved cfg m ptrs shifts) :
    job.priority = .normal := by
  induction shifts generalizing m with
  | zero => cases h
  | succ shifts ih =>
    rw [shiftMoved] at h
    split at h
    · cases h
    · rcases List.mem_append.mp h with h | h
      · exact hoistLoopMoved_priority h
      · split at h
        · exact ih h
        · cases h

/-- Whatever its priority was, a job that a call moves is received with `NORMAL`. -/
theorem Client.moved_priority {st : Client} {op : Op} (h : job ∈ st.moved cfg op) :
    job.priority = .normal := by
  cases op with
  | select core job₀ newTime ptrs =>
    simp only [Client.moved, accountMoved] at h
    split at h
    · exact shiftMoved_priority h
    · cases h
  | hoist src dst ptr => exact hoisted_priority h
  | schedule ptr pid prio => cases h
  | reschedule core granted job₀ => cases h
  | unschedule core granted job₀ => cases h
  | leastLoad => cases h

/-! ## What the entries keep -/

theorem jobHoist_derived (h : Derived pid prio m.schedulers)
    (hok : prio = .normal ∨ Unmoved pid (m.hoisted cfg src))
    (hs : m.jobHoist cfg src dst ptr = some m') : Derived pid prio m'.schedulers := by
  simp only [jobHoist, Option.bind_eq_bind, Option.bind_eq_some_iff] at hs
  obtain ⟨source, hsource, ⟨source', job⟩, hsel, hs⟩ := hs
  have h1 := h.set src (Scheduler.select_derived (h src source hsource) hsel)
  split at hs
  · rename_i hpid
    simp only [hoistJob, Option.bind_eq_bind, Option.bind_eq_some_iff] at hs
    obtain ⟨target, htarget, target', hsched, from', hfrom, from'', hunsched, hs⟩ := hs
    cases hs
    -- the destination makes an entry from `NORMAL`
    have hprio : job.pid = pid → job.priority = prio := by
      intro hjob
      rw [Scheduler.select_priority hsel]
      rcases hok with rfl | hok
      · rfl
      · refine absurd hjob (hok job ?_)
        simp only [hoisted, hsource, Option.bind_some, hsel, if_pos hpid]
        exact List.mem_singleton_self job
    have h2 := h1.set dst (Scheduler.schedule_derived (h1 dst target htarget) hprio hsched)
    exact h2.set src (Scheduler.unschedule_derived (h2 src from' hfrom) hunsched)
  · cases hs
    exact h1

/-- So a move shows in the weight or level of the job, unless the destination is a
round-robin scheduler, which has neither. -/
theorem jobHoist_reveals (hne : src ≠ dst) (hmoved : job ∈ m.hoisted cfg src)
    (hs : m.jobHoist cfg src dst ptr = some m') (h : Derived job.pid prio m'.schedulers) :
    prio = .normal ∨ ∃ r, m'.schedulers dst = some (.roundRobin r) := by
  have hprio := hoisted_priority hmoved
  simp only [jobHoist, Option.bind_eq_bind, Option.bind_eq_some_iff] at hs
  obtain ⟨source, hsource, ⟨source', job₁⟩, hsel, hs⟩ := hs
  simp only [hoisted, hsource, Option.bind_some, hsel] at hmoved
  split at hmoved
  · rename_i hpid
    obtain rfl := List.mem_singleton.mp hmoved
    simp only [if_pos hpid, hoistJob, Option.bind_eq_bind, Option.bind_eq_some_iff] at hs
    obtain ⟨target, -, target', hsched, from', -, from'', -, hs⟩ := hs
    cases hs
    have hdst : Function.update (Function.update (Function.update m.schedulers src
        (some source')) dst (some target')) src (some from'') dst = some target' := by
      rw [Function.update_of_ne hne.symm, Function.update_self]
    rw [hprio] at hsched
    refine (Scheduler.schedule_reveals hsched (h dst target' hdst)).imp_right ?_
    rintro ⟨r, rfl⟩
    exact ⟨r, hdst⟩
  · cases hmoved

theorem hoistLoop_derived {addrs : List ULong} (h : Derived pid prio m.schedulers)
    (hok : prio = .normal ∨ Unmoved pid (hoistLoopMoved cfg m src dst addrs))
    (hs : m.hoistLoop cfg src dst addrs = some m') : Derived pid prio m'.schedulers := by
  induction addrs generalizing m with
  | nil =>
    rw [hoistLoop] at hs
    split at hs
    · cases hs
    · cases hs
      exact h
  | cons ptr addrs ih =>
    rw [hoistLoop] at hs
    split at hs
    · rename_i hlt
      obtain ⟨m₁, h₁, hs⟩ := Option.bind_eq_some_iff.mp hs
      rw [hoistLoopMoved, if_pos hlt, h₁] at hok
      refine ih (jobHoist_derived h (hok.imp_right fun hu => ?_) h₁)
        (hok.imp_right fun hu => ?_) hs
      · exact hu.mono (List.subset_append_left _ _)
      · exact hu.mono (List.subset_append_right _ _)
    · cases hs
      exact h

theorem shift_derived {shifts : Nat} (h : Derived pid prio m.schedulers)
    (hok : prio = .normal ∨ Unmoved pid (shiftMoved cfg m ptrs shifts))
    (hs : m.shift cfg ptrs shifts = some m') : Derived pid prio m'.schedulers := by
  induction shifts generalizing m with
  | zero =>
    cases hs
    exact h
  | succ shifts ih =>
    simp only [shift, Option.bind_eq_bind, Option.bind_eq_some_iff] at hs
    obtain ⟨⟨m₁, least⟩, h₁, m₂, h₂, hs⟩ := hs
    simp only [shiftMoved, h₁, h₂] at hok
    have hm₁ : Derived pid prio m₁.schedulers := by
      rwa [selectCoreLeastLoad_schedulers h₁]
    refine ih ?_ (hok.imp_right fun hu => hu.mono (List.subset_append_right _ _)) hs
    unfold rebalance at h₂
    split at h₂
    · cases h₂
    · exact hoistLoop_derived hm₁
        (hok.imp_right fun hu => hu.mono (List.subset_append_left _ _)) h₂

theorem account_derived (h : Derived pid prio m.schedulers)
    (hok : prio = .normal ∨ Unmoved pid (m.accountMoved cfg newTime ptrs))
    (hs : m.account cfg newTime ptrs = some m') : Derived pid prio m'.schedulers := by
  unfold account at hs
  split at hs
  · rename_i hdue
    rw [accountMoved, if_pos hdue] at hok
    exact shift_derived (m := { m with lastAccounting := newTime }) h hok hs
  · cases hs
    exact h

theorem selectOn_derived (h : Derived pid prio m.schedulers)
    (hs : m.selectOn cfg core job = some (m', job')) : Derived pid prio m'.schedulers := by
  unfold selectOn at hs
  split at hs
  · cases hs
    exact h
  · obtain ⟨h1, hcore⟩ := schedulerForCore_derived cfg core h
    simp only [doselect, Option.bind_eq_bind, Option.bind_eq_some_iff] at hs
    obtain ⟨⟨s', job₁⟩, hsel, hs⟩ := hs
    cases hs
    exact h1.set core (Scheduler.select_derived hcore hsel)

theorem schedule_derived (h : Derived pid prio m.schedulers) {pid' : ULong}
    {prio' : SchedulerPriority} (hp : pid' = pid → prio' = prio)
    (hs : m.masterSchedSchedule cfg ptr pid' prio' = some m') :
    Derived pid prio m'.schedulers := by
  rcases masterSchedSchedule_cases hs with ⟨-, core, -, rfl⟩ | ⟨-, hs⟩
  · exact h
  · simp only [scheduleShared, Option.bind_eq_bind, Option.bind_eq_some_iff] at hs
    obtain ⟨⟨m₁, target⟩, h₁, s', hsched, hs⟩ := hs
    have hm₁ : Derived pid prio m₁.schedulers := by
      rwa [selectCoreLeastLoad_schedulers h₁]
    obtain ⟨h2, hcore⟩ := schedulerForCore_derived cfg target hm₁
    cases hs
    exact h2.set target (Scheduler.schedule_derived hcore hp hsched)

theorem reschedule_derived (h : Derived pid prio m.schedulers)
    (hs : m.masterSchedReschedule cfg core job = some m') : Derived pid prio m'.schedulers := by
  unfold masterSchedReschedule at hs
  split at hs
  · obtain ⟨h1, hcore⟩ := schedulerForCore_derived cfg core h
    simp only [Option.bind_eq_bind, Option.bind_eq_some_iff] at hs
    obtain ⟨s', hresched, hs⟩ := hs
    cases hs
    exact h1.set core (Scheduler.reschedule_derived hcore hresched)
  · cases hs
    exact h

theorem unschedule_derived (h : Derived pid prio m.schedulers)
    (hs : m.masterSchedUnschedule cfg core job = some m') : Derived pid prio m'.schedulers := by
  unfold masterSchedUnschedule at hs
  split at hs
  · cases hs
    exact h
  · obtain ⟨h1, hcore⟩ := schedulerForCore_derived cfg core h
    simp only [Option.bind_eq_bind, Option.bind_eq_some_iff] at hs
    obtain ⟨s', hunsched, hs⟩ := hs
    cases hs
    exact h1.set core (Scheduler.unschedule_derived hcore hunsched)

namespace Client

variable {st st' : Client} {op : Op} {ops : List Op}

/-- One call: the entries of `pid` stay what `prio` gives, unless the call moves `pid`
and `prio` is not `NORMAL`. -/
theorem step_derived (h : Derived pid prio st.master.schedulers)
    (hop : ∀ ptr prio', op = .schedule ptr pid prio' → prio' = prio)
    (hok : prio = .normal ∨ Unmoved pid (st.moved cfg op)) (hs : st.step cfg op = some st') :
    Derived pid prio st'.master.schedulers := by
  cases step_calls hs with
  | @schedule ptr pid' prio' m h0 hfresh hm =>
    refine schedule_derived h (fun hpid => ?_) hm
    subst hpid
    exact hop ptr prio' rfl
  | select _ hacc hsel => exact selectOn_derived (account_derived h hok hacc) hsel
  | reschedule _ _ _ hm => exact reschedule_derived h hm
  | unschedule _ _ _ hm => exact unschedule_derived h hm
  | leastLoad hm =>
    dsimp only
    rwa [selectCoreLeastLoad_schedulers hm]
  | hoist _ _ _ hm => exact jobHoist_derived h hok hm

theorem start_derived (cfg : Config) (procs : Nat) (prim sec : Int) (pid : ULong)
    (prio : SchedulerPriority) : Derived pid prio (start cfg procs prim sec).master.schedulers := by
  refine Derived.set (fun c s hs => ?_) 0 (Scheduler.allocate_derived cfg prim)
  cases hs

/-- Take a run that schedules `pid` with priority `prio` only. The job keeps its priority
wherever it goes if and only if that priority is `NORMAL` or the job never goes anywhere. -/
theorem keepsPriority_iff (cfg : Config) (procs : Nat) (prim sec : Int) (pid : ULong)
    (prio : SchedulerPriority) (ops : List Op)
    (hops : ∀ ptr prio', Op.schedule ptr pid prio' ∈ ops → prio' = prio) :
    Along (step cfg) (KeepsPriority cfg pid prio) (start cfg procs prim sec) ops ↔
      prio = .normal ∨ Along (step cfg) (fun st op _ => Unmoved pid (st.moved cfg op))
        (start cfg procs prim sec) ops := by
  constructor
  · intro h
    by_cases hprio : prio = .normal
    · exact Or.inl hprio
    · refine Or.inr (h.mono fun st op st' hkeeps job hmoved hpid => hprio ?_)
      rw [← hkeeps.1 job hmoved hpid]
      exact moved_priority hmoved
  · intro h
    have hgood : Along (step cfg) (fun st op _ => prio = .normal ∨ Unmoved pid (st.moved cfg op))
        (start cfg procs prim sec) ops := by
      rcases h with hprio | h
      · exact along_of_forall_mem fun _ _ _ _ => Or.inl hprio
      · exact h.mono fun _ _ _ hu => Or.inr hu
    have hsched : Along (step cfg)
        (fun _ op _ => ∀ ptr prio', op = Op.schedule ptr pid prio' → prio' = prio)
        (start cfg procs prim sec) ops := by
      refine along_of_forall_mem fun op hop _ _ ptr prio' heq => hops ptr prio' ?_
      rw [← heq]
      exact hop
    refine along_of_invariant (I := fun st => Derived pid prio st.master.schedulers)
      (start_derived cfg procs prim sec pid prio) ?_ (hgood.and hsched)
    intro st op st' hderived hgood hs
    have hderived' := step_derived hderived hgood.2 hgood.1 hs
    refine ⟨hderived', fun job hmoved hpid => ?_, hderived'⟩
    rcases hgood.1 with rfl | hu
    · exact moved_priority hmoved
    · exact absurd hpid (hu job hmoved)

/-- A `HIGH` job of core 0 is moved to core 1, which has a scheduler already. -/
def moveHigh : List Op :=
  [.select 1 .blank 0 fun _ => [], .schedule 4096 7 .high, .hoist 0 1 8192]

theorem keepsPriority_iff_moveHigh :
    (∀ ptr prio', Op.schedule ptr 7 prio' ∈ moveHigh → prio' = .high) ∧
      (Along (step .defaultProfile) (KeepsPriority .defaultProfile 7 .high)
          (start .defaultProfile 2 3 2) moveHigh ↔
        SchedulerPriority.high = .normal ∨
          Along (step .defaultProfile) (fun st op _ => Unmoved 7 (st.moved .defaultProfile op))
            (start .defaultProfile 2 3 2) moveHigh) := by
  have hops : ∀ ptr prio', Op.schedule ptr 7 prio' ∈ moveHigh → prio' = .high := by
    intro ptr prio' h
    simp only [moveHigh, List.mem_cons, List.not_mem_nil, or_false, reduceCtorEq, false_or,
      Op.schedule.injEq] at h
    exact h.2.2
  exact ⟨hops, keepsPriority_iff .defaultProfile 2 3 2 7 .high moveHigh hops⟩

/-- The staircase scheduler of core 1 receives it with `NORMAL`. -/
theorem moveHigh_loses_priority :
    ¬ Along (step .defaultProfile) (KeepsPriority .defaultProfile 7 .high)
      (start .defaultProfile 2 3 2) moveHigh := by
  intro h
  have hlast : Along (step .defaultProfile) (KeepsPriority .defaultProfile 7 .high)
      (start .defaultProfile 2 3 2)
      ([.select 1 .blank 0 fun _ => [], .schedule 4096 7 .high] ++ [.hoist 0 1 8192]) := h
  obtain ⟨st, st', ⟨hkeeps, -⟩, hmoved⟩ := along_observed
    (f := fun (st _ : Client) => (st.moved .defaultProfile (.hoist 0 1 8192)).map
      fun job => (job.pid, job.priority))
    (x := [(7, .normal)]) hlast (by decide +kernel)
  obtain ⟨job, hjob, heq⟩ := List.mem_map.mp (hmoved ▸ List.mem_singleton_self (7, _))
  obtain ⟨hpid, hprio⟩ := Prod.mk.inj heq
  rw [hkeeps job hjob hpid] at hprio
  cases hprio

end Client

end Master

end Yarns
