import Yarns.Sched.MasterClient

/-!
# The schedulers a hoist works on

`job_hoist` takes the schedulers of its two cores from the table; only
`scheduler_for_core` creates one. The calls that the accounting makes are listed with the
state each is made in, and a run is kept together with the cores for which
`scheduler_for_core` was called. A core has a scheduler exactly if it is core 0 or one of
these. The most loaded core always is; the least loaded one need not be.
-/

namespace Yarns.Master

open Base

/-- A call of `job_hoist` with the state it is made in. -/
structure HoistCall where
  master : Master
  src : Nat
  dst : Nat

def HoistCall.Allocated (call : HoistCall) : Prop :=
  (call.master.schedulers call.src).isSome ∧ (call.master.schedulers call.dst).isSome

section

variable (cfg : Config) (m : Master)

/-- The calls in the loop of `rebalance`, the last one perhaps without a return. -/
def hoistLoopCalls (m : Master) (src target : Nat) : List ULong → List HoistCall
  | [] => if m.jobcounts src > m.jobcounts target then [⟨m, src, target⟩] else []
  | ptr :: ptrs =>
    if m.jobcounts src > m.jobcounts target then
      ⟨m, src, target⟩ :: match m.jobHoist cfg src target ptr with
        | some m => hoistLoopCalls m src target ptrs
        | none => []
    else []

def rebalanceCalls (src target : Nat) (ptrs : List ULong) : List HoistCall :=
  if src = target then [] else m.hoistLoopCalls cfg src target ptrs

/-- The calls in one pass of the accounting loop. -/
def passCalls (ptrs : List ULong) : List HoistCall :=
  match m.selectCoreLeastLoad with
  | some (m', least) => m'.rebalanceCalls cfg m.selectCoreMostLoad least ptrs
  | none => []

/-- One pass of the accounting loop. -/
def pass (ptrs : List ULong) : Option Master := do
  let most := m.selectCoreMostLoad
  let (m, least) ← m.selectCoreLeastLoad
  m.rebalance cfg most least ptrs

/-- The passes of the accounting loop: the state each starts in and its addresses. -/
def passes (m : Master) (ptrs : Nat → List ULong) : Nat → List (Master × List ULong)
  | 0 => []
  | shifts + 1 =>
    (m, ptrs shifts) :: match m.pass cfg (ptrs shifts) with
      | some m => passes m ptrs shifts
      | none => []

/-- The passes made when `master_sched_select` is called. -/
def accountPasses (newTime : ULong) (ptrs : Nat → List ULong) : List (Master × List ULong) :=
  if m.nprocs > 1 ∧ m.lastAccounting + ACCOUNTING_PERIOD < newTime then
    passes cfg { m with lastAccounting := newTime } ptrs ACCOUNTING_SHIFTS
  else []

def accountCalls (newTime : ULong) (ptrs : Nat → List ULong) : List HoistCall :=
  (m.accountPasses cfg newTime ptrs).flatMap fun p => p.1.passCalls cfg p.2

end

variable {cfg : Config} {m m' : Master} {src dst core : Nat} {ptrs : List ULong}
  {addrs : Nat → List ULong} {used : List Nat} {newTime : ULong}

/-- The accounting is its passes, one after the other. -/
theorem shift_succ (shifts : Nat) :
    m.shift cfg addrs (shifts + 1) =
      (m.pass cfg (addrs shifts)).bind fun m => shift cfg m addrs shifts := by
  rw [shift, pass]
  cases m.selectCoreLeastLoad with
  | none => rfl
  | some p => rfl

/-! ## Which cores have a scheduler -/

/-- The cores with a scheduler are those of `used`. A core without one has no jobs, unless
it is dedicated. -/
structure Lazy (used : List Nat) (m : Master) : Prop where
  allocated : ∀ c, (m.schedulers c).isSome ↔ c ∈ used
  idle : ∀ c, c ∉ used → m.singleJobs c = 0 → m.jobcounts c = 0
  first : 0 ∈ used
  cached : m.Cached

theorem init_lazy (cfg : Config) (procs : Nat) (prim sec : Int) :
    Lazy [0] (masterSchedInit cfg procs prim sec) where
  allocated := by
    intro c
    by_cases hc : c = 0
    · subst hc
      simp [masterSchedInit]
    · simp [masterSchedInit, hc]
  idle := fun _ _ _ => rfl
  first := List.mem_singleton_self 0
  cached := fun h => absurd h (Nat.lt_irrefl 0)

/-- Neither the table nor the counter of a core without a scheduler changes. -/
theorem Lazy.frame (h : Lazy used m)
    (hsched : ∀ c, (m'.schedulers c).isSome = (m.schedulers c).isSome)
    (hcounts : ∀ c, m.schedulers c = none → m'.jobcounts c = m.jobcounts c)
    (hsingle : m'.singleJobs = m.singleJobs) (hcached : m'.Cached) : Lazy used m' where
  allocated := by
    intro c
    rw [hsched c]
    exact h.allocated c
  idle := by
    intro c hc hs
    have hnone : m.schedulers c = none :=
      Option.not_isSome_iff_eq_none.mp (mt (h.allocated c).mp hc)
    rw [hcounts c hnone]
    exact h.idle c hc (hsingle ▸ hs)
  first := h.first
  cached := hcached

theorem keptByAccounting_lazy (cfg : Config) (used : List Nat) (m : Master) :
    KeptByAccounting cfg m.nprocs fun m' =>
      Lazy used m' ∧ m'.nprocs = m.nprocs ∧ m'.singleJobs = m.singleJobs where
  cached := by
    intro m' h
    obtain ⟨hlazy, hn, -⟩ := h
    exact ⟨hn, hlazy.cached⟩
  fields := by
    intro m' a b c h hcached
    obtain ⟨hlazy, hn, hsingle⟩ := h
    refine ⟨hlazy.frame (fun _ => rfl) (fun _ _ => rfl) rfl fun hc => ?_, hn, hsingle⟩
    exact hn ▸ hcached hc
  hoist := by
    intro m₁ m₂ src dst ptr h _ _ _ hs
    obtain ⟨hlazy, hn, hsingle⟩ := h
    obtain ⟨hsched, hcounts, hm⟩ := jobHoist_frame hs
    have hcached : m₂.Cached := by
      rw [hm]
      exact hlazy.cached
    have hsingle₂ : m₂.singleJobs = m₁.singleJobs := by rw [hm]
    refine ⟨hlazy.frame hsched hcounts hsingle₂ hcached, ?_, hsingle₂.trans hsingle⟩
    rw [hm]
    exact hn

/-! ## One pass of the accounting -/

/-- The core that the pass chooses as the least loaded one is used, or has no fewer jobs
than the most loaded one. -/
def Ready (used : List Nat) (m : Master) : Prop :=
  ∀ m' least, m.selectCoreLeastLoad = some (m', least) →
    m.jobcounts m.selectCoreMostLoad ≤ m.jobcounts least ∨ least ∈ used

/-- A core with jobs that is not dedicated has a scheduler; without one core 0 is taken. -/
theorem Lazy.mostLoad_used (h : Lazy used m) : m.selectCoreMostLoad ∈ used := by
  have hscan : ∀ n, (m.mostLoadScan n).2 ≠ 0 → (m.mostLoadScan n).1 ∈ used := by
    intro n
    induction n with
    | zero => exact fun hne => absurd rfl hne
    | succ n ih =>
      have hscan : m.mostLoadScan (n + 1) = m.mostLoadStep (m.mostLoadScan n) n := by
        simp [mostLoadScan, List.range_succ]
      rw [hscan, mostLoadStep]
      split
      · rename_i hmore
        obtain ⟨hsingle, hmore⟩ := hmore
        intro _
        by_contra hn
        have hzero := h.idle n hn hsingle
        rw [hzero] at hmore
        exact absurd hmore (by simp)
      · exact ih
  unfold selectCoreMostLoad
  dsimp only
  split
  · exact h.first
  · rename_i hne
    exact hscan m.nprocs hne

theorem hoistLoopCalls_allocated (hsrc : (m.schedulers src).isSome)
    (hdst : (m.schedulers dst).isSome) :
    ∀ call ∈ m.hoistLoopCalls cfg src dst ptrs, call.Allocated := by
  induction ptrs generalizing m with
  | nil =>
    rw [hoistLoopCalls]
    split
    · intro call hcall
      rw [List.mem_singleton.mp hcall]
      exact ⟨hsrc, hdst⟩
    · intro call hcall
      cases hcall
  | cons ptr ptrs ih =>
    rw [hoistLoopCalls]
    split
    · intro call hcall
      rcases List.mem_cons.mp hcall with rfl | hcall
      · exact ⟨hsrc, hdst⟩
      · cases hhoist : m.jobHoist cfg src dst ptr with
        | none =>
          rw [hhoist] at hcall
          cases hcall
        | some m₁ =>
          rw [hhoist] at hcall
          obtain ⟨hsched, -⟩ := jobHoist_frame hhoist
          refine ih ?_ ?_ call hcall
          · rw [hsched]
            exact hsrc
          · rw [hsched]
            exact hdst
    · intro call hcall
      cases hcall

/-- The loop makes its first call where the counters say so. -/
theorem hoistLoopCalls_head (cfg : Config) (ptrs : List ULong)
    (h : m.jobcounts src > m.jobcounts dst) :
    ⟨m, src, dst⟩ ∈ m.hoistLoopCalls cfg src dst ptrs := by
  cases ptrs with
  | nil =>
    rw [hoistLoopCalls, if_pos h]
    exact List.mem_singleton_self _
  | cons ptr ptrs =>
    rw [hoistLoopCalls, if_pos h]
    exact List.mem_cons_self

theorem hoistLoopCalls_of_le (h : ¬ m.jobcounts src > m.jobcounts dst) :
    m.hoistLoopCalls cfg src dst ptrs = [] := by
  cases ptrs with
  | nil => rw [hoistLoopCalls, if_neg h]
  | cons ptr ptrs => rw [hoistLoopCalls, if_neg h]

theorem passCalls_allocated_iff (h : Lazy used m) :
    (∀ call ∈ m.passCalls cfg ptrs, call.Allocated) ↔ Ready used m := by
  unfold passCalls Ready
  cases hleast : m.selectCoreLeastLoad with
  | none => simp
  | some p =>
    obtain ⟨m', least⟩ := p
    obtain ⟨a, b, hm'⟩ := selectCoreLeastLoad_frame hleast
    have hsched : m'.schedulers = m.schedulers := by rw [hm']
    have hcounts : m'.jobcounts = m.jobcounts := by rw [hm']
    have hmost : (m'.schedulers m.selectCoreMostLoad).isSome := by
      rw [hsched]
      exact (h.allocated _).mpr h.mostLoad_used
    dsimp only [rebalanceCalls]
    constructor
    · intro hall m₂ least₂ heq
      cases heq
      by_cases hmore : m.jobcounts m.selectCoreMostLoad > m.jobcounts least
      · have hne : m.selectCoreMostLoad ≠ least := by
          intro heq
          rw [heq] at hmore
          exact absurd hmore (lt_irrefl _)
        rw [if_neg hne] at hall
        have hcall := hoistLoopCalls_head cfg ptrs (hcounts ▸ hmore)
        obtain ⟨-, hdst⟩ := hall _ hcall
        exact Or.inr ((h.allocated least).mp (hsched ▸ hdst))
      · exact Or.inl (not_lt.mp hmore)
    · intro hready
      split
      · intro call hcall
        cases hcall
      · rcases hready _ _ rfl with hle | hused
        · rw [← hcounts] at hle
          rw [hoistLoopCalls_of_le (not_lt.mpr hle)]
          intro call hcall
          cases hcall
        · refine hoistLoopCalls_allocated hmost ?_
          rw [hsched]
          exact (h.allocated least).mpr hused

theorem Lazy.pass (h : Lazy used m) (hn : 0 < m.nprocs) (hs : m.pass cfg ptrs = some m') :
    Lazy used m' ∧ m'.nprocs = m.nprocs := by
  have hk := keptByAccounting_lazy cfg used m
  have hone : m.shift cfg (fun _ => ptrs) 1 = some m' := by
    rw [shift_succ, hs]
    rfl
  obtain ⟨hlazy, hn', -⟩ := hk.shift hn ⟨h, rfl, rfl⟩ hone
  exact ⟨hlazy, hn'⟩

/-- The cores with a scheduler are the same in every pass. -/
theorem Lazy.passes (h : Lazy used m) (hn : 0 < m.nprocs) (shifts : Nat) :
    ∀ p ∈ Master.passes cfg m addrs shifts, Lazy used p.1 := by
  induction shifts generalizing m with
  | zero =>
    intro p hp
    cases hp
  | succ shifts ih =>
    intro p hp
    rw [Master.passes] at hp
    rcases List.mem_cons.mp hp with rfl | hp
    · exact h
    · cases hpass : m.pass cfg (addrs shifts) with
      | none =>
        rw [hpass] at hp
        cases hp
      | some m₁ =>
        rw [hpass] at hp
        obtain ⟨h₁, hn₁⟩ := h.pass hn hpass
        exact ih h₁ (by omega) p hp

theorem accountCalls_allocated_iff (h : Lazy used m) :
    (∀ call ∈ m.accountCalls cfg newTime addrs, call.Allocated) ↔
      ∀ p ∈ m.accountPasses cfg newTime addrs, Ready used p.1 := by
  have hpasses : ∀ p ∈ m.accountPasses cfg newTime addrs, Lazy used p.1 := by
    unfold accountPasses
    split
    · rename_i hdue
      refine Lazy.passes (m := { m with lastAccounting := newTime }) ?_
        (Nat.lt_of_succ_lt hdue.1) ACCOUNTING_SHIFTS
      exact h.frame (fun _ => rfl) (fun _ _ => rfl) rfl h.cached
    · intro p hp
      cases hp
  simp only [accountCalls, List.mem_flatMap, forall_exists_index, and_imp]
  constructor
  · intro hall p hp
    exact (passCalls_allocated_iff (hpasses p hp)).mp fun call hcall => hall call p hp hcall
  · intro hready call p hp hcall
    exact (passCalls_allocated_iff (hpasses p hp)).mpr (hready p hp) call hcall

/-! ## One operation -/

/-- The scheduler of `core` is used: created if need be, and its jobs counted. -/
theorem Lazy.use (h : Lazy used m) {s : Scheduler} {counts : Nat → ULong} {lastMin cd : Nat}
    (hcounts : ∀ c, c ≠ core → counts c = m.jobcounts c)
    (hcached : 0 < cd → lastMin < m.nprocs) :
    Lazy (core :: used) { m.setScheduler core s with
      jobcounts := counts, lastMin := lastMin, lastMinCd := cd } where
  allocated := by
    intro c
    rw [List.mem_cons, ← h.allocated c]
    by_cases hc : c = core
    · subst hc
      simp [setScheduler]
    · simp [setScheduler, hc]
  idle := by
    intro c hc hsingle
    obtain ⟨hne, hc⟩ := not_or.mp (mt List.mem_cons.mpr hc)
    show counts c = 0
    rw [hcounts c hne]
    exact h.idle c hc hsingle
  first := List.mem_cons_of_mem core h.first
  cached := hcached

/-- A core is dedicated, or is not any more. -/
theorem Lazy.dedicate (h : Lazy used m) {pid count : ULong} (hidle : pid = 0 → count = 0) :
    Lazy used { m with
      singleJobs := Function.update m.singleJobs core pid
      jobcounts := Function.update m.jobcounts core count } where
  allocated := h.allocated
  idle := by
    intro c hc hsingle
    dsimp only at hsingle ⊢
    by_cases hcc : c = core
    · subst hcc
      rw [Function.update_self] at hsingle ⊢
      exact hidle hsingle
    · rw [Function.update_of_ne hcc] at hsingle ⊢
      exact h.idle c hc hsingle
  first := h.first
  cached := h.cached

theorem Lazy.scheduleShared (h : Lazy used m) {ptr pid : ULong} {prio : SchedulerPriority}
    (hs : m.scheduleShared cfg ptr pid prio = some m') :
    ∃ m₁ target, m.selectCoreLeastLoad = some (m₁, target) ∧ Lazy (target :: used) m' := by
  simp only [Master.scheduleShared, Option.bind_eq_bind, Option.bind_eq_some_iff] at hs
  obtain ⟨⟨m₁, target⟩, hleast, s, -, hs⟩ := hs
  refine ⟨m₁, target, hleast, ?_⟩
  obtain ⟨hlt, hcached, cd, rfl⟩ := selectCoreLeastLoad_spec h.cached hleast
  rw [schedulerForCore_set] at hs
  cases hs
  exact h.use (fun c hc => Function.update_of_ne hc _ _) fun _ => hlt

theorem Lazy.selectOn (h : Lazy used m) {job job' : SchedulerJob}
    (hs : m.selectOn cfg core job = some (m', job')) :
    Lazy ((if m.singleJobs core = 0 then [core] else []) ++ used) m' := by
  unfold Master.selectOn at hs
  split at hs
  · rename_i hsingle
    cases hs
    rw [if_neg hsingle]
    exact h
  · rename_i hsingle
    rw [if_pos (not_not.mp hsingle)]
    simp only [doselect, Option.bind_eq_bind, Option.bind_eq_some_iff] at hs
    obtain ⟨⟨s, job₁⟩, -, hs⟩ := hs
    rw [schedulerForCore_set] at hs
    cases hs
    exact h.use (fun _ _ => rfl) h.cached

theorem Lazy.reschedule (h : Lazy used m) {job : SchedulerJob}
    (hs : m.masterSchedReschedule cfg core job = some m') :
    Lazy ((if m.singleJobs core = 0 then [core] else []) ++ used) m' := by
  unfold masterSchedReschedule at hs
  split at hs
  · rename_i hsingle
    rw [if_pos hsingle]
    simp only [Option.bind_eq_bind, Option.bind_eq_some_iff] at hs
    obtain ⟨s, -, hs⟩ := hs
    rw [schedulerForCore_set] at hs
    cases hs
    exact h.use (fun _ _ => rfl) h.cached
  · rename_i hsingle
    cases hs
    rw [if_neg hsingle]
    exact h

theorem Lazy.unschedule (h : Lazy used m) {job : SchedulerJob}
    (hs : m.masterSchedUnschedule cfg core job = some m') :
    Lazy ((if m.singleJobs core = 0 then [core] else []) ++ used) m' := by
  unfold masterSchedUnschedule at hs
  split at hs
  · rename_i hsingle
    cases hs
    rw [if_neg hsingle]
    exact h.dedicate fun _ => rfl
  · rename_i hsingle
    rw [if_pos (not_not.mp hsingle)]
    simp only [Option.bind_eq_bind, Option.bind_eq_some_iff] at hs
    obtain ⟨s, -, hs⟩ := hs
    rw [schedulerForCore_set] at hs
    cases hs
    refine h.use (fun c hc => ?_) h.cached
    rw [Function.update_of_ne hc]
    rfl

/-! ## Runs -/

/-- A client with the cores for which `scheduler_for_core` was called, and core 0. -/
structure Tracked where
  client : Client
  used : List Nat

namespace Tracked

/-- The cores for which the operation calls `scheduler_for_core`. -/
def coresUsed (m : Master) : Op → List Nat
  | .schedule _ _ prio =>
    if prio = .titanic ∧ m.selectCoreUnused.isSome then []
    else (m.selectCoreLeastLoad.map Prod.snd).toList
  | .select core _ _ _ => if m.singleJobs core = 0 then [core] else []
  | .reschedule core _ _ => if m.singleJobs core = 0 then [core] else []
  | .unschedule core _ _ => if m.singleJobs core = 0 then [core] else []
  | .leastLoad => []
  | .hoist _ _ _ => []

def start (cfg : Config) (procs : Nat) (prim sec : Int) : Tracked :=
  ⟨Client.start cfg procs prim sec, [0]⟩

def step (cfg : Config) (s : Tracked) (op : Op) : Option Tracked :=
  (s.client.step cfg op).map fun client => ⟨client, coresUsed s.client.master op ++ s.used⟩

/-- The cores of every `job_hoist` that the accounting reaches have schedulers. -/
def HoistsAllocated (cfg : Config) (s : Tracked) : Op → Prop
  | .select core _ newTime ptrs => core < s.client.master.nprocs →
    ∀ call ∈ s.client.master.accountCalls cfg newTime ptrs, call.Allocated
  | _ => True

/-- In every pass of the accounting the least loaded core was used before, or has no fewer
jobs than the most loaded one. -/
def PassesReady (cfg : Config) (s : Tracked) : Op → Prop
  | .select core _ newTime ptrs => core < s.client.master.nprocs →
    ∀ p ∈ s.client.master.accountPasses cfg newTime ptrs, Ready s.used p.1
  | _ => True

variable {s t : Tracked} {op : Op} {ops : List Op}

/-- Keeping track of the cores changes nothing. -/
theorem run_client : (run (step cfg) s ops).map Tracked.client =
    run (Client.step cfg) s.client ops := by
  apply run_ghost
  intro s op
  rw [step, Option.map_map]
  exact Option.map_id'

theorem schedule_lazy {m : Master} {ptr pid : ULong} {prio : SchedulerPriority}
    (h : Lazy s.used s.client.master) (h0 : pid ≠ 0)
    (hs : s.client.master.masterSchedSchedule cfg ptr pid prio = some m) :
    Lazy (coresUsed s.client.master (.schedule ptr pid prio) ++ s.used) m := by
  rcases masterSchedSchedule_cases hs with ⟨hprio, core, hunused, rfl⟩ | ⟨hshared, hs⟩
  · rw [coresUsed, if_pos ⟨hprio, by rw [hunused]; rfl⟩]
    exact h.dedicate fun hpid => absurd hpid h0
  · obtain ⟨m₁, target, hleast, hlazy⟩ := h.scheduleShared hs
    rw [coresUsed, if_neg hshared, hleast]
    exact hlazy

theorem step_lazy (h : Lazy s.used s.client.master) (hs : step cfg s op = some t) :
    Lazy t.used t.client.master := by
  obtain ⟨client, hclient, rfl⟩ := Option.map_eq_some_iff.mp hs
  have hkept := keptByAccounting_lazy cfg s.used s.client.master
  cases Client.step_calls hclient with
  | schedule h0 _ hm => exact schedule_lazy h h0 hm
  | select _ hacc hsel =>
    obtain ⟨h₁, -, hsingle⟩ := hkept.account ⟨h, rfl, rfl⟩ hacc
    have hlazy := h₁.selectOn hsel
    rw [hsingle] at hlazy
    exact hlazy
  | reschedule _ _ _ hm => exact h.reschedule hm
  | unschedule _ _ _ hm => exact h.unschedule hm
  | leastLoad hm => exact (hkept.leastLoad ⟨h, rfl, rfl⟩ hm).1.1
  | hoist hsrc hdst hne hm => exact (hkept.hoist _ _ _ _ _ ⟨h, rfl, rfl⟩ hsrc hdst hne hm).1

/-- In a run all hoists of the accounting work on schedulers that are there if and only if
in every pass the core chosen as the least loaded one was used before, or has no fewer jobs
than the most loaded one. -/
theorem hoists_allocated_iff (cfg : Config) (procs : Nat) (prim sec : Int) (ops : List Op) :
    Throughout (step cfg) (HoistsAllocated cfg) (start cfg procs prim sec) ops ↔
      Throughout (step cfg) (PassesReady cfg) (start cfg procs prim sec) ops := by
  refine throughout_iff_of_invariant (I := fun s => Lazy s.used s.client.master)
    (init_lazy cfg procs prim sec) ?_ fun s op t h _ hs => step_lazy h hs
  intro s op h
  cases op with
  | select core job newTime ptrs => exact imp_congr_right fun _ => accountCalls_allocated_iff h
  | schedule ptr pid prio => exact Iff.rfl
  | reschedule core granted job => exact Iff.rfl
  | unschedule core granted job => exact Iff.rfl
  | leastLoad => exact Iff.rfl
  | hoist src dst ptr => exact Iff.rfl

/-- Three jobs go to core 0. Its first select finds core 1 idle and without a scheduler. -/
theorem hoist_before_first_select : ¬ ∀ (cfg : Config) (procs : Nat) (prim sec : Int)
    (ops : List Op),
    Throughout (step cfg) (HoistsAllocated cfg) (start cfg procs prim sec) ops := by
  intro h
  have hall := h .defaultProfile 2 YARNS_SCHEDULER_ROUND_ROBIN YARNS_SCHEDULER_ROUND_ROBIN
    [.schedule 4096 7 .normal, .schedule 8192 8 .normal, .schedule 12288 9 .normal,
      .select 0 .blank 5000001 fun _ => [16384]]
  obtain ⟨-, h₁⟩ := hall
  obtain ⟨-, h₂⟩ := h₁ _ rfl
  obtain ⟨-, h₃⟩ := h₂ _ rfl
  obtain ⟨hselect, -⟩ := h₃ _ rfl
  have hdst := (hselect (by decide) _ List.mem_cons_self).2
  cases hdst

end Tracked

end Yarns.Master
