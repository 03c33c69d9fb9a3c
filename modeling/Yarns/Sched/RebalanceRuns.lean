import Yarns.Sched.Rebalance

/-!
# Rebalancing in every reachable state

The schedulers keep their books in every run of the client, also where a core is dedicated
a second time: the jobs that were selected from the scheduler of a core are among those out
there that carry scheduler data. So the condition of `rebalances_iff` is exact in every
reachable state.
-/

namespace Yarns.Master

open Base

/-- Every scheduler keeps the books of the jobs `out` of its core. -/
structure Keeping (out : Nat → List SchedulerJob) (m : Master) : Prop where
  keeps : ∀ c s, m.schedulers c = some s → s.Keeps (out c)
  idle : ∀ c, m.schedulers c = none → out c = []
  cached : m.Cached

variable {cfg : Config} {m m' : Master} {src dst core : Nat} {ptr pid newTime : ULong}
  {prio : SchedulerPriority} {ptrs : Nat → List ULong} {job job' g : SchedulerJob}
  {out out' : Nat → List SchedulerJob} {s : Scheduler} {jobs : List SchedulerJob}

theorem init_keeping (cfg : Config) (procs : Nat) (prim sec : Int) :
    Keeping (fun _ => []) (masterSchedInit cfg procs prim sec) where
  keeps := by
    intro c s hs
    by_cases hc : c = 0
    · subst hc
      obtain rfl := Option.some.inj hs
      exact Scheduler.allocate_keeps cfg prim
    · simp [masterSchedInit, hc] at hs
  idle := fun _ _ => rfl
  cached := fun h => absurd h (Nat.lt_irrefl 0)

/-- Jobs that are forgotten do no harm. -/
theorem Keeping.subperm (h : Keeping out m) (hsub : ∀ c, (out' c).Subperm (out c)) :
    Keeping out' m where
  keeps := fun c s hs => (h.keeps c s hs).subperm (hsub c)
  idle := by
    intro c hc
    have hnil := hsub c
    rw [h.idle c hc] at hnil
    exact List.subperm_nil.mp hnil
  cached := h.cached

/-- The scheduler of a core is replaced, with its jobs. -/
theorem Keeping.set (h : Keeping out m) (hs : s.Keeps jobs) :
    Keeping (Function.update out core jobs) (m.setScheduler core s) where
  keeps := by
    intro c t ht
    by_cases hc : c = core
    · subst hc
      rw [schedulers_setScheduler] at ht
      rw [Function.update_self, ← Option.some.inj ht]
      exact hs
    · rw [schedulers_setScheduler_of_ne hc] at ht
      rw [Function.update_of_ne hc]
      exact h.keeps c t ht
  idle := by
    intro c hn
    by_cases hc : c = core
    · subst hc
      rw [schedulers_setScheduler] at hn
      cases hn
    · rw [schedulers_setScheduler_of_ne hc] at hn
      rw [Function.update_of_ne hc]
      exact h.idle c hn
  cached := h.cached

theorem Keeping.congr (h : Keeping out m) (hm : m'.schedulers = m.schedulers)
    (hcached : m'.Cached) : Keeping out m' where
  keeps := fun c s hs => h.keeps c s (hm ▸ hs)
  idle := fun c hc => h.idle c (hm ▸ hc)
  cached := hcached

/-- The scheduler that `scheduler_for_core` returns. -/
theorem Keeping.forCore (h : Keeping out m) (cfg : Config) (core : Nat) :
    (m.schedulerForCore cfg core).2.Keeps (out core) := by
  unfold schedulerForCore
  cases hs : m.schedulers core with
  | some s => exact h.keeps core s hs
  | none =>
    rw [h.idle core hs]
    exact Scheduler.allocate_keeps cfg _

theorem Keeping.hoist (h : Keeping out m) (hne : src ≠ dst)
    (hs : m.jobHoist cfg src dst ptr = some m') : Keeping out m' := by
  cases hsrc : m.schedulers src with
  | none =>
    rw [jobHoist, hsrc] at hs
    cases hs
  | some s =>
    rcases jobHoist_cases hne hsrc (h.keeps src s hsrc) (h.keeps dst) hs with
      ⟨-, s', rfl, hs', -⟩ | ⟨s', t, t', pid, prio, ht, -, hs', ht', hkeeps, hkeeps', -, hmoves⟩
    · have h' : Keeping _ (m.setScheduler src s') := h.set hs'
      rwa [Function.update_eq_self] at h'
    · have h' : Keeping (Function.update (Function.update out src (out src)) dst (out dst))
          ((m.setScheduler src s').setScheduler dst t') := (h.set hkeeps).set hkeeps'
      rw [Function.update_eq_self, Function.update_eq_self] at h'
      obtain ⟨-, -, hm'⟩ := jobHoist_frame hs
      refine h'.congr (funext fun c => ?_) (by rw [hm']; exact h.cached)
      by_cases hcd : c = dst
      · rw [hcd, ht', schedulers_setScheduler]
      · rw [schedulers_setScheduler_of_ne hcd]
        by_cases hcs : c = src
        · rw [hcs, hs', schedulers_setScheduler]
        · rw [schedulers_setScheduler_of_ne hcs, hmoves.others c hcs hcd]

theorem keptByAccounting_keeping (cfg : Config) (out : Nat → List SchedulerJob) (m : Master) :
    KeptByAccounting cfg m.nprocs fun m' =>
      Keeping out m' ∧ m'.nprocs = m.nprocs ∧ m'.singleJobs = m.singleJobs where
  cached := fun m' h => ⟨h.2.1, h.1.cached⟩
  fields := by
    intro m' a b c h hcached
    obtain ⟨hkeeping, hn, hsingle⟩ := h
    exact ⟨hkeeping.congr rfl fun hc => hn ▸ hcached hc, hn, hsingle⟩
  hoist := by
    intro m₁ m₂ src dst ptr h _ _ hne hs
    obtain ⟨hkeeping, hn, hsingle⟩ := h
    obtain ⟨-, -, hm⟩ := jobHoist_frame hs
    refine ⟨hkeeping.hoist hne hs, ?_, ?_⟩
    · rw [hm]
      exact hn
    · rw [hm]
      exact hsingle

/-! ## One call on a core -/

theorem Keeping.scheduleShared (h : Keeping out m) (h0 : pid ≠ 0)
    (hs : m.scheduleShared cfg ptr pid prio = some m') : Keeping out m' := by
  simp only [Master.scheduleShared, Option.bind_eq_bind, Option.bind_eq_some_iff] at hs
  obtain ⟨⟨m₁, target⟩, hleast, s', hsched, hs⟩ := hs
  obtain ⟨hlt, hcached, cd, rfl⟩ := selectCoreLeastLoad_spec h.cached hleast
  have h₁ : Keeping out { m with lastMin := target, lastMinCd := cd } := h.congr rfl hcached
  have hset : Keeping (Function.update out target (out target)) (setScheduler _ target s') :=
    h₁.set ((h₁.forCore cfg target).schedule h0 hsched)
  rw [Function.update_eq_self] at hset
  rw [schedulerForCore_set] at hs
  cases hs
  exact hset.congr rfl hcached

theorem Keeping.doselect (h : Keeping out m) (hs : m.doselect cfg core job = some (m', job')) :
    (job'.pid = 0 ∧ Keeping out m') ∨
      (job'.pid ≠ 0 ∧ Keeping (Function.update out core (job' :: out core)) m') := by
  simp only [Master.doselect, Option.bind_eq_bind, Option.bind_eq_some_iff] at hs
  obtain ⟨⟨s', job₁⟩, hsel, hs⟩ := hs
  rw [schedulerForCore_set] at hs
  cases hs
  rcases (h.forCore cfg core).select hsel with ⟨hpid, hkeeps⟩ | ⟨hpid, hkeeps⟩
  · have hset : Keeping _ (m.setScheduler core s') := h.set hkeeps
    rw [Function.update_eq_self] at hset
    exact Or.inl ⟨hpid, hset⟩
  · exact Or.inr ⟨hpid, h.set hkeeps⟩

/-- A job comes back to its core, or to a scheduler that does not know it. -/
theorem Keeping.reschedule (h : Keeping out m) (hsingle : m.singleJobs core = 0)
    (hpid : job.pid = g.pid) (hdata : job.data = g.data) (h0 : g.pid ≠ 0)
    (hg : g.data ≠ 0 → (out core).Perm (g :: jobs)) (hnull : g.data = 0 → (out core).Perm jobs)
    (hs : m.masterSchedReschedule cfg core job = some m') :
    Keeping (Function.update out core jobs) m' := by
  simp only [masterSchedReschedule, if_pos hsingle, Option.bind_eq_bind,
    Option.bind_eq_some_iff] at hs
  obtain ⟨s', hresched, hs⟩ := hs
  rw [schedulerForCore_set] at hs
  cases hs
  have hkeeps := h.forCore cfg core
  by_cases hz : g.data = 0
  · have hkeeps := hkeeps.subperm (hnull hz).symm.subperm
    exact h.set (hkeeps.reschedule_null (hdata.trans hz) (hpid ▸ h0) hresched)
  · exact h.set ((hkeeps.subperm (hg hz).symm.subperm).reschedule hpid hdata h0 hresched)

theorem Keeping.unschedule (h : Keeping out m) (hsingle : m.singleJobs core = 0)
    (hpid : job.pid = g.pid) (hdata : job.data = g.data) (h0 : g.pid ≠ 0)
    (hg : g.data ≠ 0 → (out core).Perm (g :: jobs)) (hnull : g.data = 0 → (out core).Perm jobs)
    (hs : m.masterSchedUnschedule cfg core job = some m') :
    Keeping (Function.update out core jobs) m' := by
  simp only [masterSchedUnschedule, hsingle, ne_eq, not_true_eq_false, if_false,
    Option.bind_eq_bind, Option.bind_eq_some_iff] at hs
  obtain ⟨s', hunsched, hs⟩ := hs
  rw [schedulerForCore_set] at hs
  cases hs
  have hkeeps := h.forCore cfg core
  refine Keeping.congr (m := m.setScheduler core s') ?_ rfl h.cached
  by_cases hz : g.data = 0
  · have hkeeps := hkeeps.subperm (hnull hz).symm.subperm
    exact h.set (hkeeps.unschedule_null (hdata.trans hz) hunsched)
  · exact h.set ((hkeeps.subperm (hg hz).symm.subperm).unschedule hpid hdata h0 hunsched)

/-! ## The client -/

namespace Client

/-- The jobs out on a core that carry scheduler data. -/
def carrying (st : Client) (core : Nat) : List SchedulerJob :=
  (st.out core).filter fun g => g.data ≠ 0

structure Kept (st : Client) : Prop where
  keeping : Keeping st.carrying st.master
  nonzero : ∀ c, ∀ g ∈ st.out c, g.pid ≠ 0

variable {st st' : Client} {op : Op} {procs : Nat} {prim sec : Int} {ops : List Op}
  {target : Nat} {addrs : List ULong}

theorem start_kept (cfg : Config) (procs : Nat) (prim sec : Int) :
    Kept (start cfg procs prim sec) where
  keeping := init_keeping cfg procs prim sec
  nonzero := fun _ _ hg => (by cases hg)

theorem carrying_update (m : Master) (live : List (ULong × SchedulerPriority)) :
    carrying ⟨m, Function.update st.out core jobs, live⟩ =
      Function.update st.carrying core (jobs.filter fun g => g.data ≠ 0) := by
  funext c
  by_cases hc : c = core
  · subst hc
    simp only [carrying, Function.update_self]
  · simp only [carrying, Function.update_of_ne hc]

/-- The jobs out on one core change. -/
theorem Kept.set (h : st.Kept) {live : List (ULong × SchedulerPriority)}
    (hm : Keeping (Function.update st.carrying core (jobs.filter fun g => g.data ≠ 0)) m)
    (hjobs : ∀ g ∈ jobs, g.pid ≠ 0) : Kept ⟨m, Function.update st.out core jobs, live⟩ where
  keeping := by
    rw [carrying_update]
    exact hm
  nonzero := by
    intro c g hg
    by_cases hc : c = core
    · subst hc
      dsimp only at hg
      rw [Function.update_self] at hg
      exact hjobs g hg
    · dsimp only at hg
      rw [Function.update_of_ne hc] at hg
      exact h.nonzero c g hg

/-- Jobs on one core are forgotten. -/
theorem Kept.forget (h : st.Kept) {live : List (ULong × SchedulerPriority)}
    (hm : Keeping st.carrying m) (hsub : jobs.Sublist (st.out core)) :
    Kept ⟨m, Function.update st.out core jobs, live⟩ := by
  refine h.set (hm.subperm fun c => ?_) fun g hg => h.nonzero core g (hsub.subset hg)
  by_cases hc : c = core
  · subst hc
    rw [Function.update_self]
    exact (hsub.filter _).subperm
  · rw [Function.update_of_ne hc]

/-- The jobs with scheduler data without one that is out. -/
theorem carrying_perm (hg : g ∈ st.out core) :
    (g.data ≠ 0 → (st.carrying core).Perm
      (g :: ((st.out core).erase g).filter fun g => g.data ≠ 0)) ∧
    (g.data = 0 → (st.carrying core).Perm
      (((st.out core).erase g).filter fun g => g.data ≠ 0)) := by
  have hp := (List.perm_cons_erase hg).filter fun g => decide (g.data ≠ 0)
  constructor
  · intro hdata
    rwa [List.filter_cons_of_pos (by simpa using hdata)] at hp
  · intro hdata
    rwa [List.filter_cons_of_neg (by simpa using hdata)] at hp

theorem Kept.selectOn (h : st.Kept) (hs : st.master.selectOn cfg core job = some (m, job')) :
    Kept { st with
      master := m
      out := if job'.pid = 0 then st.out else
        Function.update st.out core (job' :: st.out core) } := by
  by_cases hsingle : st.master.singleJobs core = 0
  · rw [Master.selectOn, if_neg (not_not_intro hsingle)] at hs
    rcases h.keeping.doselect hs with ⟨hpid, hkeeping⟩ | ⟨hpid, hkeeping⟩
    · rw [if_pos hpid]
      exact ⟨hkeeping, h.nonzero⟩
    · rw [if_neg hpid]
      refine h.set (hkeeping.subperm fun c => ?_) fun g hg => ?_
      · by_cases hc : c = core
        · subst hc
          rw [Function.update_self, Function.update_self]
          by_cases hdata : job'.data = 0
          · rw [List.filter_cons_of_neg (by simpa using hdata)]
            exact (List.sublist_cons_self ..).subperm
          · rw [List.filter_cons_of_pos (by simpa using hdata)]
            exact List.Subperm.refl _
        · rw [Function.update_of_ne hc, Function.update_of_ne hc]
      · rcases List.mem_cons.mp hg with rfl | hg
        · exact hpid
        · exact h.nonzero core g hg
  · rw [Master.selectOn, if_pos hsingle] at hs
    cases hs
    rw [if_neg hsingle]
    -- the dedicated job carries no scheduler data
    refine h.set ?_ fun g hg => ?_
    · rw [List.filter_cons_of_neg (by simp)]
      show Keeping (Function.update st.carrying core (st.carrying core)) st.master
      rw [Function.update_eq_self]
      exact h.keeping
    · rcases List.mem_cons.mp hg with rfl | hg
      · exact hsingle
      · exact h.nonzero core g hg

theorem Kept.reschedule (h : st.Kept) (hg : g ∈ st.out core) (hret : job.Returns g)
    (hs : st.master.masterSchedReschedule cfg core job = some m) :
    Kept { st with
      master := m
      out := Function.update st.out core ((st.out core).erase g) } := by
  obtain ⟨hpid, hdata, -⟩ := hret
  by_cases hsingle : st.master.singleJobs core = 0
  · obtain ⟨hcarry, hnull⟩ := carrying_perm hg
    exact h.set (h.keeping.reschedule hsingle hpid hdata (h.nonzero core g hg) hcarry hnull hs)
      fun g' hg' => h.nonzero core g' (List.mem_of_mem_erase hg')
  · rw [masterSchedReschedule, if_neg hsingle] at hs
    cases hs
    exact h.forget h.keeping List.erase_sublist

theorem Kept.unschedule (h : st.Kept) (hg : g ∈ st.out core) (hret : job.Returns g)
    {live : List (ULong × SchedulerPriority)}
    (hs : st.master.masterSchedUnschedule cfg core job = some m) :
    Kept ⟨m, Function.update st.out core ((st.out core).filter fun g' => g'.pid ≠ g.pid),
      live⟩ := by
  obtain ⟨hpid, hdata, -⟩ := hret
  by_cases hsingle : st.master.singleJobs core = 0
  · obtain ⟨hcarry, hnull⟩ := carrying_perm hg
    have hkeeping := h.keeping.unschedule hsingle hpid hdata (h.nonzero core g hg) hcarry hnull hs
    refine h.set (hkeeping.subperm fun c => ?_) fun g' hg' =>
      h.nonzero core g' (List.mem_of_mem_filter hg')
    by_cases hc : c = core
    · subst hc
      rw [Function.update_self, Function.update_self]
      -- the job itself goes, and any other one with its pid
      have hp := (List.perm_cons_erase hg).filter fun g' => decide (g'.pid ≠ g.pid)
      rw [List.filter_cons_of_neg (by simp)] at hp
      exact ((hp.filter _).subperm).trans ((List.filter_sublist.filter _).subperm)
    · rw [Function.update_of_ne hc, Function.update_of_ne hc]
  · rw [masterSchedUnschedule, if_pos hsingle] at hs
    cases hs
    exact h.forget (h.keeping.congr rfl h.keeping.cached) List.filter_sublist

theorem step_kept (h : st.Kept) (hs : st.step cfg op = some st') : st'.Kept := by
  have hkept := keptByAccounting_keeping cfg st.carrying st.master
  cases step_calls hs with
  | schedule h0 _ hm =>
    refine ⟨?_, h.nonzero⟩
    rcases masterSchedSchedule_cases hm with ⟨-, core, -, rfl⟩ | ⟨-, hm⟩
    · exact h.keeping.congr rfl h.keeping.cached
    · exact h.keeping.scheduleShared h0 hm
  | @select core job newTime ptrs m₁ m job' _ hacc hsel =>
    obtain ⟨hkeeping, -⟩ := hkept.account ⟨h.keeping, rfl, rfl⟩ hacc
    have h₁ : Kept { st with master := m₁ } := ⟨hkeeping, h.nonzero⟩
    exact h₁.selectOn hsel
  | reschedule _ hg hret hm => exact h.reschedule hg hret hm
  | unschedule _ hg hret hm => exact h.unschedule hg hret hm
  | leastLoad hm =>
    obtain ⟨⟨hkeeping, -⟩, -⟩ := hkept.leastLoad ⟨h.keeping, rfl, rfl⟩ hm
    exact ⟨hkeeping, h.nonzero⟩
  | hoist _ _ hne hm => exact ⟨h.keeping.hoist hne hm, h.nonzero⟩

theorem reachable_kept (hrun : run (step cfg) (start cfg procs prim sec) ops = some st) :
    st.Kept :=
  reachable_invariant (start_kept cfg procs prim sec) (fun _ _ _ h hs => step_kept h hs)
    ⟨ops, hrun⟩

/-- In every reachable state `rebalance` ends with balanced counters, each iteration moving
one job, if and only if the target has a scheduler and the source gives away as many jobs as
the counters ask for, or the source has no more jobs than the target. Otherwise it does not
end at all. -/
theorem rebalance_iff (hrun : run (step cfg) (start cfg procs prim sec) ops = some st)
    (hne : src ≠ target) (hfresh : st.master.FreshFor target addrs)
    (hlen : st.master.needed src target ≤ addrs.length) :
    (Rebalances cfg src target st.master addrs ↔ st.master.Suffices cfg src target) ∧
      (¬ st.master.Suffices cfg src target →
        ∀ ptrs, st.master.rebalance cfg src target ptrs = none) := by
  have hkeeping := (reachable_kept hrun).keeping
  refine ⟨rebalances_iff hne (hkeeping.keeps src) (hkeeping.keeps target) hfresh hlen, ?_⟩
  intro hshort ptrs
  rw [rebalance, if_neg hne]
  exact hoistLoop_none hne (hkeeping.keeps src) (hkeeping.keeps target) hshort

/-- Three jobs on core 0, all queued, and a scheduler on core 1. -/
def threeQueued : List Op :=
  [.schedule 4096 7 .normal, .schedule 8192 8 .normal, .schedule 12288 9 .normal,
    .select 1 .blank 1 fun _ => []]

theorem rebalance_iff_threeQueued : ∃ st,
    run (step .defaultProfile) (start .defaultProfile 2 YARNS_SCHEDULER_ROTATING_STAIRCASE
      YARNS_SCHEDULER_ROUND_ROBIN) threeQueued = some st ∧
    Rebalances .defaultProfile 0 1 st.master [16384, 20480] := by
  obtain ⟨st, hst, hsuff, hfresh, hlen⟩ : ∃ st,
      run (step .defaultProfile) (start .defaultProfile 2 YARNS_SCHEDULER_ROTATING_STAIRCASE
        YARNS_SCHEDULER_ROUND_ROBIN) threeQueued = some st ∧
      st.master.Suffices .defaultProfile 0 1 ∧ st.master.FreshFor 1 [16384, 20480] ∧
      st.master.needed 0 1 ≤ 2 := by
    refine ⟨_, rfl, fun _ => ⟨rfl, by decide +kernel⟩, ⟨by decide, ?_⟩, by decide +kernel⟩
    intro ptr hptr
    have hne : ∀ ptr ∈ ([16384, 20480] : List ULong), ptr ≠ 0 ∧ ptr ≠ 1 := by simp
    refine ⟨(hne ptr hptr).1, (hne ptr hptr).2, fun s hs => ?_⟩
    cases hs
    exact id
  exact ⟨st, hst, (rebalance_iff hst (by decide) hfresh hlen).1.mpr hsuff⟩

/-- One job on core 0, which is out, and a scheduler on core 1. -/
def oneOut : List Op :=
  [.schedule 4096 7 .normal, .select 1 .blank 1 fun _ => [], .select 0 .blank 2 fun _ => []]

/-- There is nothing to hoist, and the loop never ends. -/
theorem rebalance_oneOut_hangs : ¬ ∀ (cfg : Config) (procs : Nat) (prim sec : Int)
    (ops : List Op) (st : Client) (src target : Nat) (addrs : List ULong),
    run (step cfg) (start cfg procs prim sec) ops = some st → src ≠ target →
      st.master.FreshFor target addrs → st.master.needed src target ≤ addrs.length →
      Rebalances cfg src target st.master addrs := by
  intro h
  obtain ⟨st, hst, hshort, hfresh, hlen⟩ : ∃ st,
      run (step .defaultProfile) (start .defaultProfile 2 YARNS_SCHEDULER_ROUND_ROBIN
        YARNS_SCHEDULER_ROUND_ROBIN) oneOut = some st ∧
      ¬ st.master.Suffices .defaultProfile 0 1 ∧ st.master.FreshFor 1 [8192] ∧
      st.master.needed 0 1 ≤ 1 := by
    refine ⟨_, rfl, fun hsuff => ?_, ⟨by decide, ?_⟩, by decide +kernel⟩
    · exact absurd (hsuff (by decide +kernel)).2 (by decide +kernel)
    · intro ptr hptr
      rw [List.mem_singleton.mp hptr]
      refine ⟨by decide, by decide, fun s hs => ?_⟩
      cases hs
      exact id
  have hkeeping := (reachable_kept hst).keeping
  exact hshort ((rebalances_iff (by decide) (hkeeping.keeps 0) (hkeeping.keeps 1) hfresh hlen).mp
    (h _ _ _ _ _ st 0 1 [8192] hst (by decide) hfresh hlen))

end Client

end Yarns.Master
