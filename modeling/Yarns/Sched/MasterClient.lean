import Yarns.Base.Run
import Yarns.Sched.Master

/-!
# A client of the master scheduler

What `lib/yarn.c` does with the master scheduler, as far as the schedulers can tell: it
schedules fresh non-zero pids, selects on the cores, and returns a selected job at most
once, on the core it was selected on and with at most the granted runtime. The parts of
a call that other cores can observe on their own, one choice of the least loaded core
and one `job_hoist`, are also steps.

`Client.Inv` places every live pid at exactly one core: queued there, out of its
scheduler, or its dedicated job. The invariant is kept by every step except the
dedication of a core that is dedicated already (`step_inv`). As long as no job is
`TITANIC`, the counters count what a core holds.
-/

namespace Yarns.Master

open Base

structure Client where
  master : Master
  out : Nat → List SchedulerJob
  live : List (ULong × SchedulerPriority)

inductive Op where
  | schedule (ptr pid : ULong) (prio : SchedulerPriority)
  | select (core : Nat) (job : SchedulerJob) (newTime : ULong) (ptrs : Nat → List ULong)
  | reschedule (core : Nat) (granted job : SchedulerJob)
  | unschedule (core : Nat) (granted job : SchedulerJob)
  | leastLoad
  | hoist (src dst : Nat) (ptr : ULong)

namespace Client

def start (cfg : Config) (procs : Nat) (prim sec : Int) : Client :=
  ⟨masterSchedInit cfg procs prim sec, fun _ => [], []⟩

def pids (st : Client) : List ULong := st.live.map Prod.fst

variable (cfg : Config)

def step (st : Client) : Op → Option Client
  | .schedule ptr pid prio =>
    if pid = 0 ∨ pid ∈ st.pids then none else do
      let master ← st.master.masterSchedSchedule cfg ptr pid prio
      some { st with master, live := (pid, prio) :: st.live }
  | .select core job newTime ptrs =>
    if core < st.master.nprocs then do
      let (master, job') ← st.master.masterSchedSelect cfg core job newTime ptrs
      let out := Function.update st.out core (job' :: st.out core)
      some { st with master, out := if job'.pid = 0 then st.out else out }
    else none
  | .reschedule core granted job =>
    if core < st.master.nprocs ∧ granted ∈ st.out core ∧ job.Returns granted then do
      let master ← st.master.masterSchedReschedule cfg core job
      some { st with master, out := Function.update st.out core ((st.out core).erase granted) }
    else none
  | .unschedule core granted job =>
    if core < st.master.nprocs ∧ granted ∈ st.out core ∧ job.Returns granted then do
      let master ← st.master.masterSchedUnschedule cfg core job
      let out := (st.out core).filter fun g => g.pid ≠ granted.pid
      let live := st.live.filter fun l => l.1 ≠ granted.pid
      some ⟨master, Function.update st.out core out, live⟩
    else none
  | .leastLoad => do
    let (master, _) ← st.master.selectCoreLeastLoad
    some { st with master }
  | .hoist src dst ptr =>
    if src < st.master.nprocs ∧ dst < st.master.nprocs ∧ src ≠ dst then do
      let master ← st.master.jobHoist cfg src dst ptr
      some { st with master }
    else none

/-- A call with all that its guards say. -/
inductive Calls (st : Client) : Op → Client → Prop
  | schedule {ptr pid prio m} : pid ≠ 0 → pid ∉ st.pids →
    st.master.masterSchedSchedule cfg ptr pid prio = some m →
    Calls st (.schedule ptr pid prio) { st with master := m, live := (pid, prio) :: st.live }
  | select {core job newTime ptrs m₁ m job'} : core < st.master.nprocs →
    st.master.account cfg newTime ptrs = some m₁ → m₁.selectOn cfg core job = some (m, job') →
    Calls st (.select core job newTime ptrs) { st with
      master := m
      out := if job'.pid = 0 then st.out else Function.update st.out core (job' :: st.out core) }
  | reschedule {core granted job m} : core < st.master.nprocs → granted ∈ st.out core →
    job.Returns granted → st.master.masterSchedReschedule cfg core job = some m →
    Calls st (.reschedule core granted job) { st with
      master := m
      out := Function.update st.out core ((st.out core).erase granted) }
  | unschedule {core granted job m} : core < st.master.nprocs → granted ∈ st.out core →
    job.Returns granted → st.master.masterSchedUnschedule cfg core job = some m →
    Calls st (.unschedule core granted job) {
      master := m
      out := Function.update st.out core ((st.out core).filter fun g => g.pid ≠ granted.pid)
      live := st.live.filter fun l => l.1 ≠ granted.pid }
  | leastLoad {m target} : st.master.selectCoreLeastLoad = some (m, target) →
    Calls st .leastLoad { st with master := m }
  | hoist {src dst ptr m} : src < st.master.nprocs → dst < st.master.nprocs → src ≠ dst →
    st.master.jobHoist cfg src dst ptr = some m →
    Calls st (.hoist src dst ptr) { st with master := m }

variable {cfg}

theorem step_calls {st st' : Client} {op : Op} (hs : st.step cfg op = some st') :
    Calls cfg st op st' := by
  cases op with
  | schedule ptr pid prio =>
    simp only [step] at hs
    split at hs
    · cases hs
    · rename_i hpid
      obtain ⟨h0, hfresh⟩ := not_or.mp hpid
      obtain ⟨m, hm, hs⟩ := Option.bind_eq_some_iff.mp hs
      cases hs
      exact .schedule h0 hfresh hm
  | select core job newTime ptrs =>
    simp only [step] at hs
    split at hs
    · rename_i hcore
      obtain ⟨⟨m, job'⟩, hm, hs⟩ := Option.bind_eq_some_iff.mp hs
      obtain ⟨m₁, hacc, hsel⟩ := Option.bind_eq_some_iff.mp hm
      cases hs
      exact .select hcore hacc hsel
    · cases hs
  | reschedule core granted job =>
    simp only [step] at hs
    split at hs
    · rename_i hguard
      obtain ⟨hcore, hg, hret⟩ := hguard
      obtain ⟨m, hm, hs⟩ := Option.bind_eq_some_iff.mp hs
      cases hs
      exact .reschedule hcore hg hret hm
    · cases hs
  | unschedule core granted job =>
    simp only [step] at hs
    split at hs
    · rename_i hguard
      obtain ⟨hcore, hg, hret⟩ := hguard
      obtain ⟨m, hm, hs⟩ := Option.bind_eq_some_iff.mp hs
      cases hs
      exact .unschedule hcore hg hret hm
    · cases hs
  | leastLoad =>
    obtain ⟨⟨m, target⟩, hm, hs⟩ := Option.bind_eq_some_iff.mp hs
    cases hs
    exact .leastLoad hm
  | hoist src dst ptr =>
    simp only [step] at hs
    split at hs
    · rename_i hguard
      obtain ⟨hsrc, hdst, hne⟩ := hguard
      obtain ⟨m, hm, hs⟩ := Option.bind_eq_some_iff.mp hs
      cases hs
      exact .hoist hsrc hdst hne hm
    · cases hs

end Client

/-! ## Pids placed at cores, and counters -/

/-- Every pid of `pids` is at one of the first `n` cores, once. Under the assumption
`counting` the counter of a core is the number of pids at it. -/
structure Tally (counting : Prop) (n : Nat) (held : Nat → List ULong) (counts : Nat → ULong)
    (pids : List ULong) : Prop where
  placed : ((List.range n).flatMap held).Perm pids
  counted : counting → ∀ c < n, counts c = BitVec.ofNat 64 (held c).length

namespace Tally

variable {counting : Prop} {n c src dst : Nat} {held held' : Nat → List ULong}
  {counts counts' : Nat → ULong} {pids pids' : List ULong} {pid : ULong}

theorem perm (h : Tally counting n held counts pids) (hp : pids.Perm pids') :
    Tally counting n held counts pids' :=
  { h with placed := h.placed.trans hp }

theorem congr (h : Tally counting n held counts pids) (hh : ∀ c, (held c).Perm (held' c)) :
    Tally counting n held' counts pids where
  placed := (List.Perm.flatMap_left _ fun c _ => (hh c).symm).trans h.placed
  counted := by
    intro hcount c hc
    rw [h.counted hcount c hc, (hh c).length_eq]

theorem push (h : Tally counting n held counts pids) (hc : c < n)
    (hoff : ∀ d, d ≠ c → held' d = held d) (hheld : (held' c).Perm (pid :: held c))
    (hcount : counting → counts' = Function.update counts c (counts c + 1)) :
    Tally counting n held' counts' (pid :: pids) where
  placed := by
    have hp := flatMap_perm_of_off (a := []) (b := [pid]) List.nodup_range
      (List.mem_range.mpr hc) hoff (by
        rw [List.append_nil]
        exact hheld.trans (List.perm_append_singleton pid _).symm)
    rw [List.append_nil] at hp
    exact (hp.trans (List.perm_append_singleton pid _)).trans (h.placed.cons pid)
  counted := by
    intro hcounting d hd
    rw [hcount hcounting]
    by_cases hdc : d = c
    · subst hdc
      rw [Function.update_self, h.counted hcounting d hd, hheld.length_eq, List.length_cons,
        BitVec.ofNat_add]
      rfl
    · rw [Function.update_of_ne hdc, hoff d hdc, h.counted hcounting d hd]

theorem pop (h : Tally counting n held counts pids) (hc : c < n)
    (hoff : ∀ d, d ≠ c → held' d = held d) (hheld : (held c).Perm (pid :: held' c))
    (hcount : counting → counts' = Function.update counts c (counts c - 1))
    (hpids : pids.Perm (pid :: pids')) : Tally counting n held' counts' pids' where
  placed := by
    have hp := flatMap_perm_of_off (a := [pid]) (b := []) List.nodup_range
      (List.mem_range.mpr hc) hoff (by
        rw [List.append_nil]
        exact (List.perm_append_singleton pid _).trans hheld.symm)
    rw [List.append_nil] at hp
    exact (List.perm_cons pid).mp
      (((List.perm_append_singleton pid _).symm.trans hp).trans (h.placed.trans hpids))
  counted := by
    intro hcounting d hd
    rw [hcount hcounting]
    by_cases hdc : d = c
    · subst hdc
      rw [Function.update_self, h.counted hcounting d hd, hheld.length_eq, List.length_cons,
        BitVec.ofNat_add]
      exact BitVec.add_sub_cancel _ _
    · rw [Function.update_of_ne hdc, hoff d hdc, h.counted hcounting d hd]

end Tally

/-! ## The invariant -/

namespace Client

/-- The pids at core `c`: queued, and out of the scheduler or dedicated. -/
def held (st : Client) (queued : Nat → List ULong) (c : Nat) : List ULong :=
  queued c ++ if st.master.singleJobs c = 0 then (st.out c).map SchedulerJob.pid
    else [st.master.singleJobs c]

/-- The jobs that go back to a scheduler: those out on cores that are not dedicated. -/
def sharedOut (st : Client) (c : Nat) : List SchedulerJob :=
  if st.master.singleJobs c = 0 then st.out c else []

structure Inv (counting : Prop) (st : Client) (queued : Nat → List ULong) : Prop where
  books : Books st.master.schedulers queued st.sharedOut
  cached : st.master.Cached
  tally : Tally counting st.master.nprocs (st.held queued) st.master.jobcounts st.pids
  distinct : st.pids.Nodup
  nonzero : (0 : ULong) ∉ st.pids
  dedicated : ∀ c, st.master.singleJobs c ≠ 0 → ∀ g ∈ st.out c, g.pid = st.master.singleJobs c
  shared : counting → ∀ c, st.master.singleJobs c = 0

variable {cfg : Config} {counting : Prop} {st st' : Client} {m : Master} {op : Op}
  {queued : Nat → List ULong} {core src dst : Nat} {ptr pid newTime : ULong}
  {ptrs : Nat → List ULong} {prio : SchedulerPriority} {job job' g : SchedulerJob}

theorem start_inv (counting : Prop) (cfg : Config) (procs : Nat) (prim sec : Int) :
    Inv counting (start cfg procs prim sec) fun _ => [] where
  books := init_books cfg procs prim sec
  cached := fun h => absurd h (Nat.lt_irrefl 0)
  tally := by
    refine ⟨List.Perm.of_eq (List.flatMap_eq_nil_iff.mpr fun _ _ => rfl), fun _ c _ => ?_⟩
    rfl
  distinct := List.nodup_nil
  nonzero := List.not_mem_nil
  dedicated := fun c h => absurd rfl h
  shared := fun _ _ => rfl

theorem Inv.live_of_held (h : st.Inv counting queued) (hc : core < st.master.nprocs)
    (hp : pid ∈ st.held queued core) : pid ∈ st.pids :=
  h.tally.placed.subset (List.mem_flatMap.mpr ⟨core, List.mem_range.mpr hc, hp⟩)

theorem Inv.pid_ne_zero (h : st.Inv counting queued) (hc : core < st.master.nprocs)
    (hp : pid ∈ st.held queued core) : pid ≠ 0 := by
  intro h0
  exact h.nonzero (h0 ▸ h.live_of_held hc hp)

theorem held_of_shared (hs : st.master.singleJobs core = 0) :
    st.held queued core = queued core ++ (st.out core).map SchedulerJob.pid := by
  rw [held, if_pos hs]

theorem held_of_dedicated (hs : st.master.singleJobs core ≠ 0) :
    st.held queued core = queued core ++ [st.master.singleJobs core] := by
  rw [held, if_neg hs]

theorem mem_held_of_out (hs : st.master.singleJobs core = 0) (hg : g ∈ st.out core) :
    g.pid ∈ st.held queued core := by
  rw [held_of_shared hs]
  exact List.mem_append_right _ (List.mem_map_of_mem hg)

/-- A hoist only moves a queued pid. -/
theorem Inv.hoist (h : st.Inv counting queued) (hsrc : src < st.master.nprocs)
    (hdst : dst < st.master.nprocs) (hne : src ≠ dst)
    (hs : st.master.jobHoist cfg src dst ptr = some m) :
    ∃ queued', Inv counting { st with master := m } queued' ∧
      m.singleJobs = st.master.singleJobs ∧ m.nprocs = st.master.nprocs := by
  rcases jobHoist_spec h.books hne hs with ⟨hbooks, hm⟩ | ⟨pid, hpid, hbooks, hm⟩
  · rw [hm]
    exact ⟨queued, { h with books := hbooks }, rfl, rfl⟩
  · rw [hm]
    refine ⟨moveQueued queued src dst pid, { h with books := hbooks, tally := ?_ }, rfl, rfl⟩
    -- the pid leaves `src`, then it arrives at `dst`
    have hperm : st.pids.Perm (pid :: st.pids.erase pid) :=
      List.perm_cons_erase (h.live_of_held hsrc (List.mem_append_left _ hpid))
    have hpop : Tally counting st.master.nprocs
        (st.held (Function.update queued src ((queued src).erase pid)))
        (Function.update st.master.jobcounts src (st.master.jobcounts src - 1))
        (st.pids.erase pid) := by
      refine h.tally.pop hsrc (fun c hc => ?_) ?_ (fun _ => rfl) hperm
      · simp only [held, Function.update_of_ne hc]
      · simp only [held, Function.update_self]
        exact (List.perm_cons_erase hpid).append_right _
    refine (hpop.push hdst (fun c hc => ?_) ?_ fun _ => ?_).perm hperm.symm
    · simp only [held, moveQueued, Function.update_of_ne hc]
    · simp only [held, moveQueued, Function.update_self, Function.update_of_ne hne.symm,
        List.cons_append]
      exact List.Perm.refl _
    · rw [Function.update_of_ne hne.symm]

theorem keptByAccounting (cfg : Config) (counting : Prop) (st : Client) :
    KeptByAccounting cfg st.master.nprocs fun m =>
      ∃ queued', Inv counting { st with master := m } queued' ∧
        m.singleJobs = st.master.singleJobs ∧ m.nprocs = st.master.nprocs where
  cached := by
    intro m hm
    obtain ⟨queued', hinv, -, hn⟩ := hm
    exact ⟨hn, hinv.cached⟩
  fields := by
    intro m a b c hm hcached
    obtain ⟨queued', hinv, hsingle, hn⟩ := hm
    refine ⟨queued', { hinv with cached := ?_ }, hsingle, hn⟩
    intro hc
    exact hn ▸ hcached hc
  hoist := by
    intro m m' src dst ptr hm hsrc hdst hne hs
    obtain ⟨queued', hinv, hsingle, hn⟩ := hm
    rw [← hn] at hsrc hdst
    obtain ⟨queued'', hinv', hsingle', hn'⟩ := hinv.hoist hsrc hdst hne hs
    exact ⟨queued'', hinv', hsingle'.trans hsingle, hn'.trans hn⟩

theorem sharedOut_set (hm : m.singleJobs = st.master.singleJobs)
    (hs : st.master.singleJobs core = 0) (jobs : List SchedulerJob)
    (live : List (ULong × SchedulerPriority)) :
    sharedOut ⟨m, Function.update st.out core jobs, live⟩ =
      Function.update st.sharedOut core jobs := by
  funext c
  simp only [sharedOut, hm]
  by_cases hc : c = core
  · subst hc
    simp only [Function.update_self, if_pos hs]
  · simp only [Function.update_of_ne hc]
    rfl

theorem sharedOut_set_dedicated (hm : m.singleJobs = st.master.singleJobs)
    (hs : st.master.singleJobs core ≠ 0) (jobs : List SchedulerJob)
    (live : List (ULong × SchedulerPriority)) :
    sharedOut ⟨m, Function.update st.out core jobs, live⟩ = st.sharedOut := by
  funext c
  simp only [sharedOut, hm]
  by_cases hc : c = core
  · subst hc
    simp only [if_neg hs]
  · simp only [Function.update_of_ne hc]

theorem held_off (hm : m.singleJobs = st.master.singleJobs) {queued' : Nat → List ULong}
    {jobs : List SchedulerJob} {live : List (ULong × SchedulerPriority)} {c : Nat}
    (hc : c ≠ core) (hq : queued' c = queued c) :
    held ⟨m, Function.update st.out core jobs, live⟩ queued' c = st.held queued c := by
  simp only [held, hm, hq, Function.update_of_ne hc]

/-- On a dedicated core the list of outstanding jobs does not matter. -/
theorem held_dedicated (hm : m.singleJobs = st.master.singleJobs)
    (hs : st.master.singleJobs core ≠ 0) (jobs : List SchedulerJob)
    (live : List (ULong × SchedulerPriority)) :
    held ⟨m, Function.update st.out core jobs, live⟩ queued = st.held queued := by
  funext c
  by_cases hc : c = core
  · subst hc
    simp only [held, hm, if_neg hs]
  · exact held_off hm hc rfl

/-- Jobs come and go on a dedicated core: nothing changes. -/
theorem Inv.set_dedicated (h : st.Inv counting queued) (hs : st.master.singleJobs core ≠ 0)
    {jobs : List SchedulerJob} (hjobs : ∀ g ∈ jobs, g.pid = st.master.singleJobs core) :
    Inv counting { st with out := Function.update st.out core jobs } queued where
  books := by
    rw [sharedOut_set_dedicated rfl hs]
    exact h.books
  cached := h.cached
  tally := by
    rw [held_dedicated rfl hs]
    exact h.tally
  distinct := h.distinct
  nonzero := h.nonzero
  dedicated := by
    intro c hc g hg
    dsimp only at hc hg ⊢
    by_cases hcc : c = core
    · subst hcc
      rw [Function.update_self] at hg
      exact hjobs g hg
    · rw [Function.update_of_ne hcc] at hg
      exact h.dedicated c hc g hg
  shared := h.shared

/-- On a core that is not dedicated the queue and the jobs out of it change, with the
schedulers, in any way that agrees with the books and the tally. -/
theorem Inv.set_shared (h : st.Inv counting queued) (hs : st.master.singleJobs core = 0)
    (hm : m.singleJobs = st.master.singleJobs) (hn : m.nprocs = st.master.nprocs)
    (hcached : m.Cached) {queued' : Nat → List ULong} {jobs : List SchedulerJob}
    {live : List (ULong × SchedulerPriority)}
    (hbooks : Books m.schedulers queued' (Function.update st.sharedOut core jobs))
    (htally : Tally counting st.master.nprocs
      (held ⟨m, Function.update st.out core jobs, live⟩ queued') m.jobcounts
      (live.map Prod.fst))
    (hdistinct : (live.map Prod.fst).Nodup) (hnonzero : (0 : ULong) ∉ live.map Prod.fst) :
    Inv counting ⟨m, Function.update st.out core jobs, live⟩ queued' where
  books := by
    rw [sharedOut_set hm hs]
    exact hbooks
  cached := hcached
  tally := by
    rw [← hn] at htally
    exact htally
  distinct := hdistinct
  nonzero := hnonzero
  dedicated := by
    intro c hc g hg
    dsimp only at hc hg ⊢
    rw [hm] at hc ⊢
    have hcc : c ≠ core := by
      intro hcc
      exact hc (hcc ▸ hs)
    rw [Function.update_of_ne hcc] at hg
    exact h.dedicated c hc g hg
  shared := by
    intro hcounting c
    rw [hm]
    exact h.shared hcounting c

theorem Inv.selectOn (h : st.Inv counting queued) (hcore : core < st.master.nprocs)
    (hs : st.master.selectOn cfg core job = some (m, job')) :
    ∃ queued', Inv counting { st with
        master := m
        out := if job'.pid = 0 then st.out else
          Function.update st.out core (job' :: st.out core) } queued' ∧
      m.singleJobs = st.master.singleJobs := by
  by_cases hsingle : st.master.singleJobs core = 0
  · rw [Master.selectOn, if_neg (not_not_intro hsingle)] at hs
    obtain ⟨hm, hcase⟩ := doselect_spec h.books hs
    rcases hcase with ⟨hpid, hbooks⟩ | ⟨hpid, hmem, hbooks⟩
    · rw [if_pos hpid, hm]
      exact ⟨queued, { h with books := hbooks }, rfl⟩
    · rw [if_neg hpid]
      have hm' : m.singleJobs = st.master.singleJobs := by rw [hm]
      have hshared : st.sharedOut core = st.out core := if_pos hsingle
      rw [hshared] at hbooks
      refine ⟨_, h.set_shared hsingle hm' (by rw [hm]) (by rw [hm]; exact h.cached) hbooks ?_
        h.distinct h.nonzero, hm'⟩
      have hcounts : m.jobcounts = st.master.jobcounts := by rw [hm]
      rw [hcounts]
      refine h.tally.congr fun c => ?_
      by_cases hc : c = core
      · subst hc
        rw [held_of_shared hsingle, held_of_shared (by rw [hm']; exact hsingle)]
        simp only [Function.update_self, List.map_cons]
        exact ((List.perm_cons_erase hmem).append_right _).trans List.perm_middle.symm
      · rw [held_off hm' hc (Function.update_of_ne hc _ _)]
  · rw [Master.selectOn, if_pos hsingle] at hs
    cases hs
    rw [if_neg hsingle]
    refine ⟨queued, h.set_dedicated hsingle ?_, rfl⟩
    intro g hg
    rcases List.mem_cons.mp hg with rfl | hg
    · rfl
    · exact h.dedicated core hsingle g hg

theorem Inv.scheduleShared (h : st.Inv counting queued) (h0 : pid ≠ 0) (hfresh : pid ∉ st.pids)
    (hs : st.master.scheduleShared cfg ptr pid prio = some m) :
    ∃ queued', Inv counting { st with master := m, live := (pid, prio) :: st.live } queued' ∧
      m.singleJobs = st.master.singleJobs := by
  obtain ⟨target, htarget, hcached, hbooks, hm⟩ := schedule_spec h.books h.cached h0 hs
  have hsingle : m.singleJobs = st.master.singleJobs := by rw [hm]
  have hn : m.nprocs = st.master.nprocs := by rw [hm]
  have hcounts : m.jobcounts = Function.update st.master.jobcounts target
      (st.master.jobcounts target + 1) := by rw [hm]
  have hshared : sharedOut { st with master := m, live := (pid, prio) :: st.live } =
      st.sharedOut := by
    funext c
    simp only [sharedOut, hsingle]
  refine ⟨_, ⟨by rw [hshared]; exact hbooks, hcached, ?_, ?_, ?_, ?_, ?_⟩, hsingle⟩
  · dsimp only
    rw [hn]
    refine h.tally.push htarget (fun c hc => ?_) ?_ fun _ => hcounts
    · simp only [held, hsingle, Function.update_of_ne hc]
    · simp only [held, hsingle, Function.update_self, List.cons_append]
      exact List.Perm.refl _
  · exact List.nodup_cons.mpr ⟨hfresh, h.distinct⟩
  · intro hm
    rcases List.mem_cons.mp hm with hz | hm
    · exact h0 hz.symm
    · exact h.nonzero hm
  · intro c hc g hg
    dsimp only at hc hg ⊢
    rw [hsingle] at hc ⊢
    exact h.dedicated c hc g hg
  · intro hcounting c
    dsimp only
    rw [hsingle]
    exact h.shared hcounting c

/-- Dedicating a core that has neither a scheduler nor a dedicated job. -/
theorem Inv.dedicate (h : st.Inv counting queued) (hcounting : ¬ counting) (h0 : pid ≠ 0)
    (hfresh : pid ∉ st.pids) (hcore : core < st.master.nprocs)
    (hnone : st.master.schedulers core = none) (hsingle : st.master.singleJobs core = 0) :
    Inv counting { st with
      master := st.master.dedicate core pid
      live := (pid, prio) :: st.live } queued := by
  obtain ⟨hout, hqueued⟩ := h.books.idle core hnone
  rw [sharedOut, if_pos hsingle] at hout
  have hshared : sharedOut { st with
      master := st.master.dedicate core pid
      live := (pid, prio) :: st.live } = st.sharedOut := by
    funext c
    by_cases hc : c = core
    · subst hc
      simp only [sharedOut, Master.dedicate, Function.update_self, if_neg h0, if_pos hsingle, hout]
    · simp only [sharedOut, Master.dedicate, Function.update_of_ne hc]
  refine ⟨by rw [hshared]; exact h.books, h.cached, ?_, ?_, ?_, ?_, ?_⟩
  · refine h.tally.push hcore (fun c hc => ?_) ?_ fun hc => absurd hc hcounting
    · simp only [held, Master.dedicate, Function.update_of_ne hc]
    · simp only [held, Master.dedicate, Function.update_self, if_neg h0, if_pos hsingle, hout,
        hqueued, List.map_nil, List.append_nil, List.nil_append]
      exact List.Perm.refl _
  · exact List.nodup_cons.mpr ⟨hfresh, h.distinct⟩
  · intro hm
    rcases List.mem_cons.mp hm with hz | hm
    · exact h0 hz.symm
    · exact h.nonzero hm
  · intro c hc g hg
    dsimp only [Master.dedicate] at hc hg ⊢
    by_cases hcc : c = core
    · subst hcc
      rw [hout] at hg
      cases hg
    · rw [Function.update_of_ne hcc] at hc ⊢
      exact h.dedicated c hc g hg
  · exact fun hc => absurd hc hcounting

theorem Inv.reschedule (h : st.Inv counting queued) (hcore : core < st.master.nprocs)
    (hg : g ∈ st.out core) (hret : job.Returns g)
    (hs : st.master.masterSchedReschedule cfg core job = some m) :
    ∃ queued', Inv counting { st with
        master := m
        out := Function.update st.out core ((st.out core).erase g) } queued' ∧
      m.singleJobs = st.master.singleJobs := by
  obtain ⟨hpid, hdata, -⟩ := hret
  by_cases hsingle : st.master.singleJobs core = 0
  · have h0 : g.pid ≠ 0 := h.pid_ne_zero hcore (mem_held_of_out hsingle hg)
    have hshared : st.sharedOut core = st.out core := if_pos hsingle
    have hperm : (st.sharedOut core).Perm (g :: (st.out core).erase g) := by
      rw [hshared]
      exact List.perm_cons_erase hg
    obtain ⟨hm, hbooks⟩ := reschedule_spec h.books hsingle hperm hpid hdata h0 hs
    have hm' : m.singleJobs = st.master.singleJobs := by rw [hm]
    have hcounts : m.jobcounts = st.master.jobcounts := by rw [hm]
    refine ⟨_, h.set_shared hsingle hm' (by rw [hm]) (by rw [hm]; exact h.cached) hbooks ?_
      h.distinct h.nonzero, hm'⟩
    rw [hcounts]
    refine h.tally.congr fun c => ?_
    by_cases hc : c = core
    · subst hc
      rw [held_of_shared hsingle, held_of_shared (by rw [hm']; exact hsingle)]
      simp only [Function.update_self, List.cons_append]
      exact (((List.perm_cons_erase hg).map SchedulerJob.pid).append_left _).trans
        List.perm_middle
    · rw [held_off hm' hc (Function.update_of_ne hc _ _)]
  · rw [masterSchedReschedule, if_neg hsingle] at hs
    cases hs
    refine ⟨queued, h.set_dedicated hsingle ?_, rfl⟩
    exact fun g' hg' => h.dedicated core hsingle g' (List.mem_of_mem_erase hg')

theorem Inv.perm_drop (h : st.Inv counting queued) (hp : pid ∈ st.pids) :
    st.pids.Perm (pid :: (st.live.filter fun l => l.1 ≠ pid).map Prod.fst) := by
  obtain ⟨l, hl, rfl⟩ := List.mem_map.mp hp
  exact (perm_cons_filter_key h.distinct hl).map Prod.fst

theorem Inv.unscheduleShared (h : st.Inv counting queued) (hcore : core < st.master.nprocs)
    (hsingle : st.master.singleJobs core = 0) (hg : g ∈ st.out core) (hpid : job.pid = g.pid)
    (hdata : job.data = g.data) (hs : st.master.masterSchedUnschedule cfg core job = some m) :
    Inv counting ⟨m, Function.update st.out core ((st.out core).filter fun g' => g'.pid ≠ g.pid),
        st.live.filter fun l => l.1 ≠ g.pid⟩ queued ∧
      m.singleJobs = st.master.singleJobs := by
  have hheld : g.pid ∈ st.held queued core := mem_held_of_out hsingle hg
  have h0 : g.pid ≠ 0 := h.pid_ne_zero hcore hheld
  have hperm := h.perm_drop (h.live_of_held hcore hheld)
  have hnd := hperm.nodup_iff.mp h.distinct
  -- the jobs out on the core have distinct pids
  have hkeys : ((st.out core).map SchedulerJob.pid).Nodup := by
    have hslot := slot_nodup (h.tally.placed.nodup_iff.mpr h.distinct)
      (List.mem_range.mpr hcore)
    rw [held_of_shared hsingle] at hslot
    exact (List.nodup_append'.mp hslot).2.1
  have hout := perm_cons_filter_key hkeys hg
  have hshared : st.sharedOut core = st.out core := if_pos hsingle
  have hsout : (st.sharedOut core).Perm
      (g :: (st.out core).filter fun g' => g'.pid ≠ g.pid) := by
    rw [hshared]
    exact hout
  obtain ⟨hm, hbooks⟩ := unschedule_spec h.books hsingle hsout hpid hdata h0 hs
  have hm' : m.singleJobs = st.master.singleJobs := by rw [hm]
  refine ⟨h.set_shared hsingle hm' (by rw [hm]) (by rw [hm]; exact h.cached) hbooks ?_
    (List.nodup_cons.mp hnd).2 fun hz => h.nonzero (hperm.symm.subset
      (List.mem_cons_of_mem _ hz)), hm'⟩
  refine h.tally.pop hcore (fun c hc => held_off hm' hc rfl) ?_ (fun _ => by rw [hm]) hperm
  rw [held_of_shared hsingle, held_of_shared (by rw [hm']; exact hsingle)]
  simp only [Function.update_self]
  exact ((hout.map SchedulerJob.pid).append_left _).trans List.perm_middle

/-- A dedicated core gives its job up. All that is out on it is this job. -/
theorem Inv.release (h : st.Inv counting queued) (hcore : core < st.master.nprocs)
    (hsingle : st.master.singleJobs core ≠ 0) (hg : g ∈ st.out core) {count : ULong} :
    Inv counting ⟨{ st.master with
          singleJobs := Function.update st.master.singleJobs core 0
          jobcounts := Function.update st.master.jobcounts core count },
        Function.update st.out core ((st.out core).filter fun g' => g'.pid ≠ g.pid),
        st.live.filter fun l => l.1 ≠ g.pid⟩ queued := by
  have hgpid : g.pid = st.master.singleJobs core := h.dedicated core hsingle g hg
  have hcounting : ¬ counting := fun hc => hsingle (h.shared hc core)
  have hheld : g.pid ∈ st.held queued core := by
    rw [held_of_dedicated hsingle, hgpid]
    exact List.mem_append_right _ (List.mem_singleton_self _)
  have hperm := h.perm_drop (h.live_of_held hcore hheld)
  have hnd := hperm.nodup_iff.mp h.distinct
  have hfilter : (st.out core).filter (fun g' => g'.pid ≠ g.pid) = [] := by
    refine List.filter_eq_nil_iff.mpr fun g' hg' => ?_
    simp [h.dedicated core hsingle g' hg', hgpid]
  rw [hfilter]
  refine ⟨?_, h.cached, ?_, (List.nodup_cons.mp hnd).2, ?_, ?_, ?_⟩
  · refine h.books.perm (fun _ => List.Perm.refl _) fun c => List.Perm.of_eq ?_
    by_cases hc : c = core
    · subst hc
      simp only [sharedOut, Function.update_self, if_true, if_neg hsingle]
    · simp only [sharedOut, Function.update_of_ne hc]
  · refine h.tally.pop hcore (fun c hc => ?_) ?_ (fun hc => absurd hc hcounting) hperm
    · simp only [held, Function.update_of_ne hc]
    · simp only [held, Function.update_self, if_true, if_neg hsingle, hgpid, List.map_nil,
        List.append_nil]
      exact List.perm_append_singleton _ _
  · exact fun hz => h.nonzero (hperm.symm.subset (List.mem_cons_of_mem _ hz))
  · intro c hc g' hg'
    dsimp only at hc hg' ⊢
    by_cases hcc : c = core
    · subst hcc
      rw [Function.update_self] at hc
      exact absurd rfl hc
    · rw [Function.update_of_ne hcc] at hc hg' ⊢
      exact h.dedicated c hc g' hg'
  · exact fun hc => absurd hc hcounting

theorem Inv.unschedule (h : st.Inv counting queued) (hcore : core < st.master.nprocs)
    (hg : g ∈ st.out core) (hret : job.Returns g)
    (hs : st.master.masterSchedUnschedule cfg core job = some m) :
    Inv counting ⟨m, Function.update st.out core ((st.out core).filter fun g' => g'.pid ≠ g.pid),
        st.live.filter fun l => l.1 ≠ g.pid⟩ queued ∧
      ∀ c, st.master.singleJobs c ≠ 0 → m.singleJobs c = st.master.singleJobs c ∨
        c = core ∧ g.pid = st.master.singleJobs c := by
  obtain ⟨hpid, hdata, -⟩ := hret
  by_cases hsingle : st.master.singleJobs core = 0
  · obtain ⟨hinv, hm⟩ := h.unscheduleShared hcore hsingle hg hpid hdata hs
    exact ⟨hinv, fun c _ => Or.inl (by rw [hm])⟩
  · rw [masterSchedUnschedule, if_pos hsingle] at hs
    cases hs
    refine ⟨h.release hcore hsingle hg, fun c _ => ?_⟩
    by_cases hcc : c = core
    · exact Or.inr ⟨hcc, hcc ▸ h.dedicated core hsingle g hg⟩
    · exact Or.inl (Function.update_of_ne hcc _ _)

/-! ## One step -/

/-- No schedule of a `TITANIC` job. -/
def Shared (_ : Client) (op : Op) (_ : Client) : Prop :=
  ∀ ptr pid, op ≠ .schedule ptr pid .titanic

/-- Where a `TITANIC` job is scheduled, the lowest core without a scheduler has no
dedicated job. -/
def DedicatesFree (st : Client) (op : Op) (_ : Client) : Prop :=
  ∀ ptr pid core, op = .schedule ptr pid .titanic →
    st.master.FirstUnused core → st.master.singleJobs core = 0

/-- A dedicated job stays one, unless it is unscheduled on its core. -/
def DedicationKept (st : Client) (op : Op) (st' : Client) : Prop :=
  ∀ c, st.master.singleJobs c ≠ 0 →
    st'.master.singleJobs c = st.master.singleJobs c ∨
      ∃ granted job, op = .unschedule c granted job ∧ granted.pid = st.master.singleJobs c

theorem DedicationKept.of_eq (h : st'.master.singleJobs = st.master.singleJobs) :
    DedicationKept st op st' := fun c _ => Or.inl (congrFun h c)

theorem schedule_step (h : st.Inv counting queued)
    (hfree : DedicatesFree st (.schedule ptr pid prio) st')
    (hshared : counting → Shared st (.schedule ptr pid prio) st')
    (hs : st.step cfg (.schedule ptr pid prio) = some st') :
    (∃ queued', st'.Inv counting queued') ∧ DedicationKept st (.schedule ptr pid prio) st' := by
  cases step_calls hs with
  | schedule h0 hfresh hm =>
    rcases masterSchedSchedule_cases hm with ⟨rfl, core, hcore, rfl⟩ | ⟨-, hm⟩
    · have hunused := selectCoreUnused_iff.mp hcore
      have hsingle := hfree ptr pid core rfl hunused
      obtain ⟨-, hlt, hnone, -⟩ := hunused
      have hcounting : ¬ counting := fun hc => hshared hc ptr pid rfl
      refine ⟨⟨queued, h.dedicate hcounting h0 hfresh hlt hnone hsingle⟩, fun c hc => ?_⟩
      have hne : c ≠ core := by
        intro hcc
        exact hc (hcc ▸ hsingle)
      exact Or.inl (Function.update_of_ne hne _ _)
    · obtain ⟨queued', hinv, hsingle⟩ := h.scheduleShared h0 hfresh hm
      exact ⟨⟨queued', hinv⟩, DedicationKept.of_eq hsingle⟩

theorem step_inv (h : st.Inv counting queued) (hfree : DedicatesFree st op st')
    (hshared : counting → Shared st op st') (hs : st.step cfg op = some st') :
    (∃ queued', st'.Inv counting queued') ∧ DedicationKept st op st' := by
  cases step_calls hs with
  | schedule => exact schedule_step h hfree hshared hs
  | select hcore hacc hsel =>
    obtain ⟨queued₁, hinv₁, hsingle₁, hn₁⟩ :=
      (keptByAccounting cfg counting st).account ⟨queued, h, rfl, rfl⟩ hacc
    rw [← hn₁] at hcore
    obtain ⟨queued', hinv', hsingle'⟩ := hinv₁.selectOn hcore hsel
    exact ⟨⟨queued', hinv'⟩, DedicationKept.of_eq (hsingle'.trans hsingle₁)⟩
  | reschedule hcore hg hret hm =>
    obtain ⟨queued', hinv', hsingle'⟩ := h.reschedule hcore hg hret hm
    exact ⟨⟨queued', hinv'⟩, DedicationKept.of_eq hsingle'⟩
  | @unschedule core granted job m hcore hg hret hm =>
    obtain ⟨hinv', hkept⟩ := h.unschedule hcore hg hret hm
    refine ⟨⟨queued, hinv'⟩, fun c hc => ?_⟩
    rcases hkept c hc with hkept | ⟨rfl, hpid⟩
    · exact Or.inl hkept
    · exact Or.inr ⟨granted, job, rfl, hpid⟩
  | leastLoad hm =>
    obtain ⟨⟨queued', hinv', hsingle', -⟩, -⟩ :=
      (keptByAccounting cfg counting st).leastLoad ⟨queued, h, rfl, rfl⟩ hm
    exact ⟨⟨queued', hinv'⟩, DedicationKept.of_eq hsingle'⟩
  | hoist hsrc hdst hne hm =>
    obtain ⟨queued', hinv', hsingle', -⟩ := h.hoist hsrc hdst hne hm
    exact ⟨⟨queued', hinv'⟩, DedicationKept.of_eq hsingle'⟩

end Client

end Yarns.Master
