import Yarns.Sched.Master

/-!
# Jobs on loan

What the processor loops rely on: a job that has been selected is lent to a holder (a
core that runs the yarn, or the record of a suspended yarn) until it goes back to the
master scheduler. Which holders there are is left open: `lent h core job` says that `h`
has `job` and will return it to `core`.

`Ledger.Backs` is the invariant. Every lent job can be returned to its core, no pid is
both queued and lent, and two holders have the same pid only on a core that is
dedicated, where `reschedule` does nothing. It is kept by every call of the master
scheduler, also where a core has been dedicated twice.
-/

namespace Yarns.Master

open Base

/-- The queued pids and the jobs that are out, by core. -/
structure Ledger where
  queued : Nat → List ULong
  out : Nat → List SchedulerJob

namespace Ledger

def pids (l : Ledger) (c : Nat) : List ULong := l.queued c ++ (l.out c).map SchedulerJob.pid

def empty : Ledger := ⟨fun _ => [], fun _ => []⟩

/-- The scheduler of `core` takes `job` back: it is out there, or it has no scheduler
data and no scheduler knows its pid. -/
def Holds (l : Ledger) (core : Nat) (job : SchedulerJob) : Prop :=
  (∃ g ∈ l.out core, g.pid = job.pid ∧ g.data = job.data) ∨
    (job.data = 0 ∧ ∀ c, job.pid ∉ l.pids c)

/-- The master scheduler agrees with the ledger; all pids are below `n`. -/
structure Keeps (l : Ledger) (m : Master) (n : Nat) : Prop where
  books : Books m.schedulers l.queued l.out
  cached : m.Cached
  placed : Placed l.pids
  range : ∀ c, ∀ pid ∈ l.pids c, pid ≠ 0 ∧ pid.toNat < n
  bound : ∀ c, (m.singleJobs c).toNat < n
  dedicated : ∀ c, m.singleJobs c ≠ 0 → l.out c = [] ∧ (∀ d, m.singleJobs c ∉ l.pids d) ∧
    ∀ d, m.singleJobs d = m.singleJobs c → d = c

/-- The pids are the same except for `pid`. -/
structure SameOff (pid : ULong) (l l' : Ledger) : Prop where
  pids : ∀ c, ∀ q ∈ l'.pids c, q ≠ pid → ∃ d, q ∈ l.pids d
  out : ∀ c, ∀ g ∈ l.out c, g.pid ≠ pid → g ∈ l'.out c

variable {cfg : Config} {m m' : Master} {l l' l'' : Ledger} {n n' core src dst : Nat}
  {pid ptr newTime : ULong} {prio : SchedulerPriority} {job job' g : SchedulerJob}
  {ptrs : Nat → List ULong}

theorem Holds.congr (h : l.Holds core job) (hpid : job'.pid = job.pid)
    (hdata : job'.data = job.data) : l.Holds core job' := by
  unfold Holds
  rw [hpid, hdata]
  exact h

theorem SameOff.holds (h : SameOff pid l l') (hh : l.Holds core job) (hne : job.pid ≠ pid) :
    l'.Holds core job := by
  rcases hh with ⟨g, hg, hpid, hdata⟩ | ⟨hdata, hno⟩
  · exact Or.inl ⟨g, h.out core g hg (hpid ▸ hne), hpid, hdata⟩
  · refine Or.inr ⟨hdata, fun c hc => ?_⟩
    obtain ⟨d, hd⟩ := h.pids c job.pid hc hne
    exact hno d hd

theorem SameOff.refl (pid : ULong) (l : Ledger) : SameOff pid l l :=
  ⟨fun c _ hq _ => ⟨c, hq⟩, fun _ _ hg _ => hg⟩

theorem SameOff.trans (h : SameOff pid l l') (h' : SameOff pid l' l'') : SameOff pid l l'' where
  pids := by
    intro c q hq hne
    obtain ⟨d, hd⟩ := h'.pids c q hq hne
    exact h.pids d q hd hne
  out := fun c g hg hne => h'.out c g (h.out c g hg hne) hne

/-- A change at one core. -/
theorem SameOff.of_core (hoff : ∀ c, c ≠ core → l'.pids c = l.pids c ∧ l'.out c = l.out c)
    (hpids : ∀ q ∈ l'.pids core, q ≠ pid → q ∈ l.pids core)
    (hout : ∀ g ∈ l.out core, g.pid ≠ pid → g ∈ l'.out core) : SameOff pid l l' where
  pids := by
    intro c q hq hne
    by_cases hc : c = core
    · subst hc
      exact ⟨c, hpids q hq hne⟩
    · exact ⟨c, (hoff c hc).1 ▸ hq⟩
  out := by
    intro c g hg hne
    by_cases hc : c = core
    · subst hc
      exact hout g hg hne
    · exact (hoff c hc).2.symm ▸ hg

namespace Keeps

/-- A job that can be returned is not queued. -/
theorem not_queued (h : l.Keeps m n) (hh : l.Holds core job) (c : Nat) :
    job.pid ∉ l.queued c := by
  intro hq
  have hc : job.pid ∈ l.pids c := List.mem_append_left _ hq
  rcases hh with ⟨g, hg, hpid, -⟩ | ⟨-, hno⟩
  · have hg' : job.pid ∈ (l.out core).map SchedulerJob.pid :=
      List.mem_map.mpr ⟨g, hg, hpid⟩
    obtain rfl := h.placed.apart _ _ _ hc (List.mem_append_right _ hg')
    exact (List.nodup_append'.mp (h.placed.nodup c)).2.2 hq hg'
  · exact hno c hc

/-- The ledger follows a call that leaves the dedicated jobs alone and moves one pid. -/
theorem update (h : l.Keeps m n) (hbooks : Books m'.schedulers l'.queued l'.out)
    (hcached : m'.Cached) (hplaced : Placed l'.pids) (hn : n ≤ n')
    (hsingle : m'.singleJobs = m.singleJobs) (hoff : SameOff pid l l')
    (hpid : (∃ c, pid ∈ l.pids c) ∨
      pid ≠ 0 ∧ pid.toNat < n' ∧ ∀ d, m.singleJobs d ≠ 0 → m.singleJobs d ≠ pid)
    (hout : ∀ c, m.singleJobs c ≠ 0 → l.out c = [] → l'.out c = []) : l'.Keeps m' n' := by
  have hmem : ∀ c, ∀ q ∈ l'.pids c, (∃ d, q ∈ l.pids d) ∨
      q ≠ 0 ∧ q.toNat < n' ∧ ∀ d, m.singleJobs d ≠ 0 → m.singleJobs d ≠ q := by
    intro c q hq
    by_cases hqp : q = pid
    · subst hqp
      exact hpid
    · exact Or.inl (hoff.pids c q hq hqp)
  refine ⟨hbooks, hcached, hplaced, ?_, ?_, ?_⟩
  · intro c q hq
    rcases hmem c q hq with ⟨d, hd⟩ | ⟨h0, hlt, -⟩
    · exact ⟨(h.range d q hd).1, Nat.lt_of_lt_of_le (h.range d q hd).2 hn⟩
    · exact ⟨h0, hlt⟩
  · intro c
    rw [hsingle]
    exact Nat.lt_of_lt_of_le (h.bound c) hn
  · intro c hc
    rw [hsingle] at hc ⊢
    obtain ⟨hempty, hnot, honly⟩ := h.dedicated c hc
    refine ⟨hout c hc hempty, fun d hd => ?_, honly⟩
    rcases hmem d _ hd with ⟨e, he⟩ | ⟨-, -, hne⟩
    · exact hnot e he
    · exact hne c hc rfl

end Keeps

/-! ## The ledger after each call -/

/-- A new pid in the queue of `core`. -/
def enqueue (l : Ledger) (core : Nat) (pid : ULong) : Ledger :=
  { l with queued := Function.update l.queued core (pid :: l.queued core) }

/-- A pid leaves the queue of `core`. -/
def dequeue (l : Ledger) (core : Nat) (pid : ULong) : Ledger :=
  { l with queued := Function.update l.queued core ((l.queued core).erase pid) }

/-- The jobs that are out of `core` from now on. -/
def setOut (l : Ledger) (core : Nat) (jobs : List SchedulerJob) : Ledger :=
  { l with out := Function.update l.out core jobs }

theorem enqueue_off {c : Nat} (hc : c ≠ core) :
    (l.enqueue core pid).pids c = l.pids c ∧ (l.enqueue core pid).out c = l.out c := by
  simp only [pids, enqueue, Function.update_of_ne hc, and_self]

theorem dequeue_off {c : Nat} (hc : c ≠ core) :
    (l.dequeue core pid).pids c = l.pids c ∧ (l.dequeue core pid).out c = l.out c := by
  simp only [pids, dequeue, Function.update_of_ne hc, and_self]

theorem setOut_off {c : Nat} {jobs : List SchedulerJob} (hc : c ≠ core) :
    (l.setOut core jobs).pids c = l.pids c ∧ (l.setOut core jobs).out c = l.out c := by
  simp only [pids, setOut, Function.update_of_ne hc, and_self]

@[simp] theorem enqueue_pids : (l.enqueue core pid).pids core = pid :: l.pids core := by
  simp only [pids, enqueue, Function.update_self, List.cons_append]

@[simp] theorem dequeue_pids : (l.dequeue core pid).pids core =
    (l.queued core).erase pid ++ (l.out core).map SchedulerJob.pid := by
  simp only [pids, dequeue, Function.update_self]

@[simp] theorem setOut_pids {jobs : List SchedulerJob} : (l.setOut core jobs).pids core =
    l.queued core ++ jobs.map SchedulerJob.pid := by
  simp only [pids, setOut, Function.update_self]

theorem sameOff_enqueue (l : Ledger) (core : Nat) (pid : ULong) :
    SameOff pid l (l.enqueue core pid) := by
  refine SameOff.of_core (fun c hc => enqueue_off hc) (fun q hq hne => ?_) fun g hg _ => hg
  rw [enqueue_pids] at hq
  exact (List.mem_cons.mp hq).resolve_left hne

theorem sameOff_dequeue (l : Ledger) (core : Nat) (pid : ULong) :
    SameOff pid l (l.dequeue core pid) := by
  refine SameOff.of_core (fun c hc => dequeue_off hc) (fun q hq _ => ?_) fun g hg _ => hg
  rw [dequeue_pids] at hq
  exact ((List.erase_sublist).append_right _).subset hq

theorem sameOff_take (l : Ledger) (core : Nat) (job : SchedulerJob) :
    SameOff job.pid l (l.setOut core (job :: l.out core)) := by
  refine SameOff.of_core (fun c hc => setOut_off hc) (fun q hq hne => ?_) fun g hg _ => ?_
  · rw [setOut_pids, List.map_cons] at hq
    rcases List.mem_append.mp hq with hq | hq
    · exact List.mem_append_left _ hq
    · exact List.mem_append_right _ ((List.mem_cons.mp hq).resolve_left hne)
  · simp only [setOut, Function.update_self]
    exact List.mem_cons_of_mem _ hg

theorem sameOff_drop {rest : List SchedulerJob} (hout : (l.out core).Perm (g :: rest)) :
    SameOff g.pid l (l.setOut core rest) := by
  refine SameOff.of_core (fun c hc => setOut_off hc) (fun q hq _ => ?_) fun g' hg' hne => ?_
  · rw [setOut_pids] at hq
    rcases List.mem_append.mp hq with hq | hq
    · exact List.mem_append_left _ hq
    · exact List.mem_append_right _
        ((hout.map SchedulerJob.pid).symm.subset (List.mem_cons_of_mem _ hq))
  · simp only [setOut, Function.update_self]
    rcases List.mem_cons.mp (hout.subset hg') with rfl | hg'
    · exact absurd rfl hne
    · exact hg'

theorem placed_enqueue (h : Placed l.pids) (hfresh : ∀ c, pid ∉ l.pids c) :
    Placed (l.enqueue core pid).pids :=
  h.push hfresh (fun _ hc => (enqueue_off hc).1) (List.Perm.of_eq enqueue_pids)

theorem placed_dequeue (h : Placed l.pids) : Placed (l.dequeue core pid).pids := by
  refine h.subperm fun c => ?_
  by_cases hc : c = core
  · subst hc
    rw [dequeue_pids]
    exact (List.erase_sublist.append_right _).subperm
  · rw [(dequeue_off hc).1]

theorem placed_drop {rest : List SchedulerJob} (h : Placed l.pids)
    (hout : (l.out core).Perm (g :: rest)) : Placed (l.setOut core rest).pids := by
  refine h.subperm fun c => ?_
  by_cases hc : c = core
  · subst hc
    rw [setOut_pids]
    have hp := (hout.map SchedulerJob.pid).append_left (l.queued c)
    exact ((List.sublist_cons_self _ _).append_left _).subperm.trans hp.symm.subperm
  · rw [(setOut_off hc).1]

/-- A pid that is gone from where it was is nowhere. -/
theorem not_mem_dequeue (h : Placed l.pids) (hq : pid ∈ l.queued core) (c : Nat) :
    pid ∉ (l.dequeue core pid).pids c := by
  intro hm
  have hcore : pid ∈ l.pids core := List.mem_append_left _ hq
  by_cases hc : c = core
  · subst hc
    rw [dequeue_pids] at hm
    have hperm : (l.pids c).Perm
        (pid :: ((l.queued c).erase pid ++ (l.out c).map SchedulerJob.pid)) :=
      (List.perm_cons_erase hq).append_right _
    exact (List.nodup_cons.mp (hperm.nodup_iff.mp (h.nodup c))).1 hm
  · rw [(dequeue_off hc).1] at hm
    exact hc (h.apart pid c core hm hcore)

theorem not_mem_drop {rest : List SchedulerJob} (h : Placed l.pids)
    (hout : (l.out core).Perm (g :: rest)) (c : Nat) :
    g.pid ∉ (l.setOut core rest).pids c := by
  intro hm
  have hperm : (l.pids core).Perm (g.pid :: (l.queued core ++ rest.map SchedulerJob.pid)) :=
    ((hout.map SchedulerJob.pid).append_left _).trans List.perm_middle
  by_cases hc : c = core
  · subst hc
    rw [setOut_pids] at hm
    exact (List.nodup_cons.mp (hperm.nodup_iff.mp (h.nodup c))).1 hm
  · rw [(setOut_off hc).1] at hm
    exact hc (h.apart g.pid c core hm (hperm.symm.subset List.mem_cons_self))

/-! ## What each call keeps -/

namespace Keeps

theorem init (cfg : Config) (procs : Nat) (prim sec : Int) (hn : 0 < n) :
    empty.Keeps (masterSchedInit cfg procs prim sec) n where
  books := init_books cfg procs prim sec
  cached := fun h => absurd h (Nat.lt_irrefl 0)
  placed := ⟨fun _ => List.nodup_nil, fun _ _ _ h => absurd h List.not_mem_nil⟩
  range := fun _ _ h => absurd h List.not_mem_nil
  bound := fun _ => hn
  dedicated := fun _ h => absurd rfl h

/-- A job that is queued is not the dedicated job of a core. -/
theorem single_ne (h : l.Keeps m n) (hq : pid ∈ l.queued core) (c : Nat) :
    m.singleJobs c ≠ pid := by
  intro hc
  have hmem : pid ∈ l.pids core := List.mem_append_left _ hq
  have h0 := (h.range core pid hmem).1
  rw [← hc] at h0 hmem
  exact (h.dedicated c h0).2.1 core hmem

/-- Taking one pid and putting it into the queue of another core. -/
theorem hoist (h : l.Keeps m n) (hne : src ≠ dst)
    (hs : m.jobHoist cfg src dst ptr = some m') :
    m'.singleJobs = m.singleJobs ∧ m'.nprocs = m.nprocs ∧
      (l.Keeps m' n ∨ ∃ pid ∈ l.queued src, ((l.dequeue src pid).enqueue dst pid).Keeps m' n ∧
        SameOff pid l ((l.dequeue src pid).enqueue dst pid)) := by
  rcases jobHoist_spec h.books hne hs with ⟨hbooks, hm⟩ | ⟨pid, hpid, hbooks, hm⟩
  · rw [hm]
    exact ⟨rfl, rfl, Or.inl { h with books := hbooks }⟩
  · have hsingle : m'.singleJobs = m.singleJobs := by rw [hm]
    have hcached : m'.Cached := by
      rw [hm]
      exact h.cached
    have hoff : SameOff pid l ((l.dequeue src pid).enqueue dst pid) :=
      (sameOff_dequeue l src pid).trans (sameOff_enqueue _ dst pid)
    refine ⟨hsingle, by rw [hm], Or.inr ⟨pid, hpid, ?_, hoff⟩⟩
    have hbooks' : Books m'.schedulers ((l.dequeue src pid).enqueue dst pid).queued
        ((l.dequeue src pid).enqueue dst pid).out := by
      simp only [enqueue, dequeue, Function.update_of_ne hne.symm]
      exact hbooks
    exact h.update hbooks' hcached
      (placed_enqueue (placed_dequeue h.placed) (not_mem_dequeue h.placed hpid))
      (Nat.le_refl n) hsingle hoff (Or.inl ⟨src, List.mem_append_left _ hpid⟩) fun _ _ he => he

/-- A selected job has left the queue and can be returned. -/
theorem doselect (h : l.Keeps m n) (hsingle : m.singleJobs core = 0)
    (hs : m.doselect cfg core job = some (m', job')) :
    m'.singleJobs = m.singleJobs ∧ m'.nprocs = m.nprocs ∧
      ((job'.pid = 0 ∧ l.Keeps m' n) ∨ job'.pid ∈ l.queued core ∧
        ((l.dequeue core job'.pid).setOut core (job' :: l.out core)).Keeps m' n ∧
        SameOff job'.pid l ((l.dequeue core job'.pid).setOut core (job' :: l.out core))) := by
  obtain ⟨hm, hcase⟩ := doselect_spec h.books hs
  have hsingle' : m'.singleJobs = m.singleJobs := by rw [hm]
  have hcached : m'.Cached := by
    rw [hm]
    exact h.cached
  refine ⟨hsingle', by rw [hm], ?_⟩
  rcases hcase with ⟨hpid, hbooks⟩ | ⟨-, hmem, hbooks⟩
  · rw [hm]
    exact Or.inl ⟨hpid, { h with books := hbooks }⟩
  · have hoff : SameOff job'.pid l
        ((l.dequeue core job'.pid).setOut core (job' :: l.out core)) :=
      (sameOff_dequeue l core job'.pid).trans (sameOff_take _ core job')
    refine Or.inr ⟨hmem, ?_, hoff⟩
    have hplaced : Placed ((l.dequeue core job'.pid).setOut core (job' :: l.out core)).pids := by
      refine h.placed.subperm fun c => ?_
      by_cases hc : c = core
      · subst hc
        rw [setOut_pids]
        simp only [dequeue, Function.update_self, List.map_cons]
        refine (List.Perm.trans List.perm_middle ?_).subperm
        exact ((List.perm_cons_erase hmem).append_right _).symm
      · rw [(setOut_off hc).1, (dequeue_off hc).1]
    refine h.update hbooks hcached hplaced (Nat.le_refl n) hsingle' hoff
      (Or.inl ⟨core, List.mem_append_left _ hmem⟩) fun c hc he => ?_
    have hne : c ≠ core := by
      rintro rfl
      exact hc hsingle
    rw [(setOut_off hne).2]
    exact he

theorem scheduleShared (h : l.Keeps m n) (h0 : pid ≠ 0) (hpid : pid.toNat = n)
    (hs : m.scheduleShared cfg ptr pid prio = some m') :
    ∃ target, m'.singleJobs = m.singleJobs ∧ m'.nprocs = m.nprocs ∧
      (l.enqueue target pid).Keeps m' (n + 1) := by
  obtain ⟨target, -, hcached, hbooks, hm⟩ := schedule_spec h.books h.cached h0 hs
  have hsingle : m'.singleJobs = m.singleJobs := by rw [hm]
  have hfresh : ∀ c, pid ∉ l.pids c := by
    intro c hc
    have hlt := (h.range c pid hc).2
    omega
  refine ⟨target, hsingle, by rw [hm], ?_⟩
  refine h.update hbooks hcached (placed_enqueue h.placed hfresh) (Nat.le_succ n) hsingle
    (sameOff_enqueue l target pid) (Or.inr ⟨h0, by omega, fun d _ hd => ?_⟩) fun _ _ he => he
  have hlt := h.bound d
  rw [hd] at hlt
  omega

/-- Dedicating a core without a scheduler, to a pid that is new. -/
theorem dedicate (h : l.Keeps m n) (hpid : pid.toNat = n) (hnone : m.schedulers core = none) :
    l.Keeps (m.dedicate core pid) (n + 1) where
  books := h.books
  cached := h.cached
  placed := h.placed
  range := fun c q hq => ⟨(h.range c q hq).1, Nat.lt_succ_of_lt (h.range c q hq).2⟩
  bound := by
    intro c
    simp only [Master.dedicate]
    by_cases hc : c = core
    · subst hc
      rw [Function.update_self]
      omega
    · rw [Function.update_of_ne hc]
      exact Nat.lt_succ_of_lt (h.bound c)
  dedicated := by
    -- no other core has the new pid, no scheduler knows it
    have hnew : ∀ d, m.singleJobs d ≠ pid := by
      intro d hd
      have hlt := h.bound d
      rw [hd] at hlt
      omega
    intro c
    simp only [Master.dedicate]
    by_cases hc : c = core
    · subst hc
      rw [Function.update_self]
      intro _
      refine ⟨(h.books.idle c hnone).1, fun d hd => ?_, fun d hd => ?_⟩
      · have hlt := (h.range d pid hd).2
        omega
      · by_contra hdc
        rw [Function.update_of_ne hdc] at hd
        exact hnew d hd
    · rw [Function.update_of_ne hc]
      intro h0
      obtain ⟨hout, hnot, honly⟩ := h.dedicated c h0
      refine ⟨hout, hnot, fun d hd => ?_⟩
      by_cases hdc : d = core
      · subst hdc
        rw [Function.update_self] at hd
        exact absurd hd.symm (hnew c)
      · rw [Function.update_of_ne hdc] at hd
        exact honly d hd

/-- The job of a core that is not dedicated goes back to its queue, or is dropped there
because it has no scheduler data. -/
theorem reschedule (h : l.Keeps m n) (hh : l.Holds core job) (h0 : job.pid ≠ 0)
    (hlt : job.pid.toNat < n) (hsingle : m.singleJobs core = 0)
    (hfree : ∀ d, m.singleJobs d ≠ job.pid)
    (hs : m.masterSchedReschedule cfg core job = some m') :
    m'.singleJobs = m.singleJobs ∧ m'.nprocs = m.nprocs ∧
      ∃ l', l'.Keeps m' n ∧ SameOff job.pid l l' := by
  rcases hh with ⟨g, hg, hpid, hdata⟩ | ⟨hdata, hno⟩
  · have hout : (l.out core).Perm (g :: (l.out core).erase g) := List.perm_cons_erase hg
    obtain ⟨hm, hbooks⟩ := reschedule_spec h.books hsingle hout hpid.symm hdata.symm
      (hpid ▸ h0) hs
    have hsingle' : m'.singleJobs = m.singleJobs := by rw [hm]
    have hcached : m'.Cached := by
      rw [hm]
      exact h.cached
    have hoff : SameOff g.pid l ((l.setOut core ((l.out core).erase g)).enqueue core g.pid) :=
      (sameOff_drop hout).trans (sameOff_enqueue _ core g.pid)
    refine ⟨hsingle', by rw [hm],
      (l.setOut core ((l.out core).erase g)).enqueue core g.pid, ?_, hpid ▸ hoff⟩
    refine h.update hbooks hcached
      (placed_enqueue (placed_drop h.placed hout) (not_mem_drop h.placed hout))
      (Nat.le_refl n) hsingle' hoff
      (Or.inl ⟨core, List.mem_append_right _ (List.mem_map_of_mem hg)⟩) fun c hc he => ?_
    have hne : c ≠ core := by
      rintro rfl
      exact hc hsingle
    simp only [enqueue, setOut, Function.update_of_ne hne, he]
  · obtain ⟨hm, hcase⟩ := reschedule_null_spec h.books hsingle hdata h0 hs
    have hsingle' : m'.singleJobs = m.singleJobs := by rw [hm]
    have hcached : m'.Cached := by
      rw [hm]
      exact h.cached
    refine ⟨hsingle', by rw [hm], ?_⟩
    rcases hcase with hbooks | hbooks
    · rw [hm]
      exact ⟨l, { h with books := hbooks }, SameOff.refl _ l⟩
    · refine ⟨l.enqueue core job.pid, ?_, sameOff_enqueue l core job.pid⟩
      exact h.update hbooks hcached (placed_enqueue h.placed hno) (Nat.le_refl n) hsingle'
        (sameOff_enqueue l core job.pid) (Or.inr ⟨h0, hlt, fun d _ => hfree d⟩)
        fun _ _ he => he

theorem unschedule (h : l.Keeps m n) (hh : l.Holds core job) (h0 : job.pid ≠ 0)
    (hsingle : m.singleJobs core = 0) (hs : m.masterSchedUnschedule cfg core job = some m') :
    m'.singleJobs = m.singleJobs ∧ m'.nprocs = m.nprocs ∧
      ∃ l', l'.Keeps m' n ∧ SameOff job.pid l l' := by
  rcases hh with ⟨g, hg, hpid, hdata⟩ | ⟨hdata, -⟩
  · have hout : (l.out core).Perm (g :: (l.out core).erase g) := List.perm_cons_erase hg
    obtain ⟨hm, hbooks⟩ := unschedule_spec h.books hsingle hout hpid.symm hdata.symm
      (hpid ▸ h0) hs
    have hsingle' : m'.singleJobs = m.singleJobs := by rw [hm]
    have hcached : m'.Cached := by
      rw [hm]
      exact h.cached
    refine ⟨hsingle', by rw [hm], l.setOut core ((l.out core).erase g), ?_,
      hpid ▸ sameOff_drop hout⟩
    refine h.update hbooks hcached (placed_drop h.placed hout) (Nat.le_refl n) hsingle'
      (sameOff_drop hout) (Or.inl ⟨core, List.mem_append_right _ (List.mem_map_of_mem hg)⟩)
      fun c hc he => ?_
    have hne : c ≠ core := by
      rintro rfl
      exact hc hsingle
    rw [(setOut_off hne).2, he]
  · obtain ⟨hm, hbooks⟩ := unschedule_null_spec h.books hsingle hdata hs
    rw [hm]
    exact ⟨rfl, rfl, l, { h with books := hbooks }, SameOff.refl _ l⟩

/-- A dedicated core is given up. -/
theorem release (h : l.Keeps m n) (core : Nat) (counts : Nat → ULong) :
    l.Keeps { m with
      singleJobs := Function.update m.singleJobs core 0
      jobcounts := counts } n where
  books := h.books
  cached := h.cached
  placed := h.placed
  range := h.range
  bound := by
    intro c
    dsimp only
    by_cases hc : c = core
    · subst hc
      rw [Function.update_self, zero_toNat]
      exact Nat.lt_of_le_of_lt (Nat.zero_le _) (h.bound c)
    · rw [Function.update_of_ne hc]
      exact h.bound c
  dedicated := by
    intro c
    dsimp only
    by_cases hc : c = core
    · subst hc
      rw [Function.update_self]
      exact fun h0 => absurd rfl h0
    · rw [Function.update_of_ne hc]
      intro h0
      obtain ⟨hout, hnot, honly⟩ := h.dedicated c h0
      refine ⟨hout, hnot, fun d hd => ?_⟩
      by_cases hdc : d = core
      · subst hdc
        rw [Function.update_self] at hd
        exact absurd hd.symm h0
      · rw [Function.update_of_ne hdc] at hd
        exact honly d hd

end Keeps

/-! ## Holders -/

section

variable {η θ : Type}

/-- The loans `lent` are backed: each can be returned, and its pid is no other core's
dedicated job; two holders have one pid only on a dedicated core. -/
structure Backs (l : Ledger) (m : Master) (n : Nat) (lent : η → Nat → SchedulerJob → Prop) :
    Prop where
  keeps : l.Keeps m n
  holds : ∀ h c j, lent h c j → l.Holds c j ∧ j.pid ≠ 0 ∧ j.pid.toNat < n ∧
    ∀ d, m.singleJobs d = j.pid → d = c
  apart : ∀ h h' c c' j j', lent h c j → lent h' c' j' → h ≠ h' → j.pid = j'.pid →
    c = c' ∧ m.singleJobs c ≠ 0

/-- `holder` gets `job`, besides the loans there are. -/
def lend (lent : η → Nat → SchedulerJob → Prop) (holder : η) (core : Nat) (job : SchedulerJob) :
    η → Nat → SchedulerJob → Prop :=
  fun h c j => lent h c j ∨ h = holder ∧ c = core ∧ j = job

/-- `holder` has its job no more. -/
def settle (lent : η → Nat → SchedulerJob → Prop) (holder : η) :
    η → Nat → SchedulerJob → Prop :=
  fun h c j => lent h c j ∧ h ≠ holder

variable {lent : η → Nat → SchedulerJob → Prop} {lent' : θ → Nat → SchedulerJob → Prop}
  {holder : η}

namespace Backs

/-- Loans may end, change hands, and change what the scheduler does not look at. -/
theorem sub (h : l.Backs m n lent) (f : θ → η)
    (hlent : ∀ o c j, lent' o c j → ∃ j₀, lent (f o) c j₀ ∧ j.pid = j₀.pid ∧ j.data = j₀.data)
    (hinj : ∀ o o' c c' j j', lent' o c j → lent' o' c' j' → f o = f o' → o = o') :
    l.Backs m n lent' where
  keeps := h.keeps
  holds := by
    intro o c j hj
    obtain ⟨j₀, hj₀, hpid, hdata⟩ := hlent o c j hj
    obtain ⟨hh, hrest⟩ := h.holds (f o) c j₀ hj₀
    rw [hpid]
    exact ⟨hh.congr hpid hdata, hrest⟩
  apart := by
    intro o o' c c' j j' hj hj' hne hpids
    obtain ⟨j₀, hj₀, hpid, -⟩ := hlent o c j hj
    obtain ⟨j₀', hj₀', hpid', -⟩ := hlent o' c' j' hj'
    refine h.apart _ _ c c' j₀ j₀' hj₀ hj₀' (fun he => hne ?_) (hpid ▸ hpid' ▸ hpids)
    exact hinj o o' c c' j j' hj hj' he

/-- The ledger changes about one pid that no remaining holder has. -/
theorem update (h : l.Backs m n lent) {lent₁ : η → Nat → SchedulerJob → Prop}
    (hkeeps : l'.Keeps m' n') (hn : n ≤ n') (hoff : SameOff pid l l')
    (hlent : ∀ o c j, lent₁ o c j → lent o c j ∧ j.pid ≠ pid)
    (hsingle : m'.singleJobs = m.singleJobs) : l'.Backs m' n' lent₁ where
  keeps := hkeeps
  holds := by
    intro o c j hj
    obtain ⟨hj, hne⟩ := hlent o c j hj
    obtain ⟨hh, h0, hlt, hd⟩ := h.holds o c j hj
    rw [hsingle]
    exact ⟨hoff.holds hh hne, h0, Nat.lt_of_lt_of_le hlt hn, hd⟩
  apart := by
    intro o o' c c' j j' hj hj'
    rw [hsingle]
    exact h.apart o o' c c' j j' (hlent o c j hj).1 (hlent o' c' j' hj').1

theorem init (cfg : Config) (procs : Nat) (prim sec : Int) (hn : 0 < n)
    (hlent : ∀ o c j, ¬ lent o c j) :
    empty.Backs (masterSchedInit cfg procs prim sec) n lent where
  keeps := Keeps.init cfg procs prim sec hn
  holds := fun o c j hj => absurd hj (hlent o c j)
  apart := fun o _ c _ j _ hj => absurd hj (hlent o c j)

/-- A queued pid is lent to nobody. -/
theorem ne_of_queued (h : l.Backs m n lent) (hq : pid ∈ l.queued core) {o : η} {c : Nat}
    (hj : lent o c job) : job.pid ≠ pid := by
  rintro rfl
  exact h.keeps.not_queued (h.holds o c job hj).1 core hq

theorem hoist (h : l.Backs m n lent) (hne : src ≠ dst)
    (hs : m.jobHoist cfg src dst ptr = some m') :
    m'.singleJobs = m.singleJobs ∧ m'.nprocs = m.nprocs ∧
      ∃ l', Backs l' m' n lent := by
  obtain ⟨hsingle, hprocs, hcase⟩ := h.keeps.hoist hne hs
  refine ⟨hsingle, hprocs, ?_⟩
  rcases hcase with hkeeps | ⟨pid, hpid, hkeeps, hoff⟩
  · refine ⟨l, h.update hkeeps (Nat.le_refl n) (SameOff.refl 0 l) (fun o c j hj => ?_) hsingle⟩
    exact ⟨hj, (h.holds o c j hj).2.1⟩
  · exact ⟨_, h.update hkeeps (Nat.le_refl n) hoff
      (fun o c j hj => ⟨hj, h.ne_of_queued hpid hj⟩) hsingle⟩

theorem keptByAccounting (cfg : Config) (m : Master) (n : Nat)
    (lent : η → Nat → SchedulerJob → Prop) :
    KeptByAccounting cfg m.nprocs fun m' => (∃ l, Backs l m' n lent) ∧
      m'.singleJobs = m.singleJobs ∧ m'.nprocs = m.nprocs where
  cached := fun _ hm => ⟨hm.2.2, hm.1.choose_spec.keeps.cached⟩
  fields := by
    intro m' a b c hm hcached
    obtain ⟨⟨l, h⟩, hsingle, hprocs⟩ := hm
    refine ⟨⟨l, { h with keeps := { h.keeps with cached := ?_ } }⟩, hsingle, hprocs⟩
    exact fun hc => hprocs ▸ hcached hc
  hoist := by
    intro m₁ m₂ src dst ptr hm hsrc hdst hne hs
    obtain ⟨⟨l, h⟩, hsingle, hprocs⟩ := hm
    obtain ⟨hsingle', hprocs', hl'⟩ := h.hoist hne hs
    exact ⟨hl', hsingle'.trans hsingle, hprocs'.trans hprocs⟩

theorem leastLoad (h : l.Backs m n lent) (hs : m.selectCoreLeastLoad = some (m', dst)) :
    m'.singleJobs = m.singleJobs ∧ m'.nprocs = m.nprocs ∧
      ∃ l', Backs l' m' n lent := by
  obtain ⟨-, hcached, cd, rfl⟩ := selectCoreLeastLoad_spec h.keeps.cached hs
  exact ⟨rfl, rfl, l, { h with keeps := { h.keeps with cached := hcached } }⟩

/-- One more loan. Where another holder has the pid, the core is dedicated. -/
theorem add (h : l.Backs m n lent) (hh : l.Holds core job) (h0 : job.pid ≠ 0)
    (hlt : job.pid.toNat < n) (hd : ∀ d, m.singleJobs d = job.pid → d = core)
    (hother : ∀ o c j, lent o c j → j.pid = job.pid → m.singleJobs core = job.pid) :
    l.Backs m n (lend lent holder core job) where
  keeps := h.keeps
  holds := by
    intro o c j hj
    rcases hj with hj | ⟨-, rfl, rfl⟩
    · exact h.holds o c j hj
    · exact ⟨hh, h0, hlt, hd⟩
  apart := by
    -- a holder of the same pid is bound to the core the pid is dedicated to
    have hsame : ∀ o c j, lent o c j → j.pid = job.pid → c = core ∧ m.singleJobs core ≠ 0 := by
      intro o c j hj hpid
      have hs := hother o c j hj hpid
      refine ⟨((h.holds o c j hj).2.2.2 core (hs.trans hpid.symm)).symm, ?_⟩
      rw [hs]
      exact h0
    intro o o' c c' j j' hj hj' hne hpids
    rcases hj with hj | ⟨rfl, rfl, rfl⟩ <;> rcases hj' with hj' | ⟨rfl, rfl, rfl⟩
    · exact h.apart o o' c c' j j' hj hj' hne hpids
    · obtain ⟨rfl, hs⟩ := hsame o c j hj hpids
      exact ⟨rfl, hs⟩
    · obtain ⟨rfl, hs⟩ := hsame o' c' j' hj' hpids.symm
      exact ⟨rfl, hs⟩
    · exact absurd rfl hne

theorem selectOn (h : l.Backs m n lent) (holder : η)
    (hs : m.selectOn cfg core job = some (m', job')) :
    m'.singleJobs = m.singleJobs ∧ m'.nprocs = m.nprocs ∧
      ((job'.pid = 0 ∧ ∃ l', Backs l' m' n lent) ∨
        (m.singleJobs core = job'.pid ∨ ∀ o c j, lent o c j → j.pid ≠ job'.pid) ∧
          ∃ l', Backs l' m' n (lend lent holder core job')) := by
  by_cases hsingle : m.singleJobs core = 0
  · rw [Master.selectOn, if_neg (not_not_intro hsingle)] at hs
    obtain ⟨hsingle', hprocs, hcase⟩ := h.keeps.doselect hsingle hs
    refine ⟨hsingle', hprocs, ?_⟩
    rcases hcase with ⟨hpid, hkeeps⟩ | ⟨hq, hkeeps, hoff⟩
    · refine Or.inl ⟨hpid, l, h.update hkeeps (Nat.le_refl n) (SameOff.refl 0 l)
        (fun o c j hj => ?_) hsingle'⟩
      exact ⟨hj, (h.holds o c j hj).2.1⟩
    · have hne : ∀ o c j, lent o c j → j.pid ≠ job'.pid := fun o c j hj => h.ne_of_queued hq hj
      obtain ⟨h0, hlt⟩ := h.keeps.range core _ (List.mem_append_left _ hq)
      have hbacks := h.update hkeeps (Nat.le_refl n) hoff
        (fun o c j hj => ⟨hj, hne o c j hj⟩) hsingle'
      refine Or.inr ⟨Or.inr hne, _, hbacks.add (Or.inl ⟨job', ?_, rfl, rfl⟩) h0 hlt
        (fun d hd => ?_) fun o c j hj hpid => absurd hpid (hne o c j hj)⟩
      · simp only [setOut, Function.update_self]
        exact List.mem_cons_self
      · rw [hsingle'] at hd
        exact absurd hd (h.keeps.single_ne hq d)
  · rw [Master.selectOn, if_pos hsingle] at hs
    cases hs
    obtain ⟨-, hnot, honly⟩ := h.keeps.dedicated core hsingle
    exact ⟨rfl, rfl, Or.inr ⟨Or.inl rfl, l, h.add (Or.inr ⟨rfl, hnot⟩) hsingle
      (h.keeps.bound core) honly fun _ _ _ _ _ => rfl⟩⟩

/-- A selected job is the dedicated job of its core, or nobody had its pid. -/
theorem select (h : l.Backs m n lent) (holder : η)
    (hs : m.masterSchedSelect cfg core job newTime ptrs = some (m', job')) :
    m'.singleJobs = m.singleJobs ∧ m'.nprocs = m.nprocs ∧
      ((job'.pid = 0 ∧ ∃ l', Backs l' m' n lent) ∨
        (m.singleJobs core = job'.pid ∨ ∀ o c j, lent o c j → j.pid ≠ job'.pid) ∧
          ∃ l', Backs l' m' n (lend lent holder core job')) := by
  obtain ⟨m₁, hacc, hs⟩ := Option.bind_eq_some_iff.mp hs
  obtain ⟨⟨l₁, h₁⟩, hsingle, hprocs⟩ :=
    (keptByAccounting cfg m n lent).account ⟨⟨l, h⟩, rfl, rfl⟩ hacc
  obtain ⟨hsingle', hprocs', hcase⟩ := h₁.selectOn holder hs
  refine ⟨hsingle'.trans hsingle, hprocs'.trans hprocs, ?_⟩
  rwa [hsingle] at hcase

/-- A job that is new gets a core of its own or joins a queue. -/
theorem schedule (h : l.Backs m n lent) (h0 : pid ≠ 0) (hpid : pid.toNat = n)
    (hs : m.masterSchedSchedule cfg ptr pid prio = some m') :
    (∀ c, m'.singleJobs c = m.singleJobs c ∨ m'.singleJobs c = pid) ∧ m'.nprocs = m.nprocs ∧
      ∃ l', Backs l' m' (n + 1) lent := by
  have hold : ∀ o c j, lent o c j → j.pid ≠ pid := by
    intro o c j hj he
    have hlt := (h.holds o c j hj).2.2.1
    rw [he] at hlt
    omega
  rcases masterSchedSchedule_cases hs with ⟨-, target, hunused, rfl⟩ | ⟨-, hs⟩
  · obtain ⟨-, -, hnone, -⟩ := selectCoreUnused_iff.mp hunused
    have hsingle : ∀ d, (m.dedicate target pid).singleJobs d = m.singleJobs d ∨
        (m.dedicate target pid).singleJobs d = pid := by
      intro d
      simp only [Master.dedicate]
      by_cases hd : d = target
      · subst hd
        exact Or.inr (Function.update_self ..)
      · exact Or.inl (Function.update_of_ne hd _ _)
    refine ⟨hsingle, rfl, l, h.keeps.dedicate hpid hnone, fun o c j hj => ?_,
      fun o o' c c' j j' hj hj' hne hpids => ?_⟩
    · obtain ⟨hh, hj0, hlt, hd⟩ := h.holds o c j hj
      refine ⟨hh, hj0, Nat.lt_succ_of_lt hlt, fun d hjd => ?_⟩
      rcases hsingle d with hd' | hd'
      · exact hd d (hd'.symm.trans hjd)
      · exact absurd (hjd.symm.trans hd') (hold o c j hj)
    · obtain ⟨rfl, hs⟩ := h.apart o o' c c' j j' hj hj' hne hpids
      refine ⟨rfl, ?_⟩
      rcases hsingle c with hc | hc <;> rw [hc]
      · exact hs
      · exact h0
  · obtain ⟨target, hsingle, hprocs, hkeeps⟩ := h.keeps.scheduleShared h0 hpid hs
    refine ⟨fun c => Or.inl (by rw [hsingle]), hprocs, l.enqueue target pid, ?_⟩
    exact h.update hkeeps (Nat.le_succ n) (sameOff_enqueue l target pid)
      (fun o c j hj => ⟨hj, hold o c j hj⟩) hsingle

/-- A holder returns its job. -/
theorem reschedule (h : l.Backs m n lent) {job₀ : SchedulerJob} (hj : lent holder core job₀)
    (hpid : job.pid = job₀.pid) (hdata : job.data = job₀.data)
    (hs : m.masterSchedReschedule cfg core job = some m') :
    m'.singleJobs = m.singleJobs ∧ m'.nprocs = m.nprocs ∧
      ∃ l', Backs l' m' n (settle lent holder) := by
  obtain ⟨hh, h0, hlt, hd⟩ := h.holds holder core job₀ hj
  by_cases hsingle : m.singleJobs core = 0
  · have hfree : ∀ d, m.singleJobs d ≠ job₀.pid := by
      intro d hjd
      obtain rfl := hd d hjd
      exact h0 (hjd.symm.trans hsingle)
    obtain ⟨hsingle', hprocs, l', hkeeps, hoff⟩ := h.keeps.reschedule (hh.congr hpid hdata)
      (hpid ▸ h0) (hpid ▸ hlt) hsingle (hpid ▸ hfree) hs
    refine ⟨hsingle', hprocs, l', ?_⟩
    refine h.update hkeeps (Nat.le_refl n) hoff (fun o c j hlent => ⟨hlent.1, ?_⟩) hsingle'
    -- another holder of the pid would sit on a dedicated core
    intro he
    obtain ⟨rfl, hne⟩ := h.apart o holder c core j job₀ hlent.1 hj hlent.2 (he.trans hpid)
    exact hne hsingle
  · rw [masterSchedReschedule, if_neg hsingle] at hs
    cases hs
    exact ⟨rfl, rfl, l, h.sub id (fun o c j hlent => ⟨j, hlent.1, rfl, rfl⟩)
      fun o o' _ _ _ _ _ _ he => he⟩

/-- A holder gives its job up. On a dedicated core no two other holders may have one pid,
because the core is shared afterwards. -/
theorem unschedule (h : l.Backs m n lent) {job₀ : SchedulerJob} (hj : lent holder core job₀)
    (hpid : job.pid = job₀.pid) (hdata : job.data = job₀.data)
    (halone : ∀ o o' j j', settle lent holder o core j → settle lent holder o' core j' →
      j.pid = j'.pid → o = o')
    (hs : m.masterSchedUnschedule cfg core job = some m') :
    (∀ c, m'.singleJobs c = m.singleJobs c ∨ m'.singleJobs c = 0) ∧ m'.nprocs = m.nprocs ∧
      ∃ l', Backs l' m' n (settle lent holder) := by
  obtain ⟨hh, h0, -, -⟩ := h.holds holder core job₀ hj
  by_cases hsingle : m.singleJobs core = 0
  · obtain ⟨hsingle', hprocs, l', hkeeps, hoff⟩ := h.keeps.unschedule (hh.congr hpid hdata)
      (hpid ▸ h0) hsingle hs
    refine ⟨fun c => Or.inl (by rw [hsingle']), hprocs, l', ?_⟩
    refine h.update hkeeps (Nat.le_refl n) hoff (fun o c j hlent => ⟨hlent.1, ?_⟩) hsingle'
    intro he
    obtain ⟨rfl, hne⟩ := h.apart o holder c core j job₀ hlent.1 hj hlent.2 (he.trans hpid)
    exact hne hsingle
  · rw [masterSchedUnschedule, if_pos hsingle] at hs
    cases hs
    have hsingle' : ∀ c, Function.update m.singleJobs core 0 c = m.singleJobs c ∨
        Function.update m.singleJobs core 0 c = 0 := by
      intro c
      by_cases hc : c = core
      · subst hc
        exact Or.inr (Function.update_self ..)
      · exact Or.inl (Function.update_of_ne hc _ _)
    refine ⟨hsingle', rfl, l, h.keeps.release core _, fun o c j hlent => ?_,
      fun o o' c c' j j' hlent hlent' hne hpids => ?_⟩
    · obtain ⟨hh, hj0, hlt, hd⟩ := h.holds o c j hlent.1
      refine ⟨hh, hj0, hlt, fun d hjd => ?_⟩
      rcases hsingle' d with hd' | hd'
      · exact hd d (hd'.symm.trans hjd)
      · exact absurd (hjd.symm.trans hd') hj0
    · obtain ⟨rfl, hs⟩ := h.apart o o' c c' j j' hlent.1 hlent'.1 hne hpids
      have hc : c ≠ core := by
        rintro rfl
        exact hne (halone o o' j j' hlent hlent' hpids)
      refine ⟨rfl, ?_⟩
      dsimp only
      rw [Function.update_of_ne hc]
      exact hs

end Backs

end

end Ledger

end Yarns.Master
