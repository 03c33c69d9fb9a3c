import Yarns.Sched.Fair
import Yarns.Sched.RoundRobin
import Yarns.Sched.Staircase

/-!
# The scheduler interface

`struct _scheduler` is a table of methods over a private context; here it is one of the
three implementations, and a method call is dispatch on which one. The specification
lemmas below are the only facts about the implementations the master scheduler needs:
`queuedPids` says which pids a scheduler would still hand out, `Owns out` that every job
in `out` can be returned to it.
-/

namespace Yarns

inductive Scheduler where
  | roundRobin (s : RoundRobin)
  | staircase (s : Staircase)
  | fair (s : Fair)

def YARNS_SCHEDULER_ROUND_ROBIN : Int := 1
def YARNS_SCHEDULER_ROTATING_STAIRCASE : Int := 2
def YARNS_SCHEDULER_COMPLETELY_FAIR : Int := 3

def allocateSchedByNumber (cfg : Config) (n : Int) : Scheduler :=
  if n = YARNS_SCHEDULER_ROUND_ROBIN then .roundRobin .allocate
  else if n = YARNS_SCHEDULER_ROTATING_STAIRCASE then .staircase (.allocate cfg)
  else .fair .allocate

namespace Scheduler

/-- `ptr` is the address `yalloc` returns where the method allocates. -/
def schedule (cfg : Config) (ptr pid : ULong) (prio : SchedulerPriority) :
    Scheduler → Option Scheduler
  | roundRobin s => some (roundRobin (s.schedule pid))
  | staircase s => (s.schedule cfg ptr pid prio).map staircase
  | fair s => (s.schedule ptr pid prio).map fair

def select (cfg : Config) (job : SchedulerJob) : Scheduler → Option (Scheduler × SchedulerJob)
  | roundRobin s => some ((s.select cfg job).map roundRobin id)
  | staircase s => (s.select cfg job).map (Prod.map staircase id)
  | fair s => (s.select cfg job).map (Prod.map fair id)

def reschedule (cfg : Config) (job : SchedulerJob) : Scheduler → Option Scheduler
  | roundRobin s => some (roundRobin (s.reschedule job))
  | staircase s => (s.reschedule cfg job).map staircase
  | fair s => (s.reschedule cfg job).map fair

def unschedule (job : SchedulerJob) : Scheduler → Option Scheduler
  | roundRobin s => some (roundRobin (s.unschedule job))
  | staircase s => (s.unschedule job).map staircase
  | fair s => (s.unschedule job).map fair

def queuedPids : Scheduler → List ULong
  | roundRobin s => s.queue
  | staircase s => s.queuedPids
  | fair s => s.queuedPids

/-- The round-robin scheduler keeps nothing about a job that is out. -/
def Owns (out : List SchedulerJob) : Scheduler → Prop
  | roundRobin _ => True
  | staircase s => s.Owns out
  | fair s => s.Owns out

variable {cfg : Config} {s s' : Scheduler} {job job' g : SchedulerJob}
  {out out' : List SchedulerJob} {ptr pid : ULong} {prio : SchedulerPriority}

theorem allocate_owns (cfg : Config) (n : Int) : (allocateSchedByNumber cfg n).Owns [] := by
  unfold allocateSchedByNumber
  split
  · trivial
  · split
    · exact Staircase.allocate_owns
    · exact Fair.allocate_owns

theorem allocate_queuedPids (cfg : Config) (n : Int) :
    (allocateSchedByNumber cfg n).queuedPids = [] := by
  unfold allocateSchedByNumber
  split
  · rfl
  · split
    · simp [queuedPids, Staircase.queuedPids, Staircase.queuedPtrs, StaircaseBlock.queued,
        Staircase.allocate, fifoNew, Base.owners]
    · rfl

theorem Owns.perm (h : s.Owns out) (hp : out.Perm out') : s.Owns out' := by
  cases s with
  | roundRobin s => trivial
  | staircase s => exact Staircase.Owns.perm h hp
  | fair s => exact Fair.Owns.perm h hp

theorem schedule_spec (h : s.Owns out) (hs : s.schedule cfg ptr pid prio = some s') :
    s'.Owns out ∧ s'.queuedPids.Perm (pid :: s.queuedPids) := by
  cases s with
  | roundRobin s =>
    cases hs
    exact ⟨trivial, List.perm_append_singleton pid s.queue⟩
  | staircase s =>
    obtain ⟨t, ht, rfl⟩ := Option.map_eq_some_iff.mp hs
    exact Staircase.schedule_spec h ht
  | fair s =>
    obtain ⟨t, ht, rfl⟩ := Option.map_eq_some_iff.mp hs
    exact Fair.schedule_spec h ht

/-- `select` takes nothing and says so, or takes one queued pid. -/
theorem select_spec (h : s.Owns out) (h0 : (0 : ULong) ∉ s.queuedPids)
    (hs : s.select cfg job = some (s', job')) :
    (job'.pid = 0 ∧ s'.Owns out ∧ s'.queuedPids.Perm s.queuedPids) ∨
      (job'.pid ≠ 0 ∧ s'.Owns (job' :: out) ∧
        s.queuedPids.Perm (job'.pid :: s'.queuedPids)) := by
  -- a pid that was queued is not `0`
  have hne : s.queuedPids.Perm (job'.pid :: s'.queuedPids) → job'.pid ≠ 0 := by
    intro hp hz
    exact h0 (hp.symm.subset (hz ▸ List.mem_cons_self))
  cases s with
  | roundRobin s =>
    cases hq : s.queue with
    | nil =>
      rw [select, RoundRobin.select_empty cfg s job hq] at hs
      cases hs
      exact Or.inl ⟨rfl, trivial, List.Perm.refl _⟩
    | cons pid rest =>
      rw [select, RoundRobin.select_cons cfg s job hq] at hs
      cases hs
      have hp : (roundRobin s).queuedPids.Perm (pid :: rest) := List.Perm.of_eq hq
      exact Or.inr ⟨hne hp, trivial, hp⟩
  | staircase s =>
    obtain ⟨⟨t, j⟩, ht, he⟩ := Option.map_eq_some_iff.mp hs
    cases he
    rcases Staircase.select_spec h ht with hidle | ⟨howns, hp⟩
    · exact Or.inl hidle
    · exact Or.inr ⟨hne hp, howns, hp⟩
  | fair s =>
    obtain ⟨⟨t, j⟩, ht, he⟩ := Option.map_eq_some_iff.mp hs
    cases he
    rcases Fair.select_spec h ht with hidle | ⟨howns, hp⟩
    · exact Or.inl hidle
    · exact Or.inr ⟨hne hp, howns, hp⟩

theorem reschedule_spec (h : s.Owns (g :: out)) (hpid : job.pid = g.pid)
    (hdata : job.data = g.data) (h0 : g.pid ≠ 0) (hs : s.reschedule cfg job = some s') :
    s'.Owns out ∧ s'.queuedPids.Perm (g.pid :: s.queuedPids) := by
  cases s with
  | roundRobin s =>
    cases hs
    rw [← hpid]
    exact ⟨trivial, List.perm_append_singleton job.pid s.queue⟩
  | staircase s =>
    obtain ⟨t, ht, rfl⟩ := Option.map_eq_some_iff.mp hs
    exact Staircase.reschedule_spec h hpid hdata h0 ht
  | fair s =>
    obtain ⟨t, ht, rfl⟩ := Option.map_eq_some_iff.mp hs
    exact Fair.reschedule_spec h hdata ht

theorem unschedule_spec (h : s.Owns (g :: out)) (hpid : job.pid = g.pid)
    (hdata : job.data = g.data) (h0 : g.pid ≠ 0) (hs : s.unschedule job = some s') :
    s'.Owns out ∧ s'.queuedPids = s.queuedPids := by
  cases s with
  | roundRobin s =>
    cases hs
    exact ⟨trivial, rfl⟩
  | staircase s =>
    obtain ⟨t, ht, rfl⟩ := Option.map_eq_some_iff.mp hs
    exact Staircase.unschedule_spec h hpid hdata h0 ht
  | fair s =>
    obtain ⟨t, ht, rfl⟩ := Option.map_eq_some_iff.mp hs
    exact Fair.unschedule_spec h hdata ht

/-- A job without scheduler data comes from a dedicated core: a round-robin scheduler
queues it, a fair scheduler ignores it, a staircase scheduler asserts. -/
theorem reschedule_null (h : s.Owns out) (hdata : job.data = 0)
    (hs : s.reschedule cfg job = some s') :
    s'.Owns out ∧ (s'.queuedPids.Perm s.queuedPids ∨
      s'.queuedPids.Perm (job.pid :: s.queuedPids)) := by
  cases s with
  | roundRobin s =>
    cases hs
    exact ⟨trivial, Or.inr (List.perm_append_singleton job.pid s.queue)⟩
  | staircase s =>
    simp [reschedule, Staircase.reschedule, Staircase.entryOf_null hdata] at hs
  | fair s =>
    simp only [reschedule, Fair.reschedule, hdata, if_true] at hs
    cases hs
    exact ⟨h, Or.inl (List.Perm.refl _)⟩

theorem unschedule_null (h : s.Owns out) (hdata : job.data = 0)
    (hs : s.unschedule job = some s') : s'.Owns out ∧ s'.queuedPids = s.queuedPids := by
  cases s with
  | roundRobin s =>
    cases hs
    exact ⟨trivial, rfl⟩
  | staircase s =>
    simp [unschedule, Staircase.unschedule, Staircase.entryOf_null hdata] at hs
  | fair s =>
    simp only [unschedule, Fair.unschedule, hdata, if_true] at hs
    cases hs
    exact ⟨h, rfl⟩

end Scheduler

end Yarns
