import Yarns.Base.Handle
import Yarns.Data.Rbtree
import Yarns.Sched.Job

/-!
# The completely fair scheduler

`sched/sched_fair.c`: a timeline of tasks keyed by virtual time. Tasks live on the heap;
`job->data` and the tree hold their addresses. An operation is `none` where an `assert`
fails, where the code dereferences an address that is not a task, or where the search
for a free key never ends. The field `load` is written and never read; it is left out.
-/

namespace Yarns

open Base

def SCHED_FAIR_MIN_GRANULARITY : ULong := 50

structure SchedulerTask where
  pid : ULong
  runtime : ULong
  timebase : ULong
  weight : ℚ
  inverseWeight : ℚ

structure Fair where
  processTree : Rbtree
  timebaseOffset : ULong
  tasks : ULong → Option SchedulerTask

/-- The decimals of the source as exact rationals. The stored `float`s of 0.6 and 0.2 are a
little larger, so that the weights of LOW, VERY_LOW and VERY_LOW add up to 1 here and to more
than 1 there. -/
def prioToWeight : SchedulerPriority → ℚ
  | .titanic => 5
  | .veryHigh => 3
  | .high => 2
  | .normal => 1
  | .low => 3 / 5
  | .veryLow => 1 / 5

namespace Fair

variable (cfg : Config) (s : Fair) (job : SchedulerJob)

def allocate : Fair := ⟨rbtreeNew, 0, fun _ => none⟩

/-- `while (rbtree_search(tree, timebase, 0)) timebase++`, for at most `fuel` probes. -/
def freeKey (tree : Rbtree) : Nat → ULong → Option ULong
  | 0, _ => none
  | fuel + 1, timebase =>
    if (rbtreeSearch tree timebase).isSome then freeKey tree fuel (timebase + 1)
    else some timebase

/-- The probes are of distinct keys until they wrap around, so one probe more than the
tree has keys finds a free key, or there is none. -/
def timelineInsert (task : SchedulerTask) (ptr timebase : ULong) : Option Fair := do
  let timebase := timebase + SCHED_FAIR_MIN_GRANULARITY
  let timebaseOffset := s.timebaseOffset + SCHED_FAIR_MIN_GRANULARITY
  let timebase := timebase + timebaseOffset
  let timebase ← freeKey s.processTree (rbtreeSize s.processTree + 1) timebase
  some {
    processTree := rbtreeInsert s.processTree timebase ptr
    timebaseOffset
    tasks := Function.update s.tasks ptr (some { task with timebase }) }

/-- The lowest virtual time, `0` on an empty timeline. -/
def lowestTime : Option ULong :=
  if rbtreeEmpty s.processTree then some 0 else rbtreeMin s.processTree

def schedule (ptr pid : ULong) (prio : SchedulerPriority) : Option Fair :=
  -- `yalloc` returns neither a null pointer nor a block in use
  if ptr = 0 ∨ ptr = 1 ∨ (s.tasks ptr).isSome then none else do
    let lowest ← s.lowestTime
    let weight := prioToWeight prio
    s.timelineInsert ⟨pid, 0, 0, weight, 1 / weight⟩ ptr lowest

def reschedule : Option Fair :=
  if job.data = 0 then some s else do
    let lastTask ← s.tasks job.data
    if lastTask.runtime < job.runtime then none else do
      let used := lastTask.runtime - job.runtime
      let s ← s.timelineInsert lastTask job.data
        (cfg.fairAdvance lastTask.timebase used lastTask.inverseWeight)
      some { s with timebaseOffset := 0 }

def unschedule : Option Fair :=
  if job.data = 0 then some s else do
    let _ ← s.tasks job.data
    some { s with tasks := Function.update s.tasks job.data none }

/-- How long the task with key `lowest` runs, `tree` being the timeline without it. -/
def slice (tree : Rbtree) (lowest : ULong) : Option ULong :=
  if rbtreeEmpty tree then some (cfg.timeslices 10) else do
    let mmin ← rbtreeMin tree
    let rt := mmin - lowest
    some (if rt < SCHED_FAIR_MIN_GRANULARITY then SCHED_FAIR_MIN_GRANULARITY else rt)

def select : Option (Fair × SchedulerJob) :=
  if rbtreeEmpty s.processTree then
    some (s, { job with pid := 0, runtime := 0, data := 0 })
  else do
    let lowest ← rbtreeMin s.processTree
    let ptr ← rbtreeSearch s.processTree lowest
    let lastTask ← s.tasks ptr
    let processTree := rbtreeRemove s.processTree lowest
    let runtime ← slice cfg processTree lowest
    some ({ s with
      processTree
      tasks := Function.update s.tasks ptr (some { lastTask with runtime }) },
      { job with pid := lastTask.pid, runtime, data := ptr })

/-! ## Where the tasks are -/

def queuedPids : List ULong := owners s.tasks SchedulerTask.pid s.processTree.values

/-- Every task is in the timeline once or out with one job. -/
structure Owns (s : Fair) (out : List SchedulerJob) : Prop where
  owned : Owned s.tasks SchedulerTask.pid s.processTree.values (out.map fun g => (g.data, g.pid))
  null : s.tasks 0 = none

variable {cfg s} {s' : Fair} {job} {job' g : SchedulerJob} {out : List SchedulerJob}
  {ptr pid : ULong} {prio : SchedulerPriority}

theorem freeKey_spec {tree : Rbtree} {fuel : Nat} {timebase key : ULong}
    (h : freeKey tree fuel timebase = some key) : key ∉ tree.keys := by
  induction fuel generalizing timebase with
  | zero => cases h
  | succ fuel ih =>
    rw [freeKey] at h
    split at h
    · exact ih h
    · rename_i hnone
      cases h
      exact OrderedMap.find?_eq_none.mp (by simpa [rbtreeSearch] using hnone)

theorem allocate_owns : allocate.Owns [] where
  owned := ⟨List.nodup_nil, by simp [allocate, rbtreeNew, OrderedMap.empty, OrderedMap.values],
    by simp⟩
  null := rfl

theorem Owns.perm {out' : List SchedulerJob} (h : s.Owns out) (hp : out.Perm out') :
    s.Owns out' :=
  { h with owned := h.owned.perm (List.Perm.refl _) (hp.map _) }

/-- What the insertion does to the tree and to the heap. -/
theorem timelineInsert_spec {task : SchedulerTask} {timebase : ULong}
    (h : s.timelineInsert task ptr timebase = some s') :
    ∃ key, s'.processTree.values.Perm (ptr :: s.processTree.values) ∧
      s'.tasks = Function.update s.tasks ptr (some { task with timebase := key }) := by
  simp only [timelineInsert, Option.bind_eq_bind, Option.bind_eq_some_iff,
    Option.some.injEq] at h
  obtain ⟨key, hkey, rfl⟩ := h
  exact ⟨key, OrderedMap.values_insert ptr (freeKey_spec hkey), rfl⟩

theorem schedule_spec (h : s.Owns out) (hs : s.schedule ptr pid prio = some s') :
    s'.Owns out ∧ s'.queuedPids.Perm (pid :: s.queuedPids) := by
  unfold schedule at hs
  split at hs
  · cases hs
  · rename_i hfresh
    simp only [not_or, Option.not_isSome_iff_eq_none] at hfresh
    obtain ⟨h0, -, hptr⟩ := hfresh
    obtain ⟨lowest, -, hs⟩ := Option.bind_eq_some_iff.mp hs
    obtain ⟨key, hvalues, htasks⟩ := timelineInsert_spec hs
    obtain ⟨howned, howners⟩ := h.owned.alloc hptr
      ⟨pid, 0, key, prioToWeight prio, 1 / prioToWeight prio⟩
    rw [← htasks] at howned howners
    refine ⟨⟨howned.perm hvalues.symm (List.Perm.refl _), ?_⟩, ?_⟩
    · rw [htasks]
      exact update_eq_none h.null fun he => absurd he.symm h0
    · exact (owners_perm hvalues).trans (List.Perm.of_eq howners)

/-- The task behind a job that is out. -/
theorem task_out (h : s.Owns (g :: out)) :
    ∃ task, s.tasks g.data = some task ∧ task.pid = g.pid ∧ g.data ≠ 0 := by
  obtain ⟨task, htask, howner⟩ := h.owned.outLive (g.data, g.pid)
    (List.mem_map.mpr ⟨g, List.mem_cons_self, rfl⟩)
  refine ⟨task, htask, howner, ?_⟩
  intro hz
  rw [hz, h.null] at htask
  cases htask

theorem reschedule_spec (h : s.Owns (g :: out)) (hdata : job.data = g.data)
    (hs : s.reschedule cfg job = some s') :
    s'.Owns out ∧ s'.queuedPids.Perm (g.pid :: s.queuedPids) := by
  obtain ⟨task, htask, howner, hne⟩ := task_out h
  rw [reschedule, hdata, if_neg hne, htask] at hs
  simp only [Option.bind_eq_bind, Option.bind_some] at hs
  split at hs
  · cases hs
  · obtain ⟨t, ht, hs⟩ := Option.bind_eq_some_iff.mp hs
    cases hs
    obtain ⟨key, hvalues, htasks⟩ := timelineInsert_spec ht
    obtain ⟨howned, howners⟩ := h.owned.giveBack { task with timebase := key } howner
    rw [← htasks] at howned howners
    refine ⟨⟨howned.perm hvalues.symm (List.Perm.refl _), ?_⟩, ?_⟩
    · rw [htasks]
      exact update_eq_none h.null fun he => absurd he.symm hne
    · exact (owners_perm hvalues).trans (List.Perm.of_eq howners)

theorem unschedule_spec (h : s.Owns (g :: out)) (hdata : job.data = g.data)
    (hs : s.unschedule job = some s') :
    s'.Owns out ∧ s'.queuedPids = s.queuedPids := by
  obtain ⟨task, htask, -, hne⟩ := task_out h
  rw [unschedule, hdata, if_neg hne, htask] at hs
  cases hs
  obtain ⟨howned, howners⟩ := h.owned.drop
  exact ⟨⟨howned, update_eq_none h.null fun _ => rfl⟩, howners⟩

theorem select_spec (h : s.Owns out) (hs : s.select cfg job = some (s', job')) :
    (job'.pid = 0 ∧ s'.Owns out ∧ s'.queuedPids.Perm s.queuedPids) ∨
      (s'.Owns (job' :: out) ∧ s.queuedPids.Perm (job'.pid :: s'.queuedPids)) := by
  unfold select at hs
  split at hs
  · cases hs
    exact Or.inl ⟨rfl, h, List.Perm.refl _⟩
  · simp only [Option.bind_eq_bind, Option.bind_eq_some_iff] at hs
    obtain ⟨lowest, hmin, ptr, hsearch, task, htask, runtime, -, hs⟩ := hs
    cases hs
    obtain ⟨v, rest, hentries, herase, hfind, -⟩ := OrderedMap.min?_eq_some hmin
    obtain rfl : v = ptr := Option.some.inj (hfind.symm.trans hsearch)
    have hvalues : s.processTree.values = v :: (s.processTree.erase lowest).values := by
      rw [OrderedMap.values, hentries, OrderedMap.values, herase]
      rfl
    have howned := h.owned
    rw [hvalues] at howned
    obtain ⟨howned, howners⟩ := howned.take htask { task with runtime } rfl
    refine Or.inr ⟨⟨howned, ?_⟩, ?_⟩
    · refine update_eq_none h.null fun he => ?_
      rw [← he, h.null] at htask
      cases htask
    · rw [queuedPids, hvalues, owners_cons htask]
      exact (List.Perm.of_eq howners.symm).cons _

end Fair

end Yarns
