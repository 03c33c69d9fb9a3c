import Yarns.Data.FifoRuns
import Yarns.Sched.RoundRobin

/-!
# Runs of the round-robin scheduler

`sched/sched_roundrobin.c` again, on the segments that `data/queue.c` really keeps. Each
call does what it does on a list (`Refines`), so in every run the jobs are handed out in
the order in which they were scheduled and rescheduled, no matter how the calls are mixed,
and deallocating the scheduler gives every segment back (`first_come`).
-/

namespace Yarns.Segmented

open Base

structure RoundRobin where
  queue : Fifo
  heap : Heap

namespace RoundRobin

variable (cfg : Config) (s : RoundRobin) (job : SchedulerJob)

def allocate : RoundRobin := ⟨fifoNew, .empty⟩

/-- `address` is that of the segment should `yalloc` be called. -/
def schedule (pid : ULong) (address : Nat) : Option RoundRobin :=
  (fifoEnqueue s.queue s.heap pid address).map fun r => ⟨r.1, r.2⟩

def select : Option (RoundRobin × SchedulerJob) :=
  if fifoLength s.queue = 0 then
    some (s, { job with pid := 0, runtime := 0 })
  else
    (fifoDequeue s.queue s.heap).map fun r =>
      (⟨r.2.1, r.2.2⟩, { job with pid := r.1, runtime := cfg.timeslice })

def reschedule (address : Nat) : Option RoundRobin :=
  (fifoEnqueue s.queue s.heap job.pid address).map fun r => ⟨r.1, r.2⟩

def unschedule (_job : SchedulerJob) : RoundRobin := s

/-- The queue; the scheduler itself is one more block. -/
def deallocate : Option Heap := fifoFree s.queue s.heap

/-- The segments hold the pids of the list. -/
def Refines (s : RoundRobin) (t : Yarns.RoundRobin) : Prop :=
  ∃ segs, Holds s.queue s.heap segs ∧ contents segs = t.queue

/-- The address handed out by `yalloc` is that of a free block. -/
def Room (address : Nat) : Prop :=
  Grows s.queue s.heap → s.heap.Room sizeofFifoSegment (2 ^ 64) address

instance (address : Nat) : Decidable (s.Room address) := by
  unfold Room Grows
  infer_instance

variable {cfg s job} {t : Yarns.RoundRobin} {pid : ULong} {address : Nat}

theorem allocate_refines : allocate.Refines .allocate := ⟨[], holds_new, rfl⟩

theorem schedule_refines (pid : ULong) (h : s.Refines t) (hroom : s.Room address) :
    ∃ s', s.schedule pid address = some s' ∧ s'.Refines (t.schedule pid) := by
  obtain ⟨segs, hholds, hsegs⟩ := h
  obtain ⟨q, heap, segs', heq, hholds', hsegs'⟩ := hholds.enqueue pid hroom
  refine ⟨⟨q, heap⟩, ?_, segs', hholds', ?_⟩
  · rw [schedule, heq, Option.map_some]
  · rw [hsegs', hsegs]
    rfl

theorem reschedule_refines (job : SchedulerJob) (h : s.Refines t) (hroom : s.Room address) :
    ∃ s', s.reschedule job address = some s' ∧ s'.Refines (t.reschedule job) :=
  schedule_refines job.pid h hroom

theorem select_refines (cfg : Config) (job : SchedulerJob) (h : s.Refines t) :
    ∃ s', s.select cfg job = some (s', (t.select cfg job).2) ∧
      s'.Refines (t.select cfg job).1 := by
  obtain ⟨segs, hholds, hsegs⟩ := h
  have hzero : fifoLength s.queue = 0 ↔ t.queue = [] := by
    rw [← hsegs]
    exact hholds.length_eq_zero
  cases hq : t.queue with
  | nil =>
    rw [Yarns.RoundRobin.select_empty cfg t job hq, select, if_pos (hzero.mpr hq)]
    exact ⟨s, rfl, segs, hholds, hsegs⟩
  | cons pid rest =>
    obtain ⟨q, heap, segs', heq, hholds', hsegs'⟩ := hholds.dequeue (hsegs.trans hq)
    have hne : ¬ fifoLength s.queue = 0 := fun h0 => by
      rw [hzero.mp h0] at hq
      cases hq
    rw [Yarns.RoundRobin.select_cons cfg t job hq, select, if_neg hne, heq, Option.map_some]
    exact ⟨⟨q, heap⟩, rfl, segs', hholds', hsegs'⟩

theorem deallocate_refines (h : s.Refines t) : ∃ heap, s.deallocate = some heap ∧
    heap.freed.Perm (List.range s.heap.allocated) := by
  obtain ⟨segs, hholds, -⟩ := h
  exact hholds.fifoFree

/-! ## Whole runs -/

inductive Call where
  | schedule (pid : ULong) (address : Nat)
  | select (job : SchedulerJob)
  | reschedule (job : SchedulerJob) (address : Nat)
  | unschedule (job : SchedulerJob)

/-- The scheduler with the pids it was given and those it has handed out, oldest first. -/
structure Life where
  sched : RoundRobin
  given : List ULong
  served : List ULong

def Life.start : Life := ⟨allocate, [], []⟩

def Life.step (cfg : Config) (l : Life) : Call → Option Life
  | .schedule pid address =>
    (l.sched.schedule pid address).map fun s => ⟨s, l.given ++ [pid], l.served⟩
  | .select job => (l.sched.select cfg job).map fun r =>
    ⟨r.1, l.given, if r.2.pid = 0 then l.served else l.served ++ [r.2.pid]⟩
  | .reschedule job address =>
    (l.sched.reschedule job address).map fun s => ⟨s, l.given ++ [job.pid], l.served⟩
  | .unschedule job => some { l with sched := l.sched.unschedule job }

/-- Pid 0 stands for no job and is never queued. -/
def Life.Supplied (l : Life) : Call → Prop
  | .schedule pid address => pid ≠ 0 ∧ l.sched.Room address
  | .reschedule job address => job.pid ≠ 0 ∧ l.sched.Room address
  | .select _ => True
  | .unschedule _ => True

instance (l : Life) : ∀ c, Decidable (l.Supplied c)
  | .schedule _ _ => by unfold Life.Supplied; infer_instance
  | .reschedule _ _ => by unfold Life.Supplied; infer_instance
  | .select _ => isTrue trivial
  | .unschedule _ => isTrue trivial

/-- What was given is what was handed out and, after it, what is queued. -/
structure Life.Ordered (l : Life) (queue : List ULong) : Prop where
  refines : l.sched.Refines ⟨queue⟩
  order : l.given = l.served ++ queue
  nonzero : (0 : ULong) ∉ queue

theorem start_ordered : Life.start.Ordered [] :=
  ⟨allocate_refines, rfl, List.not_mem_nil⟩

theorem Life.Ordered.give {l : Life} {queue : List ULong} (h : l.Ordered queue)
    {s : RoundRobin} (hs : s.Refines ⟨queue ++ [pid]⟩) (h0 : pid ≠ 0) :
    (Life.mk s (l.given ++ [pid]) l.served).Ordered (queue ++ [pid]) where
  refines := hs
  order := by
    rw [h.order, List.append_assoc]
  nonzero := by
    intro hm
    rcases List.mem_append.mp hm with hm | hm
    · exact h.nonzero hm
    · exact h0 (List.mem_singleton.mp hm).symm

/-- One call; `Supplied` is all it needs. -/
theorem step_ordered (cfg : Config) {l : Life} {queue : List ULong} {c : Call}
    (h : l.Ordered queue) (hc : l.Supplied c) :
    ∃ l' queue', l.step cfg c = some l' ∧ l'.Ordered queue' := by
  cases c with
  | schedule pid address =>
    obtain ⟨s, hs, hrefines⟩ := schedule_refines pid h.refines hc.2
    refine ⟨_, queue ++ [pid], ?_, h.give hrefines hc.1⟩
    rw [Life.step, hs, Option.map_some]
  | select job =>
    obtain ⟨s, hs, hrefines⟩ := select_refines cfg job h.refines
    cases queue with
    | nil =>
      rw [Yarns.RoundRobin.select_empty cfg _ job rfl] at hs hrefines
      refine ⟨⟨s, l.given, l.served⟩, [], ?_, hrefines, h.order, h.nonzero⟩
      rw [Life.step, hs, Option.map_some]
      rfl
    | cons pid rest =>
      rw [Yarns.RoundRobin.select_cons cfg _ job rfl] at hs hrefines
      have h0 : pid ≠ 0 := fun h0 => h.nonzero (h0 ▸ List.mem_cons_self)
      refine ⟨⟨s, l.given, l.served ++ [pid]⟩, rest, ?_, hrefines, ?_,
        fun hm => h.nonzero (List.mem_cons_of_mem pid hm)⟩
      · rw [Life.step, hs, Option.map_some, if_neg h0]
      · rw [h.order, List.append_assoc]
        rfl
  | reschedule job address =>
    obtain ⟨s, hs, hrefines⟩ := reschedule_refines job h.refines hc.2
    refine ⟨_, queue ++ [job.pid], ?_, h.give hrefines hc.1⟩
    rw [Life.step, hs, Option.map_some]
  | unschedule job => exact ⟨_, queue, rfl, h.refines, h.order, h.nonzero⟩

theorem run_ordered (cfg : Config) {l : Life} {queue : List ULong} {calls : List Call}
    (h : l.Ordered queue) (hcalls : Throughout (Life.step cfg) Life.Supplied l calls) :
    ∃ l' queue', run (Life.step cfg) l calls = some l' ∧ l'.Ordered queue' := by
  induction calls generalizing l queue with
  | nil => exact ⟨l, queue, rfl, h⟩
  | cons c calls ih =>
    obtain ⟨hc, hrest⟩ := hcalls
    obtain ⟨l₁, queue₁, hstep, h₁⟩ := step_ordered cfg h hc
    obtain ⟨l₂, queue₂, hrun, h₂⟩ := ih h₁ (hrest l₁ hstep)
    exact ⟨l₂, queue₂, run_cons_iff.mpr ⟨l₁, hstep, hrun⟩, h₂⟩

/-- A list that goes on as it began repeats its beginning. -/
theorem getElem_cycle {α : Type} {xs ps ys : List α} (h : xs ++ ys = ps ++ xs) (hne : ps ≠ [])
    {i : Nat} (hi : i < xs.length) : xs[i]? = ps[i % ps.length]? := by
  have hpos : 0 < ps.length := List.length_pos_of_ne_nil hne
  induction i using Nat.strongRecOn with
  | ind i ih =>
    have happend : (xs ++ ys)[i]? = xs[i]? := List.getElem?_append_left hi
    rw [← happend, h]
    by_cases hlt : i < ps.length
    · rw [List.getElem?_append_left hlt, Nat.mod_eq_of_lt hlt]
    · have hle : ps.length ≤ i := Nat.le_of_not_lt hlt
      rw [List.getElem?_append_right hle, Nat.mod_eq_sub_mod hle]
      exact ih (i - ps.length) (by omega) (by omega)

/-- No run of calls fails. The pids come out in the order in which they went in, and in turn
where they come back in that order; the next `select` has the first one that is left, with a
whole timeslice, or says that there is none; and `deallocate` releases every segment of the
run exactly once. -/
theorem first_come (cfg : Config) (calls : List Call)
    (hcalls : Throughout (Life.step cfg) Life.Supplied Life.start calls) :
    ∃ l queue, run (Life.step cfg) Life.start calls = some l ∧ l.given = l.served ++ queue ∧
      (∀ pids, pids ≠ [] → l.given = pids ++ l.served →
        ∀ i < l.served.length, l.served[i]? = pids[i % pids.length]?) ∧
      (∀ job, ∃ s, l.sched.select cfg job =
        some (s, (Yarns.RoundRobin.select cfg ⟨queue⟩ job).2)) ∧
      ∃ heap, l.sched.deallocate = some heap ∧
        heap.freed.Perm (List.range l.sched.heap.allocated) := by
  obtain ⟨l, queue, hrun, h⟩ := run_ordered cfg start_ordered hcalls
  refine ⟨l, queue, hrun, h.order, ?_, fun job => ?_, deallocate_refines h.refines⟩
  · intro pids hne hback i hi
    exact getElem_cycle (h.order.symm.trans hback) hne hi
  · obtain ⟨s, hs, -⟩ := select_refines cfg job h.refines
    exact ⟨s, hs⟩

/-- Two yarns that take turns. -/
def turns : List Call :=
  [.schedule 7 4096, .schedule 8 0] ++ (List.replicate 2
    [.select .blank, .reschedule ⟨7, 0, 0, 0, .normal⟩ 0,
      .select .blank, .reschedule ⟨8, 0, 0, 0, .normal⟩ 0]).flatten

theorem first_come_turns : ∃ l, run (Life.step .defaultProfile) Life.start turns = some l ∧
    l.served = [7, 8, 7, 8] ∧ l.given = l.served ++ [7, 8] ∧
      ∃ heap, l.sched.deallocate = some heap := by
  have hcalls : Throughout (Life.step .defaultProfile) Life.Supplied Life.start turns := by
    decide +kernel
  have hserved : (run (Life.step .defaultProfile) Life.start turns).map
      (fun l => (l.served, l.given)) = some ([7, 8, 7, 8], [7, 8, 7, 8, 7, 8]) := by
    decide +kernel
  obtain ⟨l, queue, hrun, -, -, -, heap, hfree, -⟩ := first_come .defaultProfile turns hcalls
  rw [hrun] at hserved
  obtain ⟨hl, hg⟩ := Prod.mk.inj (Option.some.inj hserved)
  exact ⟨l, hrun, hl, by rw [hg, hl]; rfl, heap, hfree⟩

end RoundRobin

end Yarns.Segmented
