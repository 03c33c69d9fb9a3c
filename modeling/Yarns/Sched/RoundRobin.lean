import Yarns.Data.Queue
import Yarns.Sched.Job

/-!
# The round-robin scheduler

`sched/sched_roundrobin.c`: one queue of pids. `select` leaves `job->data` as it was.
-/

namespace Yarns

structure RoundRobin where
  queue : Fifo

namespace RoundRobin

variable (cfg : Config) (s : RoundRobin) (job : SchedulerJob)

def allocate : RoundRobin := ⟨fifoNew⟩

def schedule (pid : ULong) : RoundRobin := ⟨fifoEnqueue s.queue pid⟩

def select : RoundRobin × SchedulerJob :=
  if fifoLength s.queue = 0 then
    (s, { job with pid := 0, runtime := 0 })
  else
    let (pid, queue) := fifoDequeue s.queue
    (⟨queue⟩, { job with pid, runtime := cfg.timeslice })

def reschedule : RoundRobin := ⟨fifoEnqueue s.queue job.pid⟩

def unschedule (_job : SchedulerJob) : RoundRobin := s

theorem select_empty (h : s.queue = []) :
    s.select cfg job = (s, { job with pid := 0, runtime := 0 }) := by
  simp [select, fifoLength, h]

theorem select_cons {pid : ULong} {rest : Fifo} (h : s.queue = pid :: rest) :
    s.select cfg job = (⟨rest⟩, { job with pid, runtime := cfg.timeslice }) := by
  simp [select, fifoLength, fifoDequeue, h]

end RoundRobin

end Yarns
