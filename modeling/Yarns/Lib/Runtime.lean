import Yarns.Lib.ThreadData
import Yarns.Sched.Master

/-!
# The processor loops

`lib/yarn.c` over the master scheduler: the yarns with their table, the loop
`yarn_processor` of each core, the calls of the yarns, and `yarn_resume` (synergies
COOPERATIVE and MARKED). A step is one call of the master scheduler, one assignment of the
parking branch, or one call of a yarn, and the cores take them in any order. The clock
readings, the addresses of `yalloc` and the block `pool_allocate` returns are arguments of
the steps.

`yarn_new` is one step as a whole: `list_insert` reads and increments `maxpid` and writes
`_ptable` with no lock, so two calls that overlap could be given one pid, and the runs here
are those in which the calls of `yarn_new` do not overlap.

The stacks and the contexts are not modelled, except for the pointer to the thread data
that `yarn_launcher` keeps in the frame of the yarn (`YarnBlock.home`). A thread that
returns into the loop of another core is not followed further.
-/

namespace Yarns

/-- `struct _yarn`. `home` belongs to the context of the yarn: the core whose thread data
`yarn_launcher` has read, which is the core of the first dispatch. -/
structure YarnBlock where
  pid : ULong
  nice : Int
  isSuspended : Bool
  suspensionCore : Nat
  suspensionJob : SchedulerJob
  home : Option Nat
  deriving DecidableEq, Repr

/-- Where the thread of a core is. -/
inductive Pc where
  /-- before `master_sched_select` -/
  | top
  /-- in the yarn -/
  | running
  /-- in the yarn, which has registered with the wait graph -/
  | suspending
  /-- back from the yarn -/
  | switched
  /-- `isSuspended` is set -/
  | flagged
  /-- `suspensionCore` is set as well -/
  | placed
  /-- in the scheduler context of another core -/
  | strayed (home : Nat)
  deriving DecidableEq, Repr

namespace Pc

/-- The core has a job. -/
def busy : Pc → Bool
  | running | suspending | switched | flagged | placed => true
  | top | strayed _ => false

/-- Inside the parking branch. -/
def parks : Pc → Bool
  | flagged | placed => true
  | top | running | suspending | switched | strayed _ => false

theorem busy_of_parks {pc : Pc} (h : pc.parks) : pc.busy := by
  cases pc <;> first | rfl | cases h

end Pc

structure Core where
  pc : Pc
  activeJob : SchedulerJob
  ttd : ThreadData
  deriving DecidableEq, Repr

structure Runtime where
  master : Master
  blocks : ULong → YarnBlock
  ptable : ULong → ULong
  maxpid : Nat
  cores : Nat → Core

def prioLookup (nice : Int) : SchedulerPriority :=
  let nice := if nice > 20 then 20 else nice
  let nice := if nice < -20 then -20 else nice
  if nice = -20 then .titanic
  else if nice ≤ -12 then .veryHigh
  else if nice ≤ -4 then .high
  else if nice ≤ 3 then .normal
  else if nice ≤ 14 then .low
  else .veryLow

/-- The steps of the threads. `ptr` and `ptrs` are addresses from `yalloc`. -/
inductive Action where
  | yarnNew (nice : Int) (block ptr : ULong)
  | leastLoad
  | hoist (src dst : Nat) (ptr : ULong)
  | select (core : Nat) (newTime : ULong) (ptrs : Nat → List ULong) (now : ULong)
  | register (core : Nat)
  | yield (core : Nat) (target t : ULong)
  | mark (core : Nat) (t : ULong)
  | suspend (core : Nat) (t : ULong)
  | ret (core : Nat)
  | finish (core : Nat)
  | parkCore (core : Nat)
  | parkJob (core : Nat)
  | resume (pid : ULong)

namespace Runtime

/-- `yarn_process` before any yarn exists; the pages of the pool and of the process
blocks are zero. A yarn made before the loops start is one made before any select. -/
def start (cfg : Config) (procs : Nat) (prim sec : Int) : Runtime where
  master := masterSchedInit cfg procs prim sec
  blocks := fun _ => ⟨0, 0, false, 0, .blank, none⟩
  ptable := fun _ => 0
  maxpid := 1
  cores := fun _ => ⟨.top, .blank, ⟨0, 0, 0, 0, false⟩⟩

variable (cfg : Config) (rt : Runtime)

def setCore (core : Nat) (c : Core) : Runtime :=
  { rt with cores := Function.update rt.cores core c }

def setBlock (block : ULong) (b : YarnBlock) : Runtime :=
  { rt with blocks := Function.update rt.blocks block b }

/-- The block of the yarn a core is busy with. -/
def current (core : Nat) : ULong := (rt.cores core).ttd.yarnCurrent

/-- `prepare_context`: the launcher has not run yet. -/
def prepareContext (block : ULong) : Runtime :=
  rt.setBlock block { rt.blocks block with home := none }

def listInsert (block : ULong) (nice : Int) : Option (Runtime × ULong) :=
  let pid := BitVec.ofNat 64 rt.maxpid
  if rt.maxpid + 1 < cfg.maxProcesses then
    let rt := { rt with maxpid := rt.maxpid + 1, ptable := Function.update rt.ptable pid block }
    some (rt.setBlock block { rt.blocks block with pid, nice }, pid)
  else none

/-- The whole call is one step: that another `yarn_new` overlaps with it is not modelled. -/
def yarnNew (nice : Int) (block ptr : ULong) : Option Runtime :=
  if block = 0 then none else do
    let (rt, pid) ← (rt.prepareContext block).listInsert cfg block nice
    let master ← rt.master.masterSchedSchedule cfg ptr pid (prioLookup nice)
    some { rt with master }

/-- The loop switches to the yarn; on its first dispatch `yarn_launcher` reads the
thread data. -/
def dispatch (core : Nat) (job : SchedulerJob) (now : ULong) : Runtime :=
  let yarn := rt.ptable job.pid
  let b := rt.blocks yarn
  (rt.setBlock yarn { b with home := some (b.home.getD core) }).setCore core
    ⟨.running, job, .dispatch yarn job now⟩

/-- From the top of the loop to the switch, or back to the top where there is no yarn to
switch to. -/
def processorSelect (core : Nat) (newTime : ULong) (ptrs : Nat → List ULong) (now : ULong) :
    Option Runtime :=
  let c := rt.cores core
  if core < rt.master.nprocs ∧ c.pc = .top then do
    let (master, job) ← rt.master.masterSchedSelect cfg core c.activeJob newTime ptrs
    let rt : Runtime := { rt with master }
    if job.pid = 0 ∨ rt.maxpid ≤ job.pid.toNat ∨ rt.ptable job.pid = 0 then
      some (rt.setCore core { c with
        activeJob := job
        ttd := { c.ttd with shouldSuspend := false } })
    else some (rt.dispatch core job now)
  else none

/-- The yarn on `core` switches to the loop, which finds `ttd`. -/
def switchOut (core : Nat) (ttd : ThreadData) : Runtime :=
  rt.setCore core { rt.cores core with pc := .switched, ttd }

/-- The routine returns: the rest of `yarn_launcher`. -/
def launcherDone (core : Nat) : Option Runtime :=
  (rt.blocks (rt.current core)).home.map fun home =>
    let pid := (rt.blocks (rt.current core)).pid
    let rt := { rt with ptable := Function.update rt.ptable pid 0 }
    let rt := rt.setCore home { rt.cores home with ttd := (rt.cores home).ttd.launcherDone }
    -- the scheduler context that is switched to is that of `home`
    rt.setCore core { rt.cores core with pc := if home = core then .switched else .strayed home }

/-- The loop after the switch back; the parking branch has only set `isSuspended` yet. -/
def processorFinish (core : Nat) : Option Runtime :=
  let c := rt.cores core
  match c.ttd.afterSwap c.activeJob with
  | .unschedule job => do
    let master ← rt.master.masterSchedUnschedule cfg core job
    some ({ rt with master }.setCore core { c with pc := .top, activeJob := job })
  | .park job =>
    let b := rt.blocks (rt.current core)
    some ((rt.setBlock (rt.current core) { b with isSuspended := true }).setCore core
      { c with pc := .flagged, activeJob := job })
  | .reschedule job => do
    let master ← rt.master.masterSchedReschedule cfg core job
    some ({ rt with master }.setCore core { c with pc := .top, activeJob := job })

def parkCore (core : Nat) : Runtime :=
  let b := rt.blocks (rt.current core)
  (rt.setBlock (rt.current core) { b with suspensionCore := core }).setCore core
    { rt.cores core with pc := .placed }

def parkJob (core : Nat) : Runtime :=
  let c := rt.cores core
  let b := rt.blocks (rt.current core)
  (rt.setBlock (rt.current core) { b with suspensionJob := c.activeJob }).setCore core
    { c with pc := .top }

/-- `yarn_resume`, and the core and the job it hands to `master_sched_reschedule` where
it takes effect. -/
def yarnResume (pid : ULong) : Option (Runtime × Option (Nat × SchedulerJob)) :=
  let block := rt.ptable pid
  let b := rt.blocks block
  if block = 0 then none
  else if b.isSuspended then do
    let rt := rt.setBlock block { b with isSuspended := false }
    let master ← rt.master.masterSchedReschedule cfg b.suspensionCore b.suspensionJob
    some ({ rt with master }, some (b.suspensionCore, b.suspensionJob))
  else some (rt, none)

def step : Action → Option Runtime
  | .yarnNew nice block ptr => rt.yarnNew cfg nice block ptr
  | .leastLoad => do
    let (master, _) ← rt.master.selectCoreLeastLoad
    some { rt with master }
  | .hoist src dst ptr =>
    if src ≠ dst then do
      let master ← rt.master.jobHoist cfg src dst ptr
      some { rt with master }
    else none
  | .select core newTime ptrs now => rt.processorSelect cfg core newTime ptrs now
  | .register core =>
    if (rt.cores core).pc = .running then
      some (rt.setCore core { rt.cores core with pc := .suspending })
    else none
  | .yield core target t =>
    if (rt.cores core).pc = .running then
      some (rt.switchOut core ((rt.cores core).ttd.yarnYield target t))
    else none
  | .mark core t =>
    if (rt.cores core).pc = .running then
      match (rt.cores core).ttd.yarnMark t with
      | some ttd => some (rt.switchOut core ttd)
      | none => some rt
    else none
  | .suspend core t =>
    if (rt.cores core).pc = .suspending then
      some (rt.switchOut core ((rt.cores core).ttd.suspend t))
    else none
  | .ret core => if (rt.cores core).pc = .running then rt.launcherDone core else none
  | .finish core => if (rt.cores core).pc = .switched then rt.processorFinish cfg core else none
  | .parkCore core => if (rt.cores core).pc = .flagged then some (rt.parkCore core) else none
  | .parkJob core => if (rt.cores core).pc = .placed then some (rt.parkJob core) else none
  | .resume pid => (rt.yarnResume cfg pid).map Prod.fst

end Runtime

end Yarns
