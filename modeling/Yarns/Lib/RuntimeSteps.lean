import Yarns.Lib.Runtime

/-!
# What a step of the processor loops can do

`Outcome` lists the steps with the states they lead to, and `step_outcome` is the only
place where the steps are taken apart: what is proved about steps afterwards is proved
by cases on the outcome.
-/

namespace Yarns

/-- The core whose thread makes the step. -/
def Action.core : Action → Option Nat
  | .yarnNew .. | .leastLoad | .hoist .. | .resume _ => none
  | .select core .. | .register core | .yield core .. | .mark core _ | .suspend core _
  | .ret core | .finish core | .parkCore core | .parkJob core => some core

namespace Runtime

/-- The launcher of the yarn on `core` has read the thread data of `core`. -/
def AtHome (rt : Runtime) (core : Nat) : Prop :=
  (rt.blocks (rt.current core)).home = some core

inductive Outcome (cfg : Config) (rt : Runtime) : Action → Runtime → Prop where
  | yarnNew {nice : Int} {block ptr pid : ULong} {m : Master} (hblock : block ≠ 0)
      (hpid : pid = BitVec.ofNat 64 rt.maxpid) (hlt : rt.maxpid + 1 < cfg.maxProcesses)
      (hm : rt.master.masterSchedSchedule cfg ptr pid (prioLookup nice) = some m) :
      Outcome cfg rt (.yarnNew nice block ptr)
        { rt.setBlock block { rt.blocks block with pid, nice, home := none } with
          master := m
          ptable := Function.update rt.ptable pid block
          maxpid := rt.maxpid + 1 }
  | leastLoad {m : Master} {target : Nat}
      (hm : rt.master.selectCoreLeastLoad = some (m, target)) :
      Outcome cfg rt .leastLoad { rt with master := m }
  | hoist {src dst : Nat} {ptr : ULong} {m : Master} (hne : src ≠ dst)
      (hm : rt.master.jobHoist cfg src dst ptr = some m) :
      Outcome cfg rt (.hoist src dst ptr) { rt with master := m }
  /-- no job, or the pid of a dead yarn -/
  | idle {core : Nat} {newTime now : ULong} {ptrs : Nat → List ULong} {m : Master}
      {job : SchedulerJob} {k : Core} (hpc : (rt.cores core).pc = .top)
      (hm : rt.master.masterSchedSelect cfg core (rt.cores core).activeJob newTime ptrs =
        some (m, job)) (hk : k.pc = .top) :
      Outcome cfg rt (.select core newTime ptrs now) ({ rt with master := m }.setCore core k)
  | dispatch {core : Nat} {newTime now : ULong} {ptrs : Nat → List ULong} {m : Master}
      {job : SchedulerJob} (hpc : (rt.cores core).pc = .top)
      (hm : rt.master.masterSchedSelect cfg core (rt.cores core).activeJob newTime ptrs =
        some (m, job)) (h0 : job.pid ≠ 0) (hp : rt.ptable job.pid ≠ 0) :
      Outcome cfg rt (.select core newTime ptrs now)
        ({ rt with master := m }.dispatch core job now)
  | register {core : Nat} (hpc : (rt.cores core).pc = .running) :
      Outcome cfg rt (.register core)
        (rt.setCore core { rt.cores core with pc := .suspending })
  /-- `yarn_yield`, or `yarn_mark` with the time used up -/
  | switch {a : Action} {core : Nat} {ttd : ThreadData}
      (ha : (∃ target t, a = .yield core target t) ∨ ∃ t, a = .mark core t)
      (hpc : (rt.cores core).pc = .running) (hcur : ttd.yarnCurrent = rt.current core)
      (hsus : ttd.shouldSuspend = (rt.cores core).ttd.shouldSuspend) :
      Outcome cfg rt a (rt.switchOut core ttd)
  | goOn {core : Nat} {t : ULong} : Outcome cfg rt (.mark core t) rt
  | suspend {core : Nat} {t : ULong} {ttd : ThreadData}
      (hpc : (rt.cores core).pc = .suspending) (hcur : ttd.yarnCurrent = rt.current core)
      (hsus : ttd.shouldSuspend) :
      Outcome cfg rt (.suspend core t) (rt.switchOut core ttd)
  | ret {core : Nat} (hpc : (rt.cores core).pc = .running) (hhome : rt.AtHome core) :
      Outcome cfg rt (.ret core)
        { rt.switchOut core (rt.cores core).ttd.launcherDone with
          ptable := Function.update rt.ptable (rt.blocks (rt.current core)).pid 0 }
  | stray {core home : Nat} {rt' : Runtime} (hhome : ¬ rt.AtHome core)
      (hpc : (rt'.cores core).pc = .strayed home) : Outcome cfg rt (.ret core) rt'
  | unschedule {core : Nat} {job : SchedulerJob} {m : Master}
      (hpc : (rt.cores core).pc = .switched)
      (hpid : job.pid = (rt.cores core).activeJob.pid)
      (hdata : job.data = (rt.cores core).activeJob.data)
      (hm : rt.master.masterSchedUnschedule cfg core job = some m)
      (hact : (rt.cores core).ttd.afterSwap (rt.cores core).activeJob = .unschedule job) :
      Outcome cfg rt (.finish core) ({ rt with master := m }.setCore core
        { rt.cores core with pc := .top, activeJob := job })
  | reschedule {core : Nat} {job : SchedulerJob} {m : Master}
      (hpc : (rt.cores core).pc = .switched)
      (hpid : job.pid = (rt.cores core).activeJob.pid)
      (hdata : job.data = (rt.cores core).activeJob.data)
      (hm : rt.master.masterSchedReschedule cfg core job = some m)
      (hact : (rt.cores core).ttd.afterSwap (rt.cores core).activeJob = .reschedule job) :
      Outcome cfg rt (.finish core) ({ rt with master := m }.setCore core
        { rt.cores core with pc := .top, activeJob := job })
  | flag {core : Nat} {job : SchedulerJob} (hpc : (rt.cores core).pc = .switched)
      (hpid : job.pid = (rt.cores core).activeJob.pid)
      (hdata : job.data = (rt.cores core).activeJob.data)
      (hrt : (rt.cores core).ttd.runtime ≠ UNSCHEDULE)
      (hsus : (rt.cores core).ttd.shouldSuspend)
      (hpark : (rt.cores core).ttd.afterSwap (rt.cores core).activeJob = .park job) :
      Outcome cfg rt (.finish core) ((rt.setBlock (rt.current core)
          { rt.blocks (rt.current core) with isSuspended := true }).setCore core
        { rt.cores core with pc := .flagged, activeJob := job })
  | parkCore {core : Nat} (hpc : (rt.cores core).pc = .flagged) :
      Outcome cfg rt (.parkCore core) (rt.parkCore core)
  | parkJob {core : Nat} (hpc : (rt.cores core).pc = .placed) :
      Outcome cfg rt (.parkJob core) (rt.parkJob core)
  /-- the yarn is not suspended -/
  | ignore {pid : ULong} : Outcome cfg rt (.resume pid) rt
  | wake {pid : ULong} {m : Master} (hp : rt.ptable pid ≠ 0)
      (hsus : (rt.blocks (rt.ptable pid)).isSuspended)
      (hm : rt.master.masterSchedReschedule cfg (rt.blocks (rt.ptable pid)).suspensionCore
        (rt.blocks (rt.ptable pid)).suspensionJob = some m) :
      Outcome cfg rt (.resume pid)
        { rt.setBlock (rt.ptable pid)
            { rt.blocks (rt.ptable pid) with isSuspended := false } with master := m }

variable {cfg : Config} {rt rt' : Runtime} {a : Action} {core c : Nat} {b block pid : ULong}
  {k : Core} {newTime now : ULong} {ptrs : Nat → List ULong} {nice : Int} {ptr : ULong}

/-! ## Fields of an updated state -/

@[simp] theorem setCore_self : (rt.setCore core k).cores core = k := Function.update_self ..

theorem setCore_of_ne (h : c ≠ core) : (rt.setCore core k).cores c = rt.cores c :=
  Function.update_of_ne h _ _

@[simp] theorem setCore_blocks : (rt.setCore core k).blocks = rt.blocks := rfl

@[simp] theorem current_setCore_self :
    (rt.setCore core k).current core = k.ttd.yarnCurrent := by
  rw [current, setCore_self]

theorem current_setCore_of_ne (h : c ≠ core) :
    (rt.setCore core k).current c = rt.current c := by
  rw [current, setCore_of_ne h, current]

@[simp] theorem setBlock_self {y : YarnBlock} : (rt.setBlock block y).blocks block = y :=
  Function.update_self ..

theorem setBlock_of_ne {y : YarnBlock} (h : b ≠ block) :
    (rt.setBlock block y).blocks b = rt.blocks b := Function.update_of_ne h _ _

/-- A block that is marked after a write without a mark is another block. -/
theorem ne_of_setBlock {y : YarnBlock} (hy : ¬ y.isSuspended)
    (hb : ((rt.setBlock block y).blocks b).isSuspended) : b ≠ block := by
  rintro rfl
  rw [setBlock_self] at hb
  exact hy hb

/-- A write that keeps the pid keeps every pid. -/
theorem setBlock_pid {y : YarnBlock} (h : y.pid = (rt.blocks block).pid) (b : ULong) :
    ((rt.setBlock block y).blocks b).pid = (rt.blocks b).pid := by
  by_cases hb : b = block
  · subst hb
    rw [setBlock_self, h]
  · rw [setBlock_of_ne hb]

/-- A dispatch writes nothing into the block but the home of the launcher. -/
theorem dispatch_block (rt : Runtime) (core : Nat) (job : SchedulerJob) (now : ULong)
    (b : ULong) : ∃ home, (rt.dispatch core job now).blocks b = { rt.blocks b with home } := by
  by_cases hb : b = rt.ptable job.pid
  · subst hb
    exact ⟨_, setBlock_self⟩
  · exact ⟨(rt.blocks b).home, setBlock_of_ne hb⟩

/-! ## The outcomes -/

theorem listInsert_cases (hs : rt.listInsert cfg block nice = some (rt', pid)) :
    pid = BitVec.ofNat 64 rt.maxpid ∧ rt.maxpid + 1 < cfg.maxProcesses ∧
      rt' = { rt.setBlock block { rt.blocks block with pid, nice } with
        ptable := Function.update rt.ptable pid block
        maxpid := rt.maxpid + 1 } := by
  unfold listInsert at hs
  dsimp only at hs
  split at hs
  · rename_i hlt
    cases hs
    exact ⟨rfl, hlt, rfl⟩
  · cases hs

theorem yarnNew_outcome (hs : rt.yarnNew cfg nice block ptr = some rt') :
    Outcome cfg rt (.yarnNew nice block ptr) rt' := by
  unfold yarnNew at hs
  split at hs
  · cases hs
  · rename_i h0
    simp only [Option.bind_eq_bind, Option.bind_eq_some_iff] at hs
    obtain ⟨⟨rt₁, pid⟩, hins, m, hm, hs⟩ := hs
    obtain ⟨hpid, hlt, rfl⟩ := listInsert_cases hins
    cases hs
    simp only [prepareContext, setBlock, Function.update_self, Function.update_idem] at hm ⊢
    exact Outcome.yarnNew h0 hpid hlt hm

theorem processorSelect_outcome (hs : rt.processorSelect cfg core newTime ptrs now = some rt') :
    Outcome cfg rt (.select core newTime ptrs now) rt' := by
  unfold processorSelect at hs
  dsimp only at hs
  split at hs
  · rename_i hpc
    obtain ⟨-, hpc⟩ := hpc
    simp only [Option.bind_eq_bind, Option.bind_eq_some_iff] at hs
    obtain ⟨⟨m, job⟩, hsel, hs⟩ := hs
    dsimp only at hs
    split at hs
    · cases hs
      refine Outcome.idle hpc hsel ?_
      exact hpc
    · rename_i hlive
      obtain ⟨h0, hlive⟩ := not_or.mp hlive
      obtain ⟨-, hptr⟩ := not_or.mp hlive
      cases hs
      exact Outcome.dispatch hpc hsel h0 hptr
  · cases hs

theorem yarnMark_keeps {ttd ttd' : ThreadData} {t : ULong} (h : ttd.yarnMark t = some ttd') :
    ttd'.yarnCurrent = ttd.yarnCurrent ∧ ttd'.shouldSuspend = ttd.shouldSuspend := by
  obtain ⟨-, h⟩ := Option.ite_none_right_eq_some.mp h
  cases h
  exact ⟨rfl, rfl⟩

theorem suspend_current (ttd : ThreadData) (t : ULong) :
    (ttd.suspend t).yarnCurrent = ttd.yarnCurrent := by
  unfold ThreadData.suspend
  dsimp only
  split <;> rfl

theorem launcherDone_home (h : rt.AtHome core) : rt.launcherDone core =
    some { rt.switchOut core (rt.cores core).ttd.launcherDone with
      ptable := Function.update rt.ptable (rt.blocks (rt.current core)).pid 0 } := by
  rw [AtHome] at h
  simp only [launcherDone, h, Option.map_some, if_true, switchOut, setCore, Function.update_self,
    Function.update_idem]

theorem launcherDone_outcome (hpc : (rt.cores core).pc = .running)
    (hs : rt.launcherDone core = some rt') : Outcome cfg rt (.ret core) rt' := by
  by_cases hhome : rt.AtHome core
  · rw [launcherDone_home hhome] at hs
    cases hs
    exact Outcome.ret hpc hhome
  · obtain ⟨home, hb, rfl⟩ := Option.map_eq_some_iff.mp hs
    have hne : home ≠ core := by
      rintro rfl
      exact hhome hb
    have hstray : (if home = core then Pc.switched else .strayed home) = .strayed home :=
      if_neg hne
    exact Outcome.stray hhome ((congrArg Core.pc setCore_self).trans hstray)

/-- The three branches of the loop, each with the job as the loop has completed it. -/
theorem processorFinish_outcome (hpc : (rt.cores core).pc = .switched)
    (hs : rt.processorFinish cfg core = some rt') : Outcome cfg rt (.finish core) rt' := by
  unfold processorFinish at hs
  dsimp only at hs
  by_cases hun : (rt.cores core).ttd.runtime = UNSCHEDULE
  · rw [afterSwap_unschedule hun] at hs
    simp only [Option.bind_eq_bind, Option.bind_eq_some_iff] at hs
    obtain ⟨m, hm, hs⟩ := hs
    cases hs
    exact Outcome.unschedule hpc rfl rfl hm (afterSwap_unschedule hun)
  · cases hsus : (rt.cores core).ttd.shouldSuspend with
    | false =>
      rw [afterSwap_reschedule hun hsus] at hs
      simp only [Option.bind_eq_bind, Option.bind_eq_some_iff] at hs
      obtain ⟨m, hm, hs⟩ := hs
      cases hs
      exact Outcome.reschedule hpc rfl rfl hm (afterSwap_reschedule hun hsus)
    | true =>
      rw [afterSwap_park hun hsus] at hs
      cases hs
      exact Outcome.flag hpc rfl rfl hun hsus (afterSwap_park hun hsus)

/-- A resume that takes effect clears the mark and returns the job saved in the block. -/
theorem yarnResume_cases {handed : Option (Nat × SchedulerJob)}
    (hs : rt.yarnResume cfg pid = some (rt', handed)) :
    rt.ptable pid ≠ 0 ∧
      (¬ (rt.blocks (rt.ptable pid)).isSuspended ∧ rt' = rt ∧ handed = none ∨
        (rt.blocks (rt.ptable pid)).isSuspended ∧
          handed = some ((rt.blocks (rt.ptable pid)).suspensionCore,
            (rt.blocks (rt.ptable pid)).suspensionJob) ∧
          ∃ m, rt.master.masterSchedReschedule cfg (rt.blocks (rt.ptable pid)).suspensionCore
              (rt.blocks (rt.ptable pid)).suspensionJob = some m ∧
            rt' = { rt.setBlock (rt.ptable pid)
                { rt.blocks (rt.ptable pid) with isSuspended := false } with master := m }) := by
  unfold yarnResume at hs
  dsimp only at hs
  split at hs
  · cases hs
  · rename_i h0
    refine ⟨h0, ?_⟩
    split at hs
    · rename_i hsus
      simp only [Option.bind_eq_bind, Option.bind_eq_some_iff] at hs
      obtain ⟨m, hm, hs⟩ := hs
      cases hs
      exact Or.inr ⟨hsus, rfl, m, hm, rfl⟩
    · rename_i hsus
      cases hs
      exact Or.inl ⟨hsus, rfl, rfl⟩

theorem step_outcome (hs : rt.step cfg a = some rt') : Outcome cfg rt a rt' := by
  cases a with
  | yarnNew nice block ptr => exact yarnNew_outcome hs
  | leastLoad =>
    simp only [step, Option.bind_eq_bind, Option.bind_eq_some_iff] at hs
    obtain ⟨⟨m, target⟩, hm, hs⟩ := hs
    cases hs
    exact Outcome.leastLoad hm
  | hoist src dst ptr =>
    obtain ⟨hne, hs⟩ := Option.ite_none_right_eq_some.mp hs
    simp only [Option.bind_eq_bind, Option.bind_eq_some_iff] at hs
    obtain ⟨m, hm, hs⟩ := hs
    cases hs
    exact Outcome.hoist hne hm
  | select core newTime ptrs now => exact processorSelect_outcome hs
  | register core =>
    obtain ⟨hpc, hs⟩ := Option.ite_none_right_eq_some.mp hs
    cases hs
    exact Outcome.register hpc
  | yield core target t =>
    obtain ⟨hpc, hs⟩ := Option.ite_none_right_eq_some.mp hs
    cases hs
    exact Outcome.switch (Or.inl ⟨target, t, rfl⟩) hpc rfl rfl
  | mark core t =>
    obtain ⟨hpc, hs⟩ := Option.ite_none_right_eq_some.mp hs
    cases hmark : (rt.cores core).ttd.yarnMark t with
    | none =>
      rw [hmark] at hs
      cases hs
      exact Outcome.goOn
    | some ttd =>
      rw [hmark] at hs
      cases hs
      obtain ⟨hcur, hsus⟩ := yarnMark_keeps hmark
      exact Outcome.switch (Or.inr ⟨t, rfl⟩) hpc hcur hsus
  | suspend core t =>
    obtain ⟨hpc, hs⟩ := Option.ite_none_right_eq_some.mp hs
    cases hs
    exact Outcome.suspend hpc (suspend_current _ t) (suspend_shouldSuspend _ t)
  | ret core =>
    obtain ⟨hpc, hs⟩ := Option.ite_none_right_eq_some.mp hs
    exact launcherDone_outcome hpc hs
  | finish core =>
    obtain ⟨hpc, hs⟩ := Option.ite_none_right_eq_some.mp hs
    exact processorFinish_outcome hpc hs
  | parkCore core =>
    obtain ⟨hpc, hs⟩ := Option.ite_none_right_eq_some.mp hs
    cases hs
    exact Outcome.parkCore hpc
  | parkJob core =>
    obtain ⟨hpc, hs⟩ := Option.ite_none_right_eq_some.mp hs
    cases hs
    exact Outcome.parkJob hpc
  | resume pid =>
    obtain ⟨⟨rt₁, handed⟩, hres, hs⟩ := Option.map_eq_some_iff.mp hs
    cases hs
    obtain ⟨hp, ⟨-, rfl, -⟩ | ⟨hsus, -, m, hm, rfl⟩⟩ := yarnResume_cases hres
    · exact Outcome.ignore
    · exact Outcome.wake hp hsus hm

/-! ## One core -/

/-- What a step does to the core that makes it. -/
inductive CoreStep (core : Nat) (a : Action) (k k' : Core) : Prop where
  | top (hpc : k'.pc = .top)
  | dispatched (ha : ∃ newTime ptrs now, a = .select core newTime ptrs now)
      (hpc : k'.pc = .running) (hsus : k'.ttd.shouldSuspend = false)
  | registered (ha : a = .register core) (hpc : k.pc = .running)
      (hk : k' = { k with pc := .suspending })
  | switched (hpc : k.pc = .running) (hpc' : k'.pc = .switched)
      (hjob : k'.activeJob = k.activeJob) (hcur : k'.ttd.yarnCurrent = k.ttd.yarnCurrent)
      (hsus : k'.ttd.shouldSuspend = k.ttd.shouldSuspend)
  | suspended (hpc : k.pc = .suspending) (hpc' : k'.pc = .switched)
      (hjob : k'.activeJob = k.activeJob) (hcur : k'.ttd.yarnCurrent = k.ttd.yarnCurrent)
  | stays (hk : k' = k)
  | flagged (ha : a = .finish core) (hpc : k.pc = .switched) (hpc' : k'.pc = .flagged)
      (hpid : k'.activeJob.pid = k.activeJob.pid) (hsus : k.ttd.shouldSuspend)
      (hpark : k.ttd.afterSwap k.activeJob = .park k'.activeJob)
  | placed (ha : a = .parkCore core) (hpc : k.pc = .flagged) (hk : k' = { k with pc := .placed })

/-- The frame of a step: only the core that makes it moves, returns to another core's
loop apart. -/
theorem step_off (hhome : ∀ core, a = .ret core → rt.AtHome core)
    (hs : rt.step cfg a = some rt') (hc : a.core ≠ some c) : rt'.cores c = rt.cores c := by
  have hne : ∀ core, a.core = some core → c ≠ core := by
    rintro core ha rfl
    exact hc ha
  cases step_outcome hs with
  | yarnNew => rfl
  | leastLoad => rfl
  | hoist => rfl
  | idle => exact setCore_of_ne (hne _ rfl)
  | dispatch => exact setCore_of_ne (hne _ rfl)
  | register => exact setCore_of_ne (hne _ rfl)
  | @switch _ core _ ha =>
    rcases ha with ⟨target, t, rfl⟩ | ⟨t, rfl⟩ <;> exact setCore_of_ne (hne core rfl)
  | goOn => rfl
  | suspend => exact setCore_of_ne (hne _ rfl)
  | ret => exact setCore_of_ne (hne _ rfl)
  | stray hstray => exact absurd (hhome _ rfl) hstray
  | unschedule => exact setCore_of_ne (hne _ rfl)
  | reschedule => exact setCore_of_ne (hne _ rfl)
  | flag => exact setCore_of_ne (hne _ rfl)
  | parkCore => exact setCore_of_ne (hne _ rfl)
  | parkJob => exact setCore_of_ne (hne _ rfl)
  | ignore => rfl
  | wake => rfl

theorem step_core (hhome : ∀ core, a = .ret core → rt.AtHome core)
    (hs : rt.step cfg a = some rt') (ha : a.core = some core) :
    CoreStep core a (rt.cores core) (rt'.cores core) := by
  cases step_outcome hs with
  | yarnNew => cases ha
  | leastLoad => cases ha
  | hoist => cases ha
  | idle hpc hm hk =>
    cases ha
    rw [setCore_self]
    exact CoreStep.top hk
  | dispatch =>
    cases ha
    rw [dispatch, setCore_self]
    exact CoreStep.dispatched ⟨_, _, _, rfl⟩ rfl rfl
  | register hpc =>
    cases ha
    rw [setCore_self]
    exact CoreStep.registered rfl hpc rfl
  | @switch _ d ttd haction hpc hcur hsus =>
    have hcore : some d = some core := by
      rcases haction with ⟨target, t, rfl⟩ | ⟨t, rfl⟩ <;> exact ha
    cases hcore
    rw [switchOut, setCore_self]
    exact CoreStep.switched hpc rfl rfl hcur hsus
  | goOn => exact CoreStep.stays rfl
  | suspend hpc hcur =>
    cases ha
    rw [switchOut, setCore_self]
    exact CoreStep.suspended hpc rfl rfl hcur
  | ret hpc =>
    cases ha
    have hself : (rt.switchOut core (rt.cores core).ttd.launcherDone).cores core =
        { rt.cores core with pc := .switched, ttd := (rt.cores core).ttd.launcherDone } :=
      setCore_self
    dsimp only
    rw [hself]
    exact CoreStep.switched hpc rfl rfl rfl rfl
  | stray hstray => exact absurd (hhome _ rfl) hstray
  | unschedule =>
    cases ha
    rw [setCore_self]
    exact CoreStep.top rfl
  | reschedule =>
    cases ha
    rw [setCore_self]
    exact CoreStep.top rfl
  | flag hpc hpid hdata hrt hsus hpark =>
    cases ha
    rw [setCore_self]
    exact CoreStep.flagged rfl hpc rfl hpid hsus hpark
  | parkCore hpc =>
    cases ha
    rw [parkCore, setCore_self]
    exact CoreStep.placed rfl hpc rfl
  | parkJob =>
    cases ha
    rw [parkJob, setCore_self]
    exact CoreStep.top rfl
  | ignore => cases ha
  | wake => cases ha

end Runtime

end Yarns
