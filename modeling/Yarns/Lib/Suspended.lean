import Yarns.Lib.Completion

/-!
# A suspended yarn does not run

The parking branch suspends a yarn by not returning its job to the master scheduler. On
a core that is dedicated to the yarn this does not help: `master_sched_select` answers
from `single_jobs` without asking a scheduler. `suspended_never_dispatched` says that in
a run in which no yarn is parked on a core dedicated to it, and whose steps are regular,
no core ever dispatches a yarn that is marked as suspended.
-/

namespace Yarns.Runtime

open Base Master

/-- The yarn a select switches to is not marked as suspended. -/
def NoSuspendedDispatch (rt : Runtime) (a : Action) (rt' : Runtime) : Prop :=
  ∀ core newTime ptrs now, a = .select core newTime ptrs now →
    (rt'.cores core).pc = .running → ¬ (rt.blocks (rt'.current core)).isSuspended

/-- No yarn is parked on the core that is dedicated to it. -/
def ParksShared (rt : Runtime) (a : Action) : Prop :=
  ∀ core job, a = .finish core →
    (rt.cores core).ttd.afterSwap (rt.cores core).activeJob = .park job →
    rt.master.singleJobs core ≠ (rt.cores core).activeJob.pid

/-- A yarn marked as suspended has no core of its own, and the only core busy with it is
the one that is still parking it. -/
structure Asleep (rt : Runtime) : Prop where
  inv : Inv rt
  shared : ∀ b, (rt.blocks b).isSuspended → ∀ c, rt.master.singleJobs c ≠ (rt.blocks b).pid
  still : ∀ c, (rt.cores c).pc.busy → (rt.blocks (rt.current c)).isSuspended →
    (rt.cores c).pc.parks

variable {cfg : Config} {rt rt' : Runtime} {a : Action} {core c : Nat} {b : ULong}
  {newTime now : ULong} {ptrs : Nat → List ULong}

theorem start_asleep (cfg : Config) (procs : Nat) (prim sec : Int) :
    Asleep (start cfg procs prim sec) where
  inv := Inv.start cfg procs prim sec
  shared := fun _ h => by cases h
  still := fun _ h => by cases h

/-- What a step does to the dedicated jobs: it keeps them, frees a core, or dedicates a
core to a new pid. -/
theorem step_single (h : Inv rt) (hreg : rt.Regular a) (hs : rt.step cfg a = some rt')
    (c : Nat) : rt'.master.singleJobs c = rt.master.singleJobs c ∨
      rt'.master.singleJobs c = 0 ∨ rt.maxpid ≤ (rt'.master.singleJobs c).toNat := by
  obtain ⟨l, hl⟩ := h.backed
  cases step_outcome hs with
  | yarnNew hblock hpid hlt hm =>
    obtain ⟨hn, h0⟩ := h.pid_new cfg hlt hpid
    rcases (hl.schedule h0 hn hm).1 c with hc | hc
    · exact Or.inl hc
    · refine Or.inr (Or.inr ?_)
      dsimp only
      rw [hc, hn]
  | leastLoad hm => exact Or.inl (congrFun (hl.leastLoad hm).1 c)
  | hoist hne hm => exact Or.inl (congrFun (hl.hoist hne hm).1 c)
  | @idle core _ _ _ _ _ _ hpc hm => exact Or.inl (congrFun (hl.select (.core core) hm).1 c)
  | @dispatch core _ _ _ _ _ hpc hm => exact Or.inl (congrFun (hl.select (.core core) hm).1 c)
  | register => exact Or.inl rfl
  | switch => exact Or.inl rfl
  | goOn => exact Or.inl rfl
  | suspend => exact Or.inl rfl
  | ret => exact Or.inl rfl
  | stray hhome => exact absurd hreg hhome
  | unschedule hpc hpid hdata hm =>
    have hlent := lent_core (busy_of_pc hpc rfl)
    exact ((hl.unschedule hlent hpid hdata (fun o o' j j' => h.alone) hm).1 c).imp_right Or.inl
  | reschedule hpc hpid hdata hm =>
    have hlent := lent_core (busy_of_pc hpc rfl)
    exact Or.inl (congrFun (hl.reschedule hlent hpid hdata hm).1 c)
  | flag => exact Or.inl rfl
  | parkCore => exact Or.inl rfl
  | parkJob => exact Or.inl rfl
  | ignore => exact Or.inl rfl
  | wake hp hsus hm =>
    exact Or.inl (congrFun (hl.reschedule (lent_block hsus hreg) rfl rfl hm).1 c)

/-- A write that keeps the mark and the pid of a block keeps all marks and pids. -/
theorem setBlock_mark {block : ULong} {y : YarnBlock}
    (hy : y.isSuspended = (rt.blocks block).isSuspended) (hpid : y.pid = (rt.blocks block).pid)
    (h : ((rt.setBlock block y).blocks b).isSuspended) :
    (rt.blocks b).isSuspended ∧ ((rt.setBlock block y).blocks b).pid = (rt.blocks b).pid := by
  refine ⟨?_, setBlock_pid hpid b⟩
  by_cases hb : b = block
  · subst hb
    rw [setBlock_self, hy] at h
    exact h
  · rw [setBlock_of_ne hb] at h
    exact h

/-- Only the parking branch marks a yarn as suspended. -/
theorem step_mark (h : Inv rt) (hreg : rt.Regular a) (hs : rt.step cfg a = some rt')
    (hb : (rt'.blocks b).isSuspended) : (rt'.blocks b).pid = (rt.blocks b).pid ∧
      ((rt.blocks b).isSuspended ∨ ∃ core job, a = .finish core ∧ b = rt.current core ∧
        (rt.cores core).ttd.afterSwap (rt.cores core).activeJob = .park job ∧
        (rt.cores core).pc = .switched ∧ (rt'.cores core).pc.parks ∧
        (rt.cores core).ttd.shouldSuspend) := by
  cases step_outcome hs with
  | @yarnNew _ block _ _ _ hblock hpid hlt hm =>
    have hne : b ≠ block := by
      refine ne_of_setBlock ?_ hb
      exact h.not_suspended_of_fresh hreg
    dsimp only at hb ⊢
    rw [setBlock_of_ne hne] at hb ⊢
    exact ⟨rfl, Or.inl hb⟩
  | leastLoad => exact ⟨rfl, Or.inl hb⟩
  | hoist => exact ⟨rfl, Or.inl hb⟩
  | idle => exact ⟨rfl, Or.inl hb⟩
  | @dispatch core _ now _ m job =>
    obtain ⟨home, hblock⟩ := dispatch_block { rt with master := m } core job now b
    rw [hblock] at hb ⊢
    exact ⟨rfl, Or.inl hb⟩
  | register => exact ⟨rfl, Or.inl hb⟩
  | switch => exact ⟨rfl, Or.inl hb⟩
  | goOn => exact ⟨rfl, Or.inl hb⟩
  | suspend => exact ⟨rfl, Or.inl hb⟩
  | ret => exact ⟨rfl, Or.inl hb⟩
  | stray hhome => exact absurd hreg hhome
  | unschedule => exact ⟨rfl, Or.inl hb⟩
  | reschedule => exact ⟨rfl, Or.inl hb⟩
  | @flag core job hpc hpid hdata hrt hsus hpark =>
    refine ⟨setBlock_pid (by rfl) b, ?_⟩
    by_cases hbc : b = rt.current core
    · exact Or.inr ⟨core, job, rfl, hbc, hpark, hpc, by rw [setCore_self]; rfl, hsus⟩
    · rw [setCore_blocks, setBlock_of_ne hbc] at hb
      exact Or.inl hb
  | parkCore =>
    obtain ⟨hb', hpid⟩ := setBlock_mark (by rfl) (by rfl) hb
    exact ⟨hpid, Or.inl hb'⟩
  | parkJob =>
    obtain ⟨hb', hpid⟩ := setBlock_mark (by rfl) (by rfl) hb
    exact ⟨hpid, Or.inl hb'⟩
  | ignore => exact ⟨rfl, Or.inl hb⟩
  | @wake pid =>
    have hne : b ≠ rt.ptable pid := ne_of_setBlock Bool.false_ne_true hb
    dsimp only at hb ⊢
    rw [setBlock_of_ne hne] at hb ⊢
    exact ⟨rfl, Or.inl hb⟩

/-- What a parked block has saved is written by the last assignment of the parking branch
and by no other step. -/
theorem step_saved (h : Inv rt) (hreg : rt.Regular a) (hs : rt.step cfg a = some rt')
    (hb : (rt'.blocks b).isSuspended) (hnp : ¬ rt'.Parking b) :
    (∃ core, a = .parkJob core ∧ b = rt.current core ∧ (rt.cores core).pc = .placed ∧
      rt'.blocks b = { rt.blocks b with suspensionJob := (rt.cores core).activeJob }) ∨
    ((rt.blocks b).isSuspended ∧ ¬ rt.Parking b ∧
      ∃ home, rt'.blocks b = { rt.blocks b with home }) := by
  -- a step of a core that is not parking, and that writes at most a home
  have hout : ∀ {core k}, ¬ (rt.cores core).pc.parks → rt'.cores = (rt.setCore core k).cores →
      ¬ rt.Parking b := by
    intro core k hold hcores hp
    refine hnp ?_
    simp only [Parking, current, hcores]
    exact hp.setCore fun hparks _ => absurd hparks hold
  cases step_outcome hs with
  | @yarnNew _ block _ _ _ hblock hpid hlt hm =>
    have hne : b ≠ block := by
      refine ne_of_setBlock ?_ hb
      exact h.not_suspended_of_fresh hreg
    dsimp only at hb ⊢
    rw [setBlock_of_ne hne] at hb ⊢
    exact Or.inr ⟨hb, hnp, _, rfl⟩
  | leastLoad => exact Or.inr ⟨hb, hnp, _, rfl⟩
  | hoist => exact Or.inr ⟨hb, hnp, _, rfl⟩
  | idle hpc => exact Or.inr ⟨hb, hout (not_parks hpc rfl) rfl, _, rfl⟩
  | @dispatch core _ now _ m job hpc =>
    obtain ⟨home, hblock⟩ := dispatch_block { rt with master := m } core job now b
    rw [hblock] at hb
    exact Or.inr ⟨hb, hout (not_parks hpc rfl) rfl, home, hblock⟩
  | register hpc => exact Or.inr ⟨hb, hout (not_parks hpc rfl) rfl, _, rfl⟩
  | switch ha hpc =>
    exact Or.inr ⟨hb, hout (not_parks hpc rfl) rfl, _, rfl⟩
  | goOn => exact Or.inr ⟨hb, hnp, _, rfl⟩
  | suspend hpc => exact Or.inr ⟨hb, hout (not_parks hpc rfl) rfl, _, rfl⟩
  | ret hpc => exact Or.inr ⟨hb, hout (not_parks hpc rfl) rfl, _, rfl⟩
  | stray hhome => exact absurd hreg hhome
  | unschedule hpc => exact Or.inr ⟨hb, hout (not_parks hpc rfl) rfl, _, rfl⟩
  | reschedule hpc => exact Or.inr ⟨hb, hout (not_parks hpc rfl) rfl, _, rfl⟩
  | @flag core job hpc =>
    have hne : b ≠ rt.current core := by
      rintro rfl
      exact hnp ⟨core, by rw [setCore_self]; rfl, current_setCore_self⟩
    have hp := hout (not_parks hpc rfl) rfl
    rw [setCore_blocks, setBlock_of_ne hne] at hb ⊢
    exact Or.inr ⟨hb, hp, _, rfl⟩
  | @parkCore core hpc =>
    have hne : b ≠ rt.current core := by
      rintro rfl
      exact hnp ⟨core, congrArg (fun k => k.pc.parks) setCore_self, current_setCore_self⟩
    have hp : ¬ rt.Parking b := fun hp => hnp (hp.setCore fun _ hcur => absurd hcur.symm hne)
    have hblock : (rt.parkCore core).blocks b = rt.blocks b := setBlock_of_ne hne
    rw [hblock] at hb ⊢
    exact Or.inr ⟨hb, hp, _, rfl⟩
  | @parkJob core hpc =>
    by_cases hne : b = rt.current core
    · subst hne
      exact Or.inl ⟨core, rfl, rfl, hpc, setBlock_self⟩
    · have hp : ¬ rt.Parking b := fun hp => hnp (hp.setCore fun _ hcur => absurd hcur.symm hne)
      have hblock : (rt.parkJob core).blocks b = rt.blocks b := setBlock_of_ne hne
      rw [hblock] at hb ⊢
      exact Or.inr ⟨hb, hp, _, rfl⟩
  | ignore => exact Or.inr ⟨hb, hnp, _, rfl⟩
  | @wake pid =>
    have hne : b ≠ rt.ptable pid := ne_of_setBlock Bool.false_ne_true hb
    dsimp only at hb ⊢
    rw [setBlock_of_ne hne] at hb ⊢
    exact Or.inr ⟨hb, hnp, _, rfl⟩

namespace Asleep

/-- The pid of a yarn marked as suspended is a pid that has been given out. -/
theorem pid_spec (h : Asleep rt) (hb : (rt.blocks b).isSuspended) :
    (rt.blocks b).pid ≠ 0 ∧ (rt.blocks b).pid.toNat < rt.maxpid := by
  obtain ⟨hb0, hbt, -⟩ := h.inv.suspended b hb
  obtain ⟨h0, hlt, -⟩ := h.inv.table (rt.blocks b).pid (by rw [hbt]; exact hb0)
  exact ⟨h0, hlt⟩

/-- A yarn that returns is awake, because it runs. -/
theorem awake (h : Asleep rt) (hs : rt.step cfg a = some rt') : rt.Awake a := by
  cases a with
  | ret core =>
    obtain ⟨hpc, -⟩ := Option.ite_none_right_eq_some.mp hs
    intro hb
    have hparks := h.still core (busy_of_pc hpc rfl) hb
    rw [hpc] at hparks
    cases hparks
  | _ => trivial

/-- Neither a queue nor a dedicated core hands out a yarn marked as suspended. -/
theorem not_dispatched (h : Asleep rt) {m : Master} {job job' : SchedulerJob}
    (hm : rt.master.masterSchedSelect cfg core job newTime ptrs = some (m, job'))
    (h0 : job'.pid ≠ 0) (hp : rt.ptable job'.pid ≠ 0) :
    ¬ (rt.blocks (rt.ptable job'.pid)).isSuspended := by
  intro hb
  have hpid : (rt.blocks (rt.ptable job'.pid)).pid = job'.pid := (h.inv.table _ hp).2.2
  obtain ⟨l, hl⟩ := h.inv.backed
  rcases (hl.select (.core core) hm).2.2 with ⟨hz, -⟩ | ⟨hsingle | hnone, -⟩
  · exact h0 hz
  · exact h.shared _ hb core (hsingle.trans hpid.symm)
  · -- somebody has the job of a suspended yarn: its core, or its block
    by_cases hpark : rt.Parking (rt.ptable job'.pid)
    · obtain ⟨c, hc, hcur⟩ := hpark
      have hbusy := Pc.busy_of_parks hc
      refine hnone _ c _ (lent_core hbusy) ?_
      rw [← (h.inv.running c hbusy).2.1, hcur, hpid]
    · refine hnone _ _ _ (lent_block hb hpark) ?_
      rw [(h.inv.suspended _ hb).2.2 hpark, hpid]

theorem noSuspendedDispatch (h : Asleep rt) (hs : rt.step cfg a = some rt') :
    NoSuspendedDispatch rt a rt' := by
  rintro core newTime ptrs now rfl hpc
  cases step_outcome hs with
  | idle htop hm hk =>
    rw [setCore_self, hk] at hpc
    cases hpc
  | dispatch htop hm h0 hp =>
    rw [Runtime.dispatch, current_setCore_self]
    exact h.not_dispatched hm h0 hp
  | switch ha => rcases ha with ⟨target, t, ha⟩ | ⟨t, ha⟩ <;> cases ha

/-- A core that has moved is not busy with a yarn marked as suspended, unless it is
parking it. -/
theorem still_self (h : Asleep rt) (hhome : ∀ core, a = .ret core → rt.AtHome core)
    (hs : rt.step cfg a = some rt') (ha : a.core = some core)
    (hbusy : (rt'.cores core).pc.busy) (hb : (rt.blocks (rt'.current core)).isSuspended) :
    (rt'.cores core).pc.parks := by
  -- a yarn that runs is not marked
  have hrun : (rt.cores core).pc = .running ∨ (rt.cores core).pc = .suspending →
      (rt'.cores core).ttd.yarnCurrent = (rt.cores core).ttd.yarnCurrent → False := by
    intro hpc hcur
    rw [current, hcur] at hb
    have hparks := h.still core (by rcases hpc with hpc | hpc <;> rw [hpc] <;> rfl) hb
    rcases hpc with hpc | hpc <;> rw [hpc] at hparks <;> cases hparks
  cases step_core hhome hs ha with
  | top hpc =>
    rw [hpc] at hbusy
    cases hbusy
  | dispatched haction hpc =>
    obtain ⟨newTime, ptrs, now, rfl⟩ := haction
    exact absurd hb (h.noSuspendedDispatch hs core newTime ptrs now rfl hpc)
  | registered _ hpc hk => exact (hrun (Or.inl hpc) (by rw [hk])).elim
  | switched hpc _ _ hcur => exact (hrun (Or.inl hpc) hcur).elim
  | suspended hpc _ _ hcur => exact (hrun (Or.inr hpc) hcur).elim
  | stays hk =>
    rw [current, hk] at hb
    rw [hk] at hbusy ⊢
    exact h.still core hbusy hb
  | flagged _ _ hpc =>
    rw [hpc]
    rfl
  | placed _ _ hk =>
    rw [hk]
    rfl

/-- Also a yarn that is being marked has a pid that no core is dedicated to. -/
theorem marked (h : Asleep rt) (hreg : rt.Regular a) (hpark : rt.ParksShared a)
    (hs : rt.step cfg a = some rt') (hb : (rt'.blocks b).isSuspended) :
    (rt.blocks b).pid ≠ 0 ∧ (rt.blocks b).pid.toNat < rt.maxpid ∧
      ∀ c, rt.master.singleJobs c ≠ (rt.blocks b).pid := by
  rcases (step_mark h.inv hreg hs hb).2 with hb | ⟨core, job, rfl, rfl, hact, hpc, -⟩
  · exact ⟨(h.pid_spec hb).1, (h.pid_spec hb).2, h.shared b hb⟩
  · have hbusy := busy_of_pc hpc rfl
    obtain ⟨l, hl⟩ := h.inv.backed
    obtain ⟨-, h0, hlt, hd⟩ := hl.holds _ core _ (lent_core hbusy)
    rw [(h.inv.running core hbusy).2.1]
    refine ⟨h0, hlt, fun c hc => ?_⟩
    obtain rfl := hd c hc
    exact hpark c job rfl hact hc

theorem step (h : Asleep rt) (hreg : rt.Regular a) (hpark : rt.ParksShared a)
    (hs : rt.step cfg a = some rt') : Asleep rt' := by
  have hhome := hreg.atHome
  refine ⟨step_inv h.inv hreg (h.awake hs) hs, fun b hb c => ?_, fun c hbusy hb => ?_⟩
  · rw [(step_mark h.inv hreg hs hb).1]
    obtain ⟨h0, hlt, hsingle⟩ := h.marked hreg hpark hs hb
    rcases step_single h.inv hreg hs c with hc | hc | hc
    · rw [hc]
      exact hsingle c
    · rw [hc]
      exact h0.symm
    · intro he
      rw [he] at hc
      omega
  · obtain ⟨-, hmark⟩ := step_mark h.inv hreg hs hb
    by_cases hc : a.core = some c
    · rcases hmark with hb | ⟨core, job, rfl, -, -, -, hparks, -⟩
      · exact h.still_self hhome hs hc hbusy hb
      · cases hc
        exact hparks
    · have hcores := step_off hhome hs hc
      have hcur : rt'.current c = rt.current c := by
        rw [current, hcores, current]
      rw [hcores] at hbusy ⊢
      rw [hcur] at hmark
      rcases hmark with hb | ⟨core, job, rfl, he, -, hpc, -⟩
      · exact h.still c hbusy hb
      · obtain rfl := h.inv.current_unique hbusy (busy_of_pc hpc rfl) he
        exact absurd rfl hc

end Asleep

/-- In a run that parks no yarn on a core dedicated to it, hands out no block in use,
resumes no yarn that its loop is still parking, and in which every routine returns on
its first core, no yarn is dispatched while it is marked as suspended. -/
theorem suspended_never_dispatched (cfg : Config) (procs : Nat) (prim sec : Int)
    (as : List Action)
    (hgood : Along (step cfg) (fun rt a _ => rt.Regular a ∧ rt.ParksShared a)
      (start cfg procs prim sec) as) :
    Along (step cfg) NoSuspendedDispatch (start cfg procs prim sec) as :=
  along_of_invariant (start_asleep cfg procs prim sec)
    (fun _ _ _ h hg hs => ⟨h.step hg.1 hg.2 hs, h.noSuspendedDispatch hs⟩) hgood

/-- A yarn of normal priority is parked, the core finds nothing to do, and the yarn runs
again once it has been resumed. -/
theorem suspended_never_dispatched_once : Along (step .defaultProfile) NoSuspendedDispatch
    (start .defaultProfile 2 YARNS_SCHEDULER_ROUND_ROBIN YARNS_SCHEDULER_ROUND_ROBIN)
    [.yarnNew 0 4096 64, .select 0 1 (fun _ => []) 10, .register 0, .suspend 0 11, .finish 0,
      .parkCore 0, .parkJob 0, .select 0 2 (fun _ => []) 20, .resume 1,
      .select 0 3 (fun _ => []) 30] := by
  refine suspended_never_dispatched _ _ _ _ _ ?_
  refine along_cons rfl ⟨start_freshBlock _ _ _ _ (by decide), fun _ _ h => (by cases h)⟩ ?_
  refine along_cons rfl ⟨trivial, fun _ _ h => (by cases h)⟩ ?_
  refine along_cons rfl ⟨trivial, fun _ _ h => (by cases h)⟩ ?_
  refine along_cons rfl ⟨trivial, fun _ _ h => (by cases h)⟩ ?_
  refine along_cons rfl ⟨trivial, ?_⟩ ?_
  · -- core 0 is not dedicated
    intro core job h _
    cases h
    decide
  refine along_cons rfl ⟨trivial, fun _ _ h => (by cases h)⟩ ?_
  refine along_cons rfl ⟨trivial, fun _ _ h => (by cases h)⟩ ?_
  refine along_cons rfl ⟨trivial, fun _ _ h => (by cases h)⟩ ?_
  refine along_cons rfl ⟨?_, fun _ _ h => (by cases h)⟩ ?_
  · -- both loops are at the top
    rintro ⟨_ | c, hc, -⟩ <;> cases hc
  exact along_cons rfl ⟨trivial, fun _ _ h => (by cases h)⟩ trivial

/-- A yarn with nice -20 gets core 1 for itself, registers, and is parked there. -/
def parkedOnOwnCore : List Action :=
  [.yarnNew (-20) 4096 64, .select 1 1 (fun _ => []) 10, .register 1, .suspend 1 11,
    .finish 1, .parkCore 1, .parkJob 1]

/-- The next select of core 1 dispatches it, suspended as it is. -/
theorem own_core_dispatches_suspended : ¬ Along (step .defaultProfile) NoSuspendedDispatch
    (start .defaultProfile 2 YARNS_SCHEDULER_ROUND_ROBIN YARNS_SCHEDULER_ROUND_ROBIN)
    (parkedOnOwnCore ++ [.select 1 2 (fun _ => []) 20]) := by
  intro h
  have hrun : ((run (step .defaultProfile)
      (start .defaultProfile 2 YARNS_SCHEDULER_ROUND_ROBIN YARNS_SCHEDULER_ROUND_ROBIN)
      parkedOnOwnCore).bind fun rt =>
        (step .defaultProfile rt (.select 1 2 (fun _ => []) 20)).map fun rt' =>
          ((rt'.cores 1).pc, (rt.blocks (rt'.current 1)).isSuspended)) =
      some (.running, true) := by
    decide +kernel
  obtain ⟨rt, rt', hnone, hobs⟩ := along_observed h hrun
  obtain ⟨hpc, hsus⟩ := Prod.mk.inj hobs
  exact hnone 1 2 _ 20 rfl hpc hsus

end Yarns.Runtime
