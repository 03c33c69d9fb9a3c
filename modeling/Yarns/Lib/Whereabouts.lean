import Yarns.Lib.Suspended
import Yarns.Sched.Coverage

/-!
# No yarn is lost

From `yarn_new` until its routine returns a yarn is in exactly one place: in the queue of one
scheduler, with one core (which runs it, parks it, or is dedicated to it), or parked. In a
run of the processor loops this holds of every yarn at every step (`yarn_in_one_place`), if
the steps are regular, no yarn is parked on a core dedicated to it, and no core is dedicated
while it is dedicated to another yarn. Which yarns there are is counted beside the run, from
what `yarn_new` hands out and the routines that return (`Census`).
-/

namespace Yarns.Runtime

open Base Master

inductive Place where
  | queue (c : Nat)
  | core (c : Nat)
  | parked
  deriving DecidableEq, Repr

/-- The yarn with this pid is there. -/
def At (rt : Runtime) (pid : ULong) : Place → Prop
  | .queue c => pid ∈ rt.master.queuedPids c
  | .core c => (rt.cores c).pc.busy ∧ (rt.cores c).activeJob.pid = pid ∨
      rt.master.singleJobs c = pid
  | .parked => (rt.blocks (rt.ptable pid)).isSuspended ∧ ¬ rt.Parking (rt.ptable pid)

/-- A core that gets a yarn for itself is not dedicated. -/
def FreeCore (rt : Runtime) : Action → Prop
  | .yarnNew nice _ _ => prioLookup nice = .titanic →
      ∀ core, rt.master.selectCoreUnused = some core → rt.master.singleJobs core = 0
  | _ => True

/-- No call of a yarn stores a time that is the mark of a routine that has returned. -/
def Unmarked (rt : Runtime) : Action → Prop
  | .yield core target t => ((rt.cores core).ttd.yarnYield target t).runtime ≠ UNSCHEDULE
  | .suspend core t => ((rt.cores core).ttd.suspend t).runtime ≠ UNSCHEDULE
  | _ => True

/-- What the calls of a run keep to. -/
structure Orderly (rt : Runtime) (a : Action) : Prop where
  regular : rt.Regular a
  shared : rt.ParksShared a
  free : rt.FreeCore a
  unmarked : rt.Unmarked a

/-- The loans of two states are the same, up to what the schedulers do not look at. -/
structure SameLoans (rt rt' : Runtime) : Prop where
  busy : ∀ c, (rt'.cores c).pc.busy = (rt.cores c).pc.busy
  job : ∀ c, (rt.cores c).pc.busy →
    (rt'.cores c).activeJob.pid = (rt.cores c).activeJob.pid ∧
      (rt'.cores c).activeJob.data = (rt.cores c).activeJob.data
  parked : ∀ b, ((rt'.blocks b).isSuspended ∧ ¬ rt'.Parking b) ↔
    ((rt.blocks b).isSuspended ∧ ¬ rt.Parking b)
  saved : ∀ b, (rt.blocks b).isSuspended → ¬ rt.Parking b →
    (rt'.blocks b).suspensionCore = (rt.blocks b).suspensionCore ∧
      (rt'.blocks b).suspensionJob = (rt.blocks b).suspensionJob

/-- The process table has a yarn with this pid. -/
def Live (rt : Runtime) (pid : ULong) : Prop := rt.ptable pid ≠ 0

/-- The runtime and the pids that `yarn_new` has handed out and whose routine has not
returned. -/
structure Census where
  runtime : Runtime
  live : ULong → Bool

/-- The pids after a step, by what its caller sees: the pid of the new yarn, or the job of the
core whose routine returns. -/
def liveAfter (rt : Runtime) (live : ULong → Bool) : Action → ULong → Bool
  | .yarnNew .. => Function.update live (BitVec.ofNat 64 rt.maxpid) true
  | .ret core => Function.update live (rt.cores core).activeJob.pid false
  | _ => live

def censusStep (cfg : Config) (s : Census) (a : Action) : Option Census :=
  (s.runtime.step cfg a).map fun rt => ⟨rt, liveAfter s.runtime s.live a⟩

def censusStart (cfg : Config) (procs : Nat) (prim sec : Int) : Census :=
  ⟨start cfg procs prim sec, fun _ => false⟩

/-- The process table has the yarns that are alive, and each is in one place. -/
structure Census.Settled (t : Census) : Prop where
  table : ∀ pid, t.live pid = true ↔ t.runtime.Live pid
  place : ∀ pid, t.live pid = true → ∃! place, t.runtime.At pid place

structure Tracked (rt : Runtime) : Prop where
  asleep : Asleep rt
  covers : ∃ l : Ledger, l.Covers rt.master rt.maxpid rt.Lent rt.Live
  marked : ∀ c, (rt.cores c).pc.parks → (rt.blocks (rt.current c)).isSuspended
  returned : ∀ c, (rt.cores c).pc = .switched → (rt.cores c).ttd.runtime = UNSCHEDULE →
    rt.ptable (rt.cores c).activeJob.pid = 0

variable {cfg : Config} {rt rt' : Runtime} {m : Master} {l : Ledger} {core c d : Nat}
  {b block pid : ULong} {job : SchedulerJob} {k : Core} {a : Action} {n : Nat}
  {live : ULong → Prop} {newTime now : ULong} {ptrs : Nat → List ULong}

/-! ## Loans -/

/-- A loan of one state is one of the other, of the same pid. -/
theorem SameLoans.lent (h : SameLoans rt rt') {o : Holder} {c : Nat} {j : SchedulerJob}
    (hj : rt'.Lent o c j) : ∃ j₀, rt.Lent o c j₀ ∧ j.pid = j₀.pid ∧ j.data = j₀.data := by
  cases o with
  | core d =>
    obtain ⟨rfl, hd, rfl⟩ := hj
    rw [h.busy] at hd
    exact ⟨_, lent_core hd, h.job c hd⟩
  | block b =>
    obtain ⟨hb, hnp, rfl, rfl⟩ := hj
    obtain ⟨hb, hnp⟩ := (h.parked b).mp ⟨hb, hnp⟩
    obtain ⟨hc, hj⟩ := h.saved b hb hnp
    rw [hc, hj]
    exact ⟨_, lent_block hb hnp, rfl, rfl⟩

theorem SameLoans.lent_back (h : SameLoans rt rt') {o : Holder} {c : Nat} {j : SchedulerJob}
    (hj : rt.Lent o c j) : ∃ j', rt'.Lent o c j' ∧ j'.pid = j.pid := by
  cases o with
  | core d =>
    obtain ⟨rfl, hd, rfl⟩ := hj
    have hd' := hd
    rw [← h.busy] at hd'
    exact ⟨_, lent_core hd', (h.job c hd).1⟩
  | block b =>
    obtain ⟨hb, hnp, rfl, rfl⟩ := hj
    obtain ⟨hc, hj⟩ := h.saved b hb hnp
    obtain ⟨hb, hnp⟩ := (h.parked b).mpr ⟨hb, hnp⟩
    rw [← hc, ← hj]
    exact ⟨_, lent_block hb hnp, rfl⟩

/-- The same loans, and no new live pid. -/
theorem covers_of_sameLoans (h : l.Covers m n rt.Lent live) (hsame : SameLoans rt rt')
    (hlive : ∀ pid, rt'.Live pid → live pid) : l.Covers m n rt'.Lent rt'.Live :=
  h.sub id (fun _ _ _ hj => hsame.lent hj) (fun _ _ _ _ _ _ _ _ he => he) hlive
    fun o c _ hj _ => by
      obtain ⟨j', hj', hpid⟩ := hsame.lent_back hj
      exact ⟨o, c, j', hj', hpid⟩

theorem SameLoans.refl (rt : Runtime) : SameLoans rt rt :=
  ⟨fun _ => rfl, fun _ _ => ⟨rfl, rfl⟩, fun _ => Iff.rfl, fun _ _ _ => ⟨rfl, rfl⟩⟩

/-- A core outside the parking branch goes on with its job, or without. -/
theorem sameLoans_setCore (hold : ¬ (rt.cores core).pc.parks) (hnew : ¬ k.pc.parks)
    (hbusy : k.pc.busy = (rt.cores core).pc.busy)
    (hjob : (rt.cores core).pc.busy → k.activeJob = (rt.cores core).activeJob) :
    SameLoans rt (rt.setCore core k) where
  busy := by
    intro c
    by_cases hc : c = core
    · rw [hc, setCore_self, hbusy]
    · rw [setCore_of_ne hc]
  job := by
    intro c hb
    by_cases hc : c = core
    · subst hc
      rw [setCore_self, hjob hb]
      exact ⟨rfl, rfl⟩
    · rw [setCore_of_ne hc]
      exact ⟨rfl, rfl⟩
  parked := fun _ => and_congr Iff.rfl (not_congr (parking_setCore rt hold hnew))
  saved := fun _ _ _ => ⟨rfl, rfl⟩

/-- A core that has no job any more. -/
theorem covers_setTop (h : l.Covers m n (Ledger.settle rt.Lent (.core core)) rt'.Live)
    (hcores : rt'.cores = Function.update rt.cores core k) (hblocks : rt'.blocks = rt.blocks)
    (hold : ¬ (rt.cores core).pc.parks) (hk : k.pc = .top) :
    l.Covers m n rt'.Lent rt'.Live := by
  have hself : rt'.cores core = k := by rw [hcores, Function.update_self]
  have hoff : ∀ c, c ≠ core → rt'.cores c = rt.cores c := by
    intro c hc
    rw [hcores, Function.update_of_ne hc]
  have hne : ∀ c, (rt'.cores c).pc.busy → c ≠ core := by
    rintro c hc rfl
    rw [hself, hk] at hc
    cases hc
  have hpark : ∀ b, rt'.Parking b ↔ rt.Parking b := by
    intro b
    have hset := parking_setCore (k := k) (b := b) rt hold (by rw [hk]; exact Bool.false_ne_true)
    rw [← hset]
    refine exists_congr fun c => ?_
    rw [current, current, hcores]
    rfl
  refine h.sub id (fun o c j hj => ⟨j, ?_, rfl, rfl⟩) (fun _ _ _ _ _ _ _ _ he => he)
    (fun _ hq => hq) fun o c j hj _ => ⟨o, c, j, ?_, rfl⟩
  · cases o with
    | core d =>
      obtain ⟨rfl, hd, rfl⟩ := hj
      have hdc := hne c hd
      rw [hoff c hdc] at hd ⊢
      exact ⟨lent_core hd, fun he => hdc (Holder.core.inj he)⟩
    | block b =>
      obtain ⟨hb, hnp, hcj⟩ := hj
      rw [hblocks] at hb hcj
      exact ⟨⟨hb, fun hp => hnp ((hpark b).mpr hp), hcj⟩, fun he => by cases he⟩
  · obtain ⟨hj, ho⟩ := hj
    cases o with
    | core d =>
      obtain ⟨rfl, hd, rfl⟩ := hj
      have hdc : c ≠ core := fun he => ho (he ▸ rfl)
      rw [← hoff c hdc] at hd ⊢
      exact lent_core hd
    | block b =>
      obtain ⟨hb, hnp, hcj⟩ := hj
      refine ⟨by rw [hblocks]; exact hb, fun hp => hnp ((hpark b).mp hp), ?_⟩
      rw [hblocks]
      exact hcj

/-- The core gets the job it switches to. -/
theorem covers_dispatch (h : l.Covers m n (Ledger.lend rt.Lent (.core core) core job) rt.Live)
    (hpc : (rt.cores core).pc = .top) :
    l.Covers m n ({ rt with master := m }.dispatch core job now).Lent
      ({ rt with master := m }.dispatch core job now).Live := by
  have hpark : ∀ b, ({ rt with master := m }.dispatch core job now).Parking b ↔ rt.Parking b :=
    fun b => parking_setCore _ (not_parks hpc rfl) Bool.false_ne_true
  have hself : ({ rt with master := m }.dispatch core job now).cores core =
      ⟨.running, job, .dispatch (rt.ptable job.pid) job now⟩ := setCore_self
  have hoff : ∀ c, c ≠ core →
      ({ rt with master := m }.dispatch core job now).cores c = rt.cores c :=
    fun c hc => setCore_of_ne hc
  refine h.sub id (fun o c j hj => ⟨j, ?_, rfl, rfl⟩) (fun _ _ _ _ _ _ _ _ he => he)
    (fun _ hq => hq) fun o c j hj _ => ⟨o, c, j, ?_, rfl⟩
  · cases o with
    | core d =>
      obtain ⟨rfl, hd, rfl⟩ := hj
      by_cases hdc : c = core
      · subst hdc
        rw [hself]
        exact Or.inr ⟨rfl, rfl, rfl⟩
      · rw [hoff c hdc] at hd ⊢
        exact Or.inl (lent_core hd)
    | block b =>
      obtain ⟨hb, hnp, hcj⟩ := hj
      obtain ⟨home, hblock⟩ := dispatch_block { rt with master := m } core job now b
      rw [hblock] at hb hcj
      exact Or.inl ⟨hb, fun hp => hnp ((hpark b).mpr hp), hcj⟩
  · rcases hj with hj | ⟨rfl, rfl, rfl⟩
    · cases o with
      | core d =>
        obtain ⟨rfl, hd, rfl⟩ := hj
        have hdc : c ≠ core := by
          rintro rfl
          rw [hpc] at hd
          cases hd
        rw [← hoff c hdc] at hd ⊢
        exact lent_core hd
      | block b =>
        obtain ⟨hb, hnp, hcj⟩ := hj
        obtain ⟨home, hblock⟩ := dispatch_block { rt with master := m } core job now b
        refine ⟨by rw [hblock]; exact hb, fun hp => hnp ((hpark b).mp hp), ?_⟩
        rw [hblock]
        exact hcj
    · refine ⟨rfl, ?_, ?_⟩ <;> rw [hself]
      rfl

/-- A new yarn has a block that is lent to nobody. -/
theorem sameLoans_insert {y : YarnBlock} {ptable : ULong → ULong} {maxpid : Nat}
    (hold : ¬ (rt.blocks block).isSuspended) (hnew : ¬ y.isSuspended) :
    SameLoans rt { rt.setBlock block y with master := m, ptable, maxpid } where
  busy := fun _ => rfl
  job := fun _ _ => ⟨rfl, rfl⟩
  parked := by
    intro b
    refine and_congr ?_ Iff.rfl
    dsimp only
    by_cases hb : b = block
    · subst hb
      rw [setBlock_self]
      exact iff_of_false hnew hold
    · rw [setBlock_of_ne hb]
  saved := by
    intro b hb _
    have hne : b ≠ block := fun he => hold (he ▸ hb)
    dsimp only
    rw [setBlock_of_ne hne]
    exact ⟨rfl, rfl⟩

/-- The loop writes into the block it is parking, or is going to park. -/
theorem sameLoans_park {y : YarnBlock} (hbusy : (rt.cores core).pc.busy)
    (hnot : ¬ ((rt.blocks (rt.current core)).isSuspended ∧ ¬ rt.Parking (rt.current core)))
    (hk : k.pc.parks) (hcur : k.ttd.yarnCurrent = rt.current core)
    (hpid : k.activeJob.pid = (rt.cores core).activeJob.pid)
    (hdata : k.activeJob.data = (rt.cores core).activeJob.data) :
    SameLoans rt ((rt.setBlock (rt.current core) y).setCore core k) where
  busy := by
    intro c
    by_cases hc : c = core
    · rw [hc, setCore_self, hbusy]
      exact Pc.busy_of_parks hk
    · rw [setCore_of_ne hc]
      rfl
  job := by
    intro c _
    by_cases hc : c = core
    · subst hc
      rw [setCore_self]
      exact ⟨hpid, hdata⟩
    · rw [setCore_of_ne hc]
      exact ⟨rfl, rfl⟩
  parked := by
    intro b
    by_cases hb : b = rt.current core
    · subst hb
      refine iff_of_false (fun h => h.2 ⟨core, ?_, ?_⟩) hnot
      · rw [setCore_self]
        exact hk
      · rw [current_setCore_self, hcur]
    · have hpark : ((rt.setBlock (rt.current core) y).setCore core k).Parking b ↔
          rt.Parking b := by
        refine exists_congr fun c => ?_
        by_cases hc : c = core
        · subst hc
          rw [current_setCore_self, hcur]
          exact iff_of_false (fun h => hb h.2.symm) fun h => hb h.2.symm
        · rw [setCore_of_ne hc, current_setCore_of_ne hc]
          rfl
      rw [setCore_blocks, setBlock_of_ne hb, hpark]
  saved := by
    intro b hb hnp
    have hne : b ≠ rt.current core := by
      rintro rfl
      exact hnot ⟨hb, hnp⟩
    rw [setCore_blocks, setBlock_of_ne hne]
    exact ⟨rfl, rfl⟩

/-- The loan of the core becomes that of the block. -/
theorem covers_parkJob (h : Tracked rt) (hc : l.Covers rt.master n rt.Lent rt.Live)
    (hpc : (rt.cores core).pc = .placed) :
    l.Covers rt.master n (rt.parkJob core).Lent (rt.parkJob core).Live := by
  have hinv := h.asleep.inv
  have hparks : (rt.cores core).pc.parks := parks_of_pc hpc rfl
  have hbusy := Pc.busy_of_parks hparks
  have hself : (rt.parkJob core).cores core = { rt.cores core with pc := .top } := setCore_self
  have hoff : ∀ c, c ≠ core → (rt.parkJob core).cores c = rt.cores c :=
    fun c hc => setCore_of_ne hc
  have hne : ∀ c, ((rt.parkJob core).cores c).pc.busy → c ≠ core := by
    rintro c hc rfl
    rw [hself] at hc
    cases hc
  have hblock : (rt.parkJob core).blocks (rt.current core) =
      { rt.blocks (rt.current core) with suspensionJob := (rt.cores core).activeJob } :=
    setBlock_self
  have hblocks : ∀ b, b ≠ rt.current core → (rt.parkJob core).blocks b = rt.blocks b :=
    fun b hb => setBlock_of_ne hb
  -- who is still being parked was before, but the block of this core is not any more
  have hpark : ∀ b, (rt.parkJob core).Parking b ↔ rt.Parking b ∧ b ≠ rt.current core := by
    intro b
    constructor
    · rintro ⟨c, hcp, hcb⟩
      have hcc := hne c (Pc.busy_of_parks hcp)
      have hcur : (rt.parkJob core).current c = rt.current c := by
        rw [current, hoff c hcc, current]
      rw [hoff c hcc] at hcp
      rw [hcur] at hcb
      refine ⟨⟨c, hcp, hcb⟩, fun he => hcc ?_⟩
      exact hinv.current_unique (Pc.busy_of_parks hcp) hbusy (hcb.trans he)
    · rintro ⟨⟨c, hcp, hcb⟩, hb⟩
      have hcc : c ≠ core := by
        rintro rfl
        exact hb hcb.symm
      refine ⟨c, by rw [hoff c hcc]; exact hcp, ?_⟩
      rw [current, hoff c hcc]
      exact hcb
  refine hc.sub (fun o => if o = .block (rt.current core) then .core core else o)
    (fun o c j hj => ⟨j, ?_, rfl, rfl⟩) (fun o o' c c' j j' hj hj' he => ?_) (fun _ hq => hq)
    fun o c j hj _ => ?_
  · cases o with
    | core d =>
      obtain ⟨rfl, hd, rfl⟩ := hj
      have hdc := hne c hd
      rw [hoff c hdc] at hd ⊢
      rw [if_neg Holder.noConfusion]
      exact lent_core hd
    | block b =>
      obtain ⟨hb, hnp, rfl, rfl⟩ := hj
      by_cases hbc : b = rt.current core
      · subst hbc
        rw [if_pos rfl, hblock]
        dsimp only
        rw [hinv.placed core hpc]
        exact lent_core hbusy
      · rw [if_neg fun he => hbc (Holder.block.inj he), hblocks b hbc]
        rw [hblocks b hbc] at hb
        exact lent_block hb fun hp => hnp ((hpark b).mpr ⟨hp, hbc⟩)
  · -- the core holds nothing any more
    have hnot : ∀ {o c j}, (rt.parkJob core).Lent o c j → o ≠ .core core := by
      rintro o c j hj rfl
      exact hne core hj.2.1 rfl
    split at he <;> split at he
    · rename_i ho ho'
      rw [ho, ho']
    · exact absurd he.symm (hnot hj')
    · exact absurd he (hnot hj)
    · exact he
  · cases o with
    | core d =>
      obtain ⟨rfl, hd, rfl⟩ := hj
      by_cases hdc : c = core
      · subst hdc
        have hsus : ((rt.parkJob c).blocks (rt.current c)).isSuspended := by
          rw [hblock]
          exact h.marked c hparks
        have hlent := lent_block hsus fun hp => ((hpark _).mp hp).2 rfl
        refine ⟨_, _, _, hlent, ?_⟩
        rw [hblock]
      · rw [← hoff c hdc] at hd ⊢
        exact ⟨_, _, _, lent_core hd, rfl⟩
    | block b =>
      obtain ⟨hb, hnp, rfl, rfl⟩ := hj
      have hbc : b ≠ rt.current core := by
        rintro rfl
        exact hnp ⟨core, hparks, rfl⟩
      rw [← hblocks b hbc] at hb ⊢
      exact ⟨_, _, _, lent_block hb fun hp => hnp ((hpark b).mp hp).1, rfl⟩

/-- The job of a parked yarn has gone back. -/
theorem covers_wake (h : l.Covers m n (Ledger.settle rt.Lent (.block block)) rt.Live) :
    l.Covers m n
      { rt.setBlock block { rt.blocks block with isSuspended := false } with master := m }.Lent
      { rt.setBlock block { rt.blocks block with isSuspended := false } with
        master := m }.Live := by
  refine h.sub id (fun o c j hj => ⟨j, ?_, rfl, rfl⟩) (fun _ _ _ _ _ _ _ _ he => he)
    (fun _ hq => hq) fun o c j hj _ => ⟨o, c, j, ?_, rfl⟩
  · cases o with
    | core d => exact ⟨hj, fun he => by cases he⟩
    | block b =>
      obtain ⟨hb, hnp, hcj⟩ := hj
      have hne := ne_of_setBlock Bool.false_ne_true hb
      rw [setBlock_of_ne hne] at hb hcj
      exact ⟨⟨hb, hnp, hcj⟩, fun he => hne (Holder.block.inj he)⟩
  · obtain ⟨hj, ho⟩ := hj
    cases o with
    | core d => exact hj
    | block b =>
      obtain ⟨hb, hnp, hcj⟩ := hj
      have hne : b ≠ block := fun he => ho (he ▸ rfl)
      have hblock : (rt.setBlock block { rt.blocks block with isSuspended := false }).blocks b =
        rt.blocks b := setBlock_of_ne hne
      rw [← hblock] at hb hcj
      exact ⟨hb, hnp, hcj⟩

/-! ## Steps -/

/-- A select that stays in the loop has found no job, or that of a yarn that has returned. -/
theorem select_cases (hs : rt.step cfg (.select core newTime ptrs now) = some rt') :
    ∃ m job, (rt.cores core).pc = .top ∧
      rt.master.masterSchedSelect cfg core (rt.cores core).activeJob newTime ptrs =
        some (m, job) ∧
      ((job.pid = 0 ∨ rt.maxpid ≤ job.pid.toNat ∨ rt.ptable job.pid = 0) ∧
          (∃ k, k.pc = .top ∧ rt' = { rt with master := m }.setCore core k) ∨
        job.pid ≠ 0 ∧ rt' = { rt with master := m }.dispatch core job now) := by
  simp only [step, processorSelect] at hs
  split at hs
  · rename_i hpc
    simp only [Option.bind_eq_bind, Option.bind_eq_some_iff] at hs
    obtain ⟨⟨m, job⟩, hsel, hs⟩ := hs
    refine ⟨m, job, hpc.2, hsel, ?_⟩
    split at hs
    · rename_i hidle
      cases hs
      refine Or.inl ⟨hidle, _, ?_, rfl⟩
      exact hpc.2
    · rename_i hidle
      cases hs
      exact Or.inr ⟨(not_or.mp hidle).1, rfl⟩
  · cases hs

/-- Flags that follow a table go on doing so where both change at one pid. -/
theorem update_live {live : ULong → Bool} {table : ULong → ULong} {alive : Bool}
    {value new : ULong} (h : ∀ pid, live pid = true ↔ table pid ≠ 0)
    (hnew : alive = true ↔ value ≠ 0) (pid : ULong) :
    Function.update live new alive pid = true ↔ Function.update table new value pid ≠ 0 := by
  by_cases hpid : pid = new
  · rw [hpid, Function.update_self, Function.update_self]
    exact hnew
  · rw [Function.update_of_ne hpid, Function.update_of_ne hpid]
    exact h pid

namespace Tracked

theorem start (cfg : Config) (procs : Nat) (prim sec : Int) :
    Tracked (Runtime.start cfg procs prim sec) where
  asleep := start_asleep cfg procs prim sec
  covers := by
    refine ⟨Ledger.empty, Ledger.Covers.init cfg procs prim sec Nat.one_pos ?_ ?_⟩
    · intro o c j hj
      cases o with
      | core d => cases hj.2.1
      | block b => cases hj.1
    · exact fun pid h => h rfl
  marked := fun c h => by cases h
  returned := fun c h => by cases h

theorem live_ne_zero (h : Tracked rt) (hp : rt.Live pid) : pid ≠ 0 := (h.asleep.inv.table pid hp).1

/-- Who is in the parking branch has been marked. -/
theorem step_marked (h : Tracked rt) (hgood : rt.Orderly a) (hs : rt.step cfg a = some rt')
    (hparks : (rt'.cores c).pc.parks) : (rt'.blocks (rt'.current c)).isSuspended := by
  have hinv := h.asleep.inv
  have hreg := hgood.regular
  -- a core outside the parking branch does not come into it
  have hother : ∀ {core : Nat} {k : Core}, rt'.cores = (rt.setCore core k).cores → ¬ k.pc.parks →
      (∀ b, (rt.blocks b).isSuspended → (rt'.blocks b).isSuspended) →
      (rt'.blocks (rt'.current c)).isSuspended := by
    intro core k hcores hk hblocks
    have hne : c ≠ core := by
      rintro rfl
      rw [hcores, setCore_self] at hparks
      exact hk hparks
    have hc : rt'.cores c = rt.cores c := by rw [hcores, setCore_of_ne hne]
    have hcur : rt'.current c = rt.current c := by rw [current, hc, current]
    rw [hc] at hparks
    rw [hcur]
    exact hblocks _ (h.marked c hparks)
  cases step_outcome hs with
  | @yarnNew nice block ptr pid m hblock hpid hlt hm =>
    have hne : rt.current c ≠ block := hreg.2 c (Pc.busy_of_parks hparks)
    have hsus : ((rt.setBlock block
        { rt.blocks block with pid, nice, home := none }).blocks (rt.current c)).isSuspended := by
      rw [setBlock_of_ne hne]
      exact h.marked c hparks
    exact hsus
  | leastLoad => exact h.marked c hparks
  | hoist => exact h.marked c hparks
  | idle hpc hm hk => exact hother rfl (by rw [hk]; exact Bool.false_ne_true) fun _ hb => hb
  | @dispatch core newTime now ptrs m job hpc =>
    refine hother rfl Bool.false_ne_true fun b hb => ?_
    obtain ⟨home, hblock⟩ := dispatch_block { rt with master := m } core job now b
    rw [hblock]
    exact hb
  | register => exact hother rfl Bool.false_ne_true fun _ hb => hb
  | switch => exact hother rfl Bool.false_ne_true fun _ hb => hb
  | goOn => exact h.marked c hparks
  | suspend => exact hother rfl Bool.false_ne_true fun _ hb => hb
  | ret => exact hother rfl Bool.false_ne_true fun _ hb => hb
  | stray hhome => exact absurd hreg hhome
  | unschedule => exact hother rfl Bool.false_ne_true fun _ hb => hb
  | reschedule => exact hother rfl Bool.false_ne_true fun _ hb => hb
  | @flag core job hpc =>
    by_cases hc : c = core
    · subst hc
      rw [current_setCore_self, setCore_blocks]
      exact congrArg YarnBlock.isSuspended setBlock_self
    · rw [setCore_of_ne hc] at hparks
      rw [current_setCore_of_ne hc, setCore_blocks]
      show ((rt.setBlock (rt.current core) _).blocks (rt.current c)).isSuspended = true
      have hsus := h.marked c hparks
      by_cases hb : rt.current c = rt.current core
      · rw [hb]
        exact congrArg YarnBlock.isSuspended setBlock_self
      · exact (congrArg YarnBlock.isSuspended (setBlock_of_ne hb)).trans hsus
  | @parkCore core hpc =>
    have hsus : (rt.blocks (rt.current c)).isSuspended := by
      refine h.marked c ?_
      by_cases hc : c = core
      · rw [hc]
        exact parks_of_pc hpc rfl
      · rw [parkCore, setCore_of_ne hc] at hparks
        exact hparks
    have hcur : (rt.parkCore core).current c = rt.current c := by
      by_cases hc : c = core
      · subst hc
        exact current_setCore_self
      · exact current_setCore_of_ne hc
    rw [hcur, parkCore, setCore_blocks]
    by_cases hb : rt.current c = rt.current core
    · rw [hb] at hsus ⊢
      exact (congrArg YarnBlock.isSuspended setBlock_self).trans hsus
    · exact (congrArg YarnBlock.isSuspended (setBlock_of_ne hb)).trans hsus
  | @parkJob core hpc =>
    have hne : c ≠ core := by
      rintro rfl
      rw [parkJob, setCore_self] at hparks
      cases hparks
    rw [parkJob, setCore_of_ne hne] at hparks
    have hsus := h.marked c hparks
    rw [parkJob, current_setCore_of_ne hne, setCore_blocks]
    -- another core parks another block
    have hb : rt.current c ≠ rt.current core := fun he => hne
      (hinv.current_unique (Pc.busy_of_parks hparks) (busy_of_pc hpc rfl) he)
    exact (congrArg YarnBlock.isSuspended (setBlock_of_ne hb)).trans hsus
  | ignore => exact h.marked c hparks
  | @wake pid m hp hsus hm =>
    have hne : rt.current c ≠ rt.ptable pid := fun he => hreg ⟨c, hparks, he⟩
    have hsus : ((rt.setBlock (rt.ptable pid)
        { rt.blocks (rt.ptable pid) with isSuspended := false }).blocks
          (rt.current c)).isSuspended := by
      rw [setBlock_of_ne hne]
      exact h.marked c hparks
    exact hsus

/-- A pid that is out of the table stays out. -/
theorem step_dead (h : Tracked rt) (hreg : rt.Regular a) (hs : rt.step cfg a = some rt')
    (hlt : pid.toNat < rt.maxpid) (hdead : rt.ptable pid = 0) : rt'.ptable pid = 0 := by
  cases step_outcome hs with
  | @yarnNew _ block _ new m hblock hpid hmax =>
    obtain ⟨hn, -⟩ := h.asleep.inv.pid_new cfg hmax hpid
    have hne : pid ≠ new := by
      rintro rfl
      omega
    dsimp only
    rw [Function.update_of_ne hne]
    exact hdead
  | @ret core =>
    dsimp only
    by_cases hq : pid = (rt.blocks (rt.current core)).pid
    · rw [hq, Function.update_self]
    · rw [Function.update_of_ne hq]
      exact hdead
  | stray hhome => exact absurd hreg hhome
  | _ => exact hdead

/-- The mark is that of a routine that has returned. -/
theorem step_returned (h : Tracked rt) (hgood : rt.Orderly a) (hs : rt.step cfg a = some rt')
    (hpc : (rt'.cores c).pc = .switched) (hrt : (rt'.cores c).ttd.runtime = UNSCHEDULE) :
    rt'.ptable (rt'.cores c).activeJob.pid = 0 := by
  have hinv := h.asleep.inv
  have hhome := hgood.regular.atHome
  by_cases hc : a.core = some c
  · cases a with
    | yield core target t =>
      cases hc
      obtain ⟨-, hs⟩ := Option.ite_none_right_eq_some.mp hs
      cases hs
      rw [switchOut, setCore_self] at hrt
      exact absurd hrt hgood.unmarked
    | suspend core t =>
      cases hc
      obtain ⟨-, hs⟩ := Option.ite_none_right_eq_some.mp hs
      cases hs
      rw [switchOut, setCore_self] at hrt
      exact absurd hrt hgood.unmarked
    | mark core t =>
      cases hc
      obtain ⟨hrun, hs⟩ := Option.ite_none_right_eq_some.mp hs
      cases hmark : (rt.cores c).ttd.yarnMark t with
      | none =>
        rw [hmark] at hs
        cases hs
        rw [hpc] at hrun
        cases hrun
      | some ttd =>
        rw [hmark] at hs
        cases hs
        obtain ⟨-, hmark⟩ := Option.ite_none_right_eq_some.mp hmark
        cases hmark
        rw [switchOut, setCore_self] at hrt
        exact absurd (show (0 : ULong) = UNSCHEDULE from hrt) (by decide)
    | ret core =>
      cases hc
      obtain ⟨hrun, hs⟩ := Option.ite_none_right_eq_some.mp hs
      rw [launcherDone_home (hhome c rfl)] at hs
      cases hs
      have hself : (rt.switchOut c (rt.cores c).ttd.launcherDone).cores c =
          { rt.cores c with pc := .switched, ttd := (rt.cores c).ttd.launcherDone } :=
        setCore_self
      dsimp only
      rw [hself]
      dsimp only
      rw [← (hinv.running c (busy_of_pc hrun rfl)).2.1, Function.update_self]
    | select core newTime ptrs now =>
      cases hc
      obtain ⟨m, job, -, -, ⟨-, k, hk, rfl⟩ | ⟨-, rfl⟩⟩ := select_cases hs
      · rw [setCore_self, hk] at hpc
        cases hpc
      · rw [dispatch, setCore_self] at hpc
        cases hpc
    | register core =>
      cases hc
      obtain ⟨-, hs⟩ := Option.ite_none_right_eq_some.mp hs
      cases hs
      rw [setCore_self] at hpc
      cases hpc
    | finish core =>
      cases hc
      obtain ⟨hold, hs⟩ := Option.ite_none_right_eq_some.mp hs
      cases processorFinish_outcome hold hs with
      | switch ha => rcases ha with ⟨target, t, ha⟩ | ⟨t, ha⟩ <;> cases ha
      | unschedule =>
        rw [setCore_self] at hpc
        cases hpc
      | reschedule =>
        rw [setCore_self] at hpc
        cases hpc
      | flag =>
        rw [setCore_self] at hpc
        cases hpc
    | parkCore core =>
      cases hc
      obtain ⟨-, hs⟩ := Option.ite_none_right_eq_some.mp hs
      cases hs
      rw [Runtime.parkCore, setCore_self] at hpc
      cases hpc
    | parkJob core =>
      cases hc
      obtain ⟨-, hs⟩ := Option.ite_none_right_eq_some.mp hs
      cases hs
      rw [Runtime.parkJob, setCore_self] at hpc
      cases hpc
    | yarnNew => cases hc
    | leastLoad => cases hc
    | hoist => cases hc
    | resume => cases hc
  · have hcores := step_off hhome hs hc
    rw [hcores] at hpc hrt ⊢
    exact h.step_dead hgood.regular hs (hinv.pid_lt (busy_of_pc hpc rfl)) (h.returned c hpc hrt)

/-- A job that is taken and not switched to is that of a yarn that has returned. -/
theorem select_covers (h : Tracked rt)
    (hs : rt.step cfg (.select core newTime ptrs now) = some rt') :
    ∃ l : Ledger, l.Covers rt'.master rt'.maxpid rt'.Lent rt'.Live := by
  obtain ⟨l, hl⟩ := h.covers
  obtain ⟨m, job, hpc, hm, ⟨hidle, k, hk, rfl⟩ | ⟨h0, rfl⟩⟩ := select_cases hs
  · have hkeep : ∃ l' : Ledger, l'.Covers m rt.maxpid rt.Lent rt.Live := by
      rcases hl.select (.core core) hm with ⟨-, hl'⟩ | ⟨l', hl'⟩
      · exact hl'
      · refine ⟨l', hl'.sub id (fun o c j hj => ⟨j, Or.inl hj, rfl, rfl⟩)
          (fun _ _ _ _ _ _ _ _ he => he) (fun _ hq => hq) fun o c j hj hlive => ?_⟩
        rcases hj with hj | ⟨rfl, rfl, rfl⟩
        · exact ⟨o, c, j, hj, rfl⟩
        · obtain ⟨h0, hlt, -⟩ := h.asleep.inv.table j.pid hlive
          rcases hidle with hz | hle | hdead
          · exact absurd hz h0
          · omega
          · exact absurd hdead hlive
    obtain ⟨l', hl'⟩ := hkeep
    have hnew : ¬ k.pc.parks := by
      rw [hk]
      exact Bool.false_ne_true
    have hbusy : (rt.cores core).pc.busy = false := by
      rw [hpc]
      rfl
    have hset : SameLoans rt (rt.setCore core k) := by
      refine sameLoans_setCore (not_parks hpc rfl) hnew ?_ fun hb => ?_
      · rw [hk]
        exact hbusy.symm
      · exact absurd hb (by rw [hbusy]; exact Bool.false_ne_true)
    have hsame : SameLoans rt ({ rt with master := m }.setCore core k) :=
      ⟨hset.busy, hset.job, hset.parked, hset.saved⟩
    exact ⟨l', covers_of_sameLoans hl' hsame fun _ hq => hq⟩
  · rcases hl.select (.core core) hm with ⟨hz, -⟩ | ⟨l', hl'⟩
    · exact absurd hz h0
    · exact ⟨l', covers_dispatch hl' hpc⟩

theorem step_covers (h : Tracked rt) (hgood : rt.Orderly a) (hs : rt.step cfg a = some rt') :
    ∃ l : Ledger, l.Covers rt'.master rt'.maxpid rt'.Lent rt'.Live := by
  obtain ⟨hreg, hpark, hfree, -⟩ := hgood
  have hinv := h.asleep.inv
  obtain ⟨l, hl⟩ := h.covers
  cases step_outcome hs with
  | @yarnNew nice block ptr pid m hblock hpid hlt hm =>
    obtain ⟨hn, h0⟩ := hinv.pid_new cfg hlt hpid
    have hawake := hinv.not_suspended_of_fresh hreg
    have hlive : ∀ q, Function.update rt.ptable pid block q ≠ 0 →
        (rt.Live q ∧ q ≠ 0) ∨ q = pid := by
      intro q hq
      by_cases hqp : q = pid
      · exact Or.inr hqp
      · rw [Function.update_of_ne hqp] at hq
        exact Or.inl ⟨hq, h.live_ne_zero hq⟩
    obtain ⟨l', hl'⟩ := hl.schedule h0 hn (fun core hprio hcore => hfree hprio core hcore) hlive hm
    exact ⟨l', covers_of_sameLoans hl' (sameLoans_insert hawake hawake) fun _ hq => hq⟩
  | leastLoad hm => exact ⟨l, hl.leastLoad hm⟩
  | hoist hne hm => exact (hl.hoist hne hm).2.2
  | idle => exact h.select_covers hs
  | dispatch => exact h.select_covers hs
  | register hpc =>
    exact ⟨l, covers_of_sameLoans hl (sameLoans_setCore (not_parks hpc rfl) Bool.false_ne_true
      (by rw [hpc]; rfl) fun _ => rfl) fun _ hq => hq⟩
  | switch ha hpc hcur hsus =>
    exact ⟨l, covers_of_sameLoans hl (sameLoans_setCore (not_parks hpc rfl) Bool.false_ne_true
      (by rw [hpc]; rfl) fun _ => rfl) fun _ hq => hq⟩
  | goOn => exact ⟨l, hl⟩
  | suspend hpc hcur hsus =>
    exact ⟨l, covers_of_sameLoans hl (sameLoans_setCore (not_parks hpc rfl) Bool.false_ne_true
      (by rw [hpc]; rfl) fun _ => rfl) fun _ hq => hq⟩
  | @ret core hpc hhome =>
    have hsame : SameLoans rt (rt.switchOut core (rt.cores core).ttd.launcherDone) :=
      sameLoans_setCore (not_parks hpc rfl) Bool.false_ne_true (by rw [hpc]; rfl) fun _ => rfl
    refine ⟨l, covers_of_sameLoans hl ⟨hsame.busy, hsame.job, hsame.parked, hsame.saved⟩
      fun q hq hdead => ?_⟩
    refine hq ?_
    dsimp only
    by_cases hqp : q = (rt.blocks (rt.current core)).pid
    · rw [hqp, Function.update_self]
    · rw [Function.update_of_ne hqp]
      exact hdead
  | stray hhome hpc => exact absurd hreg hhome
  | @unschedule core job m hpc hpid hdata hm hact =>
    have hbusy := busy_of_pc hpc rfl
    have hdead := h.returned core hpc (unschedules_afterSwap.mp ⟨job, congrArg some hact⟩)
    have hother : ∀ o c j, Ledger.settle rt.Lent (.core core) o c j →
        j.pid ≠ (rt.cores core).activeJob.pid := by
      rintro o c j ⟨hj, ho⟩ he
      cases o with
      | core d =>
        obtain ⟨rfl, hd, rfl⟩ := hj
        exact ho (congrArg Holder.core (hinv.busy_unique hd hbusy he))
      | block b =>
        obtain ⟨hb, hnp, -, rfl⟩ := hj
        obtain ⟨hb0, htable, hsaved⟩ := hinv.suspended b hb
        rw [hsaved hnp] at he
        rw [he, hdead] at htable
        exact hb0 htable.symm
    have hlive : ∀ q, rt.Live q → rt.Live q ∧ q ≠ (rt.cores core).activeJob.pid :=
      fun q hq => ⟨hq, fun he => hq (he ▸ hdead)⟩
    obtain ⟨l', hl'⟩ := hl.unschedule (lent_core hbusy) (fun c j hj => by rw [hj.2.2]) hother
      hpid hdata hlive hm
    exact ⟨l', covers_setTop hl' rfl rfl (not_parks hpc rfl) rfl⟩
  | @reschedule core job m hpc hpid hdata hm =>
    have hbusy := busy_of_pc hpc rfl
    obtain ⟨l', hl'⟩ := hl.reschedule (lent_core hbusy) (fun c j hj => by rw [hj.2.2]) hpid hdata hm
    exact ⟨l', covers_setTop hl' rfl rfl (not_parks hpc rfl) rfl⟩
  | @flag core job hpc hpid hdata hrt hsus =>
    have hbusy := busy_of_pc hpc rfl
    have hsame : SameLoans rt ((rt.setBlock (rt.current core)
        { rt.blocks (rt.current core) with isSuspended := true }).setCore core
          { rt.cores core with pc := .flagged, activeJob := job }) := by
      refine sameLoans_park hbusy (fun hb => ?_) rfl rfl hpid hdata
      have hparks := h.asleep.still core hbusy hb.1
      rw [hpc] at hparks
      cases hparks
    exact ⟨l, covers_of_sameLoans hl hsame fun _ hq => hq⟩
  | @parkCore core hpc =>
    have hparks : (rt.cores core).pc.parks := parks_of_pc hpc rfl
    have hsame : SameLoans rt (rt.parkCore core) :=
      sameLoans_park (Pc.busy_of_parks hparks) (fun hb => hb.2 ⟨core, hparks, rfl⟩) rfl rfl rfl rfl
    exact ⟨l, covers_of_sameLoans hl hsame fun _ hq => hq⟩
  | @parkJob core hpc => exact ⟨l, covers_parkJob h hl hpc⟩
  | ignore => exact ⟨l, hl⟩
  | @wake pid m hp hsus hm =>
    obtain ⟨l', hl'⟩ := hl.reschedule (lent_block hsus hreg) (fun c j hj => by rw [hj.2.2.2])
      rfl rfl hm
    exact ⟨l', covers_wake hl'⟩

theorem step (h : Tracked rt) (hgood : rt.Orderly a) (hs : rt.step cfg a = some rt') :
    Tracked rt' where
  asleep := h.asleep.step hgood.regular hgood.shared hs
  covers := h.step_covers hgood hs
  marked := fun _ hparks => h.step_marked hgood hs hparks
  returned := fun _ hpc hrt => h.step_returned hgood hs hpc hrt

/-! ## One place -/

/-- A live yarn is somewhere. -/
theorem exists_place (h : Tracked rt) (hp : rt.Live pid) : ∃ place, rt.At pid place := by
  obtain ⟨l, hl⟩ := h.covers
  rcases hl.located pid hp with ⟨c, hc⟩ | ⟨o, c, j, hj, rfl⟩ | ⟨c, hc⟩
  · exact ⟨.queue c, (hl.backs.keeps.books.queuedPids_perm c).symm.subset hc⟩
  · cases o with
    | core d =>
      obtain ⟨rfl, hd, rfl⟩ := hj
      exact ⟨.core c, Or.inl ⟨hd, rfl⟩⟩
    | block b =>
      obtain ⟨hb, hnp, -, rfl⟩ := hj
      obtain ⟨-, htable, hsaved⟩ := h.asleep.inv.suspended b hb
      rw [hsaved hnp]
      refine ⟨.parked, ?_⟩
      rw [At, htable]
      exact ⟨hb, hnp⟩
  · exact ⟨.core c, Or.inr hc⟩

/-- A yarn that is queued is with no core and not parked. -/
theorem not_queued (h : Tracked rt) (hp : rt.Live pid) {place : Place} (hat : rt.At pid place)
    (hne : ∀ c, place ≠ .queue c) (c : Nat) : pid ∉ rt.master.queuedPids c := by
  obtain ⟨l, hl⟩ := h.covers
  intro hq
  have hq := (hl.backs.keeps.books.queuedPids_perm c).subset hq
  cases place with
  | queue d => exact hne d rfl
  | core d =>
    rcases hat with ⟨hd, rfl⟩ | hd
    · exact hl.backs.ne_of_queued hq (lent_core hd) rfl
    · exact hl.backs.keeps.single_ne hq d hd
  | parked =>
    obtain ⟨hb, hnp⟩ := hat
    obtain ⟨-, -, hsaved⟩ := h.asleep.inv.suspended _ hb
    have hpid := (h.asleep.inv.table pid hp).2.2
    refine hl.backs.ne_of_queued hq (lent_block hb hnp) ?_
    rw [hsaved hnp, hpid]

/-- A yarn that is with a core is not parked. -/
theorem not_parked (h : Tracked rt) (hp : rt.Live pid) (hc : rt.At pid (.core c)) :
    ¬ rt.At pid .parked := by
  rintro ⟨hb, hnp⟩
  have hinv := h.asleep.inv
  have hpid := (hinv.table pid hp).2.2
  rcases hc with ⟨hc, rfl⟩ | hc
  · obtain ⟨-, -, htable | ⟨hdead, -⟩⟩ := hinv.running c hc
    · rw [htable] at hb hnp
      exact hnp ⟨c, h.asleep.still c hc hb, rfl⟩
    · exact hp hdead
  · exact h.asleep.shared _ hb c (hc.trans hpid.symm)

/-- A yarn is with one core. -/
theorem core_unique (h : Tracked rt) (hp : rt.Live pid) (hc : rt.At pid (.core c))
    (hd : rt.At pid (.core d)) : c = d := by
  obtain ⟨l, hl⟩ := h.covers
  rcases hc with ⟨hc, rfl⟩ | hc
  · rcases hd with ⟨hd, hpid⟩ | hd
    · exact h.asleep.inv.busy_unique hc hd hpid.symm
    · exact ((hl.backs.holds _ c _ (lent_core hc)).2.2.2 d hd).symm
  · rcases hd with ⟨hd, rfl⟩ | hd
    · exact (hl.backs.holds _ d _ (lent_core hd)).2.2.2 c hc
    · refine (hl.backs.keeps.dedicated d ?_).2.2 c (hc.trans hd.symm)
      rw [hd]
      exact h.live_ne_zero hp

theorem queue_unique (h : Tracked rt) (hc : rt.At pid (.queue c)) (hd : rt.At pid (.queue d)) :
    c = d := by
  obtain ⟨l, hl⟩ := h.covers
  have hmem : ∀ e, rt.At pid (.queue e) → pid ∈ l.pids e := fun e he =>
    List.mem_append_left _ ((hl.backs.keeps.books.queuedPids_perm e).subset he)
  exact hl.backs.keeps.placed.apart pid c d (hmem c hc) (hmem d hd)

theorem place_unique (h : Tracked rt) (hp : rt.Live pid) {place place' : Place}
    (hat : rt.At pid place) (hat' : rt.At pid place') : place = place' := by
  cases place with
  | queue c =>
    cases place' with
    | queue d => rw [h.queue_unique hat hat']
    | core d => exact absurd hat (h.not_queued hp hat' (fun _ => Place.noConfusion) c)
    | parked => exact absurd hat (h.not_queued hp hat' (fun _ => Place.noConfusion) c)
  | core c =>
    cases place' with
    | queue d => exact absurd hat' (h.not_queued hp hat (fun _ => Place.noConfusion) d)
    | core d => rw [h.core_unique hp hat hat']
    | parked => exact absurd hat' (h.not_parked hp hat)
  | parked =>
    cases place' with
    | queue d => exact absurd hat' (h.not_queued hp hat (fun _ => Place.noConfusion) d)
    | core d => exact absurd hat (h.not_parked hp hat')
    | parked => rfl

theorem one_place (h : Tracked rt) (hp : rt.Live pid) : ∃! place, rt.At pid place := by
  obtain ⟨place, hat⟩ := h.exists_place hp
  exact ⟨place, hat, fun _ hat' => h.place_unique hp hat' hat⟩

/-! ## Who is alive -/

/-- A pid comes into the table when `yarn_new` hands it out, and leaves it when the routine of
the core that has its job returns. -/
theorem step_live (h : Tracked rt) (hgood : rt.Orderly a) (hs : rt.step cfg a = some rt')
    {live : ULong → Bool} (hlive : ∀ pid, live pid = true ↔ rt.Live pid) (pid : ULong) :
    liveAfter rt live a pid = true ↔ rt'.Live pid := by
  cases step_outcome hs with
  | @yarnNew nice block ptr new m hblock hnew hlt hm =>
    rw [liveAfter, ← hnew]
    exact update_live hlive (iff_of_true rfl hblock) pid
  | @ret core hpc hhome =>
    obtain ⟨-, hpid, -⟩ := h.asleep.inv.running core (busy_of_pc hpc rfl)
    rw [liveAfter, ← hpid]
    exact update_live hlive (iff_of_false Bool.false_ne_true fun h => h rfl) pid
  | stray hhome => exact absurd hgood.regular hhome
  | switch ha =>
    obtain ⟨target, t, rfl⟩ | ⟨t, rfl⟩ := ha
    · exact hlive pid
    · exact hlive pid
  | _ => exact hlive pid

end Tracked

/-- The count does not take part in the run. -/
theorem census_runtime (s : Census) (a : Action) :
    (censusStep cfg s a).map Census.runtime = step cfg s.runtime a := by
  rw [censusStep, Option.map_map]
  exact Option.map_id'

/-- In an orderly run every yarn that was created and whose routine has not returned is in
exactly one place after each step. -/
theorem yarn_in_one_place (cfg : Config) (procs : Nat) (prim sec : Int) (as : List Action)
    (hgood : Along (step cfg) (fun rt a _ => rt.Orderly a) (start cfg procs prim sec) as) :
    Along (censusStep cfg) (fun _ _ t => t.Settled) (censusStart cfg procs prim sec) as := by
  refine along_of_invariant
    (I := fun s => Tracked s.runtime ∧ ∀ pid, s.live pid = true ↔ s.runtime.Live pid)
    ⟨Tracked.start cfg procs prim sec, fun pid => ?_⟩ (fun s a t h hg hs => ?_)
    ((along_ghost census_runtime (s := censusStart cfg procs prim sec)).mp hgood)
  · exact iff_of_false Bool.false_ne_true fun h => h rfl
  · obtain ⟨htrack, hlive⟩ := h
    obtain ⟨rt', hrt, rfl⟩ := Option.map_eq_some_iff.mp hs
    have htrack' := htrack.step hg hrt
    have hlive' := htrack.step_live hg hrt hlive
    exact ⟨⟨htrack', hlive'⟩, hlive', fun pid hp => htrack'.one_place ((hlive' pid).mp hp)⟩

/-- A yarn of normal priority and one with a core of its own; the first is parked
and resumed, the second returns. -/
theorem yarn_in_one_place_two_yarns : Along (censusStep .defaultProfile)
    (fun _ _ t => t.Settled)
    (censusStart .defaultProfile 2 YARNS_SCHEDULER_ROUND_ROBIN YARNS_SCHEDULER_ROUND_ROBIN)
    [.yarnNew 0 4096 64, .yarnNew (-20) 8192 128, .select 1 1 (fun _ => []) 10,
      .select 0 1 (fun _ => []) 10, .register 0, .suspend 0 11, .finish 0, .parkCore 0,
      .parkJob 0, .resume 1, .ret 1, .finish 1] := by
  refine yarn_in_one_place _ _ _ _ _ ?_
  refine along_cons rfl ⟨start_freshBlock _ _ _ _ (by decide), fun _ _ h => (by cases h),
    fun h => absurd h (by decide), trivial⟩ ?_
  refine along_cons rfl ⟨⟨fun pid => ?_, fun _ hc => (by cases hc)⟩, fun _ _ h => (by cases h),
    fun _ _ _ => rfl, trivial⟩ ?_
  · show Function.update (fun _ => (0 : ULong)) 1 4096 pid ≠ 8192
    rw [Function.update_apply]
    split <;> decide
  refine along_cons rfl ⟨trivial, fun _ _ h => (by cases h), trivial, trivial⟩ ?_
  refine along_cons rfl ⟨trivial, fun _ _ h => (by cases h), trivial, trivial⟩ ?_
  refine along_cons rfl ⟨trivial, fun _ _ h => (by cases h), trivial, trivial⟩ ?_
  refine along_cons rfl ⟨trivial, fun _ _ h => (by cases h), trivial,
    show _ ≠ UNSCHEDULE by decide +kernel⟩ ?_
  refine along_cons rfl ⟨trivial, fun core job h _ => (by cases h; decide), trivial, trivial⟩ ?_
  refine along_cons rfl ⟨trivial, fun _ _ h => (by cases h), trivial, trivial⟩ ?_
  refine along_cons rfl ⟨trivial, fun _ _ h => (by cases h), trivial, trivial⟩ ?_
  refine along_cons rfl ⟨?_, fun _ _ h => (by cases h), trivial, trivial⟩ ?_
  · -- no loop is inside the parking branch
    rintro ⟨_ | _ | c, hc, -⟩
    · exact absurd hc (by decide +kernel)
    · exact absurd hc (by decide +kernel)
    · cases hc
  refine along_cons rfl ⟨rfl, fun _ _ h => (by cases h), trivial, trivial⟩ ?_
  exact along_cons rfl ⟨trivial, fun core job h hp => (by cases h; cases hp), trivial, trivial⟩
    trivial

end Yarns.Runtime
