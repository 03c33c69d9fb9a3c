import Yarns.Base.Run
import Yarns.Lib.RuntimeSteps
import Yarns.Sched.Loans

/-!
# The invariant of the processor loops

The holders of lent jobs are the busy cores and the blocks of the parked yarns. The
invariant says that the ledger of the schedulers backs their loans, and that the process
table, the thread data and the blocks agree about which yarn has which pid.

It is kept by every step that is `Regular`: the pool does not hand out a block in use,
no yarn is resumed while its loop is still parking it, and a routine returns on the core
its launcher knows. In addition, a yarn that runs although it is marked as suspended
must not return (`Awake`).
-/

namespace Yarns.Runtime

open Base Master

inductive Holder where
  | core (c : Nat)
  | block (b : ULong)
  deriving DecidableEq, Repr

/-- A loop is inside the parking branch with this block. -/
def Parking (rt : Runtime) (b : ULong) : Prop :=
  ∃ c, (rt.cores c).pc.parks ∧ rt.current c = b

/-- Who has a job, and which core it goes back to. -/
def Lent (rt : Runtime) : Holder → Nat → SchedulerJob → Prop
  | .core d, c, j => c = d ∧ (rt.cores d).pc.busy ∧ j = (rt.cores d).activeJob
  | .block b, c, j => (rt.blocks b).isSuspended ∧ ¬ rt.Parking b ∧
      c = (rt.blocks b).suspensionCore ∧ j = (rt.blocks b).suspensionJob

structure Inv (rt : Runtime) : Prop where
  backed : ∃ l, Ledger.Backs l rt.master rt.maxpid rt.Lent
  table : ∀ pid, rt.ptable pid ≠ 0 →
    pid ≠ 0 ∧ pid.toNat < rt.maxpid ∧ (rt.blocks (rt.ptable pid)).pid = pid
  /-- A busy core runs the yarn of its job; only a yarn that has returned is not in the
  table any more. -/
  running : ∀ c, (rt.cores c).pc.busy → rt.current c ≠ 0 ∧
    (rt.blocks (rt.current c)).pid = (rt.cores c).activeJob.pid ∧
    (rt.ptable (rt.cores c).activeJob.pid = rt.current c ∨
      rt.ptable (rt.cores c).activeJob.pid = 0 ∧ (rt.cores c).pc = .switched ∧
        (rt.cores c).ttd.runtime = UNSCHEDULE)
  suspended : ∀ b, (rt.blocks b).isSuspended → b ≠ 0 ∧ rt.ptable (rt.blocks b).pid = b ∧
    (¬ rt.Parking b → (rt.blocks b).suspensionJob.pid = (rt.blocks b).pid)
  placed : ∀ c, (rt.cores c).pc = .placed → (rt.blocks (rt.current c)).suspensionCore = c

/-- `pool_allocate` returns a block that no yarn has. -/
def FreshBlock (rt : Runtime) (block : ULong) : Prop :=
  (∀ pid, rt.ptable pid ≠ block) ∧ ∀ c, (rt.cores c).pc.busy → rt.current c ≠ block

def Regular (rt : Runtime) : Action → Prop
  | .yarnNew _ block _ => rt.FreshBlock block
  | .resume pid => ¬ rt.Parking (rt.ptable pid)
  | .ret core => rt.AtHome core
  | _ => True

theorem Regular.atHome {rt : Runtime} {a : Action} (h : rt.Regular a) :
    ∀ core, a = .ret core → rt.AtHome core := by
  rintro core rfl
  exact h

/-- A yarn that returns is not marked as suspended. -/
def Awake (rt : Runtime) : Action → Prop
  | .ret core => ¬ (rt.blocks (rt.current core)).isSuspended
  | _ => True

variable {cfg : Config} {rt rt' : Runtime} {m : Master} {core c d : Nat} {b block pid : ULong}
  {job : SchedulerJob} {k : Core} {a : Action}

/-! ## Who is being parked, and who has a job -/

/-- Outside the parking branch a core changes nothing about who is being parked. -/
theorem parking_setCore (rt : Runtime) (hold : ¬ (rt.cores core).pc.parks) (hnew : ¬ k.pc.parks) :
    (rt.setCore core k).Parking b ↔ rt.Parking b := by
  refine exists_congr fun c => ?_
  by_cases hc : c = core
  · subst hc
    rw [setCore_self]
    exact iff_of_false (fun h => hnew h.1) fun h => hold h.1
  · rw [setCore_of_ne hc, current_setCore_of_ne hc]

theorem busy_of_pc {pc : Pc} (h : (rt.cores core).pc = pc) (hpc : pc.busy) :
    (rt.cores core).pc.busy := by
  rw [h]
  exact hpc

theorem parks_of_pc {pc : Pc} (h : (rt.cores core).pc = pc) (hpc : pc.parks) :
    (rt.cores core).pc.parks := by
  rw [h]
  exact hpc

theorem not_parks {pc : Pc} (h : (rt.cores core).pc = pc) (hpc : pc.parks = false) :
    ¬ (rt.cores core).pc.parks := by
  rw [h, hpc]
  exact Bool.false_ne_true

/-- A core at the top of the loop has no yarn. -/
theorem ne_of_setCore_top (hk : k.pc = .top) (hc : ((rt.setCore core k).cores c).pc.busy) :
    c ≠ core := by
  rintro rfl
  rw [setCore_self, hk] at hc
  cases hc

theorem lent_core (hc : (rt.cores c).pc.busy) :
    rt.Lent (.core c) c (rt.cores c).activeJob :=
  ⟨rfl, hc, rfl⟩

theorem lent_block (hb : (rt.blocks b).isSuspended) (hp : ¬ rt.Parking b) :
    rt.Lent (.block b) (rt.blocks b).suspensionCore (rt.blocks b).suspensionJob :=
  ⟨hb, hp, rfl, rfl⟩

/-- Who was being parked still is, if `core` goes on with what it was parking. -/
theorem Parking.setCore (h : rt.Parking b) (hkeep : (rt.cores core).pc.parks →
    rt.current core = b → k.pc.parks ∧ k.ttd.yarnCurrent = b) :
    (rt.setCore core k).Parking b := by
  obtain ⟨c, hc, hcur⟩ := h
  by_cases hcc : c = core
  · subst hcc
    obtain ⟨hparks, hb⟩ := hkeep hc hcur
    exact ⟨c, by rw [setCore_self]; exact hparks, current_setCore_self.trans hb⟩
  · exact ⟨c, by rw [setCore_of_ne hcc]; exact hc, (current_setCore_of_ne hcc).trans hcur⟩

/-- Before any yarn exists every block is free. -/
theorem start_freshBlock (cfg : Config) (procs : Nat) (prim sec : Int) (h : block ≠ 0) :
    (start cfg procs prim sec).FreshBlock block :=
  ⟨fun _ => h.symm, fun _ hc => by cases hc⟩

/-! ## Consequences -/

namespace Inv

theorem pid_lt (h : Inv rt) (hc : (rt.cores c).pc.busy) :
    (rt.cores c).activeJob.pid.toNat < rt.maxpid := by
  obtain ⟨l, hl⟩ := h.backed
  exact (hl.holds (.core c) c _ (lent_core hc)).2.2.1

/-- A yarn is on one core. -/
theorem busy_unique (h : Inv rt) (hc : (rt.cores c).pc.busy) (hd : (rt.cores d).pc.busy)
    (hpid : (rt.cores c).activeJob.pid = (rt.cores d).activeJob.pid) : c = d := by
  obtain ⟨l, hl⟩ := h.backed
  by_contra hne
  have hcd : Holder.core c ≠ Holder.core d := fun he => hne (Holder.core.inj he)
  exact hne (hl.apart _ _ c d _ _ (lent_core hc) (lent_core hd) hcd hpid).1

theorem current_unique (h : Inv rt) (hc : (rt.cores c).pc.busy) (hd : (rt.cores d).pc.busy)
    (hcur : rt.current c = rt.current d) : c = d := by
  refine h.busy_unique hc hd ?_
  rw [← (h.running c hc).2.1, hcur, (h.running d hd).2.1]

/-- Before the switch back the yarn is in the table. -/
theorem live (h : Inv rt) (hc : (rt.cores c).pc.busy) (hpc : (rt.cores c).pc ≠ .switched) :
    rt.ptable (rt.cores c).activeJob.pid = rt.current c :=
  (h.running c hc).2.2.resolve_right fun hdone => hpc hdone.2.1

/-- Two blocks marked as suspended have different pids. -/
theorem block_unique (h : Inv rt) {b' : ULong} (hb : (rt.blocks b).isSuspended)
    (hb' : (rt.blocks b').isSuspended) (hpid : (rt.blocks b).pid = (rt.blocks b').pid) :
    b = b' := by
  rw [← (h.suspended b hb).2.1, hpid, (h.suspended b' hb').2.1]

theorem start (cfg : Config) (procs : Nat) (prim sec : Int) :
    Inv (Runtime.start cfg procs prim sec) where
  backed := by
    refine ⟨Ledger.empty, Ledger.Backs.init cfg procs prim sec Nat.one_pos ?_⟩
    intro o c j hj
    cases o with
    | core d => cases hj.2.1
    | block b => cases hj.1
  table := fun pid h => absurd rfl h
  running := fun c h => by cases h
  suspended := fun b h => by cases h
  placed := fun c h => by cases h

/-! ## What each step keeps -/

/-- Only the schedulers change. -/
theorem setMaster (h : Inv rt) (hm : ∃ l', Ledger.Backs l' m rt.maxpid rt.Lent) :
    Inv { rt with master := m } :=
  { h with backed := hm }

/-- The core goes on with its yarn. -/
theorem setBusy (h : Inv rt) (hbusy : (rt.cores core).pc.busy)
    (hpark : ∀ b, rt.Parking b → (rt.setCore core k).Parking b)
    (hpid : k.activeJob.pid = (rt.cores core).activeJob.pid)
    (hdata : k.activeJob.data = (rt.cores core).activeJob.data)
    (hcur : k.ttd.yarnCurrent = rt.current core)
    (hlive : rt.ptable (rt.cores core).activeJob.pid = rt.current core)
    (hplaced : k.pc = .placed → (rt.blocks (rt.current core)).suspensionCore = core) :
    Inv (rt.setCore core k) where
  backed := by
    obtain ⟨l, hl⟩ := h.backed
    refine ⟨l, hl.sub id (fun o c j hj => ?_) fun _ _ _ _ _ _ _ _ he => he⟩
    cases o with
    | core d =>
      obtain ⟨rfl, hd, rfl⟩ := hj
      by_cases hdc : c = core
      · subst hdc
        rw [setCore_self]
        exact ⟨_, lent_core hbusy, hpid, hdata⟩
      · rw [setCore_of_ne hdc] at hd ⊢
        exact ⟨_, lent_core hd, rfl, rfl⟩
    | block b =>
      obtain ⟨hb, hnp, hcj⟩ := hj
      exact ⟨j, ⟨hb, fun hp => hnp (hpark b hp), hcj⟩, rfl, rfl⟩
  table := h.table
  running := by
    intro c hc
    by_cases hcc : c = core
    · subst hcc
      rw [current_setCore_self, setCore_self, hpid, hcur]
      obtain ⟨h0, hcpid, -⟩ := h.running c hbusy
      exact ⟨h0, hcpid, Or.inl hlive⟩
    · rw [setCore_of_ne hcc] at hc ⊢
      rw [current_setCore_of_ne hcc]
      exact h.running c hc
  suspended := by
    intro b hb
    obtain ⟨h0, htable, hbpid⟩ := h.suspended b hb
    exact ⟨h0, htable, fun hnp => hbpid fun hp => hnp (hpark b hp)⟩
  placed := by
    intro c hc
    by_cases hcc : c = core
    · subst hcc
      rw [setCore_self] at hc
      rw [current_setCore_self, hcur]
      exact hplaced hc
    · rw [setCore_of_ne hcc] at hc
      rw [current_setCore_of_ne hcc]
      exact h.placed c hc

/-- The yarn makes a call that leaves the core outside the parking branch. -/
theorem setRunning (h : Inv rt) (hpc : (rt.cores core).pc = .running ∨
      (rt.cores core).pc = .suspending) (hnew : k.pc ≠ .placed)
    (hjob : k.activeJob = (rt.cores core).activeJob)
    (hcur : k.ttd.yarnCurrent = rt.current core) : Inv (rt.setCore core k) := by
  have hbusy : (rt.cores core).pc.busy :=
    hpc.elim (busy_of_pc · rfl) (busy_of_pc · rfl)
  have hold : ¬ (rt.cores core).pc.parks :=
    hpc.elim (not_parks · rfl) (not_parks · rfl)
  have hlive := h.live hbusy (by rcases hpc with hpc | hpc <;> rw [hpc] <;> exact Pc.noConfusion)
  exact h.setBusy hbusy (fun b hp => hp.setCore fun hp _ => absurd hp hold)
    (by rw [hjob]) (by rw [hjob]) hcur hlive fun hk => absurd hk hnew

/-- The loop writes into the block it is parking. -/
theorem writeParked (h : Inv rt) (hparks : (rt.cores core).pc.parks) {y : YarnBlock}
    (hy : y.pid = (rt.blocks (rt.current core)).pid)
    (hplaced : (rt.cores core).pc = .placed → y.suspensionCore = core) :
    Inv (rt.setBlock (rt.current core) y) := by
  have hbusy := Pc.busy_of_parks hparks
  have hself : rt.Parking (rt.current core) := ⟨core, hparks, rfl⟩
  have hpids : ∀ b, ((rt.setBlock (rt.current core) y).blocks b).pid = (rt.blocks b).pid :=
    fun b => setBlock_pid hy b
  obtain ⟨h0, hpid, hlive⟩ := h.running core hbusy
  have hlive := hlive.resolve_right fun hdone => by
    rw [hdone.2.1] at hparks
    cases hparks
  obtain ⟨l, hl⟩ := h.backed
  refine ⟨⟨l, hl.sub id (fun o c j hj => ⟨j, ?_, rfl, rfl⟩) fun _ _ _ _ _ _ _ _ he => he⟩,
    ?_, ?_, ?_, ?_⟩
  · cases o with
    | core d => exact hj
    | block b =>
      obtain ⟨hb, hnp, hcj⟩ := hj
      have hne : b ≠ rt.current core := by
        rintro rfl
        exact hnp hself
      rw [setBlock_of_ne hne] at hb hcj
      exact ⟨hb, hnp, hcj⟩
  · intro q hq
    obtain ⟨hq0, hlt, hqpid⟩ := h.table q hq
    exact ⟨hq0, hlt, (hpids _).trans hqpid⟩
  · intro c hc
    obtain ⟨hc0, hcpid, hclive⟩ := h.running c hc
    exact ⟨hc0, (hpids _).trans hcpid, hclive⟩
  · intro b hb
    by_cases hbc : b = rt.current core
    · subst hbc
      refine ⟨h0, ?_, fun hnp => absurd hself hnp⟩
      rw [hpids, hpid]
      exact hlive
    · rw [setBlock_of_ne hbc] at hb ⊢
      exact h.suspended b hb
  · intro c hc
    by_cases hcc : c = core
    · subst hcc
      exact (congrArg YarnBlock.suspensionCore setBlock_self).trans (hplaced hc)
    · have hcbusy : (rt.cores c).pc.busy := busy_of_pc hc rfl
      have hne : rt.current c ≠ rt.current core := fun he => hcc (h.current_unique hcbusy hbusy he)
      exact (congrArg YarnBlock.suspensionCore (setBlock_of_ne hne)).trans (h.placed c hc)

/-- The core is done with its yarn and goes back to the top of the loop. -/
theorem setTop (h : Inv rt) (hold : ¬ (rt.cores core).pc.parks) (hk : k.pc = .top)
    (hm : ∃ l', Ledger.Backs l' m rt.maxpid (Ledger.settle rt.Lent (.core core))) :
    Inv ({ rt with master := m }.setCore core k) := by
  have hnew : ¬ k.pc.parks := by
    rw [hk]
    exact Bool.false_ne_true
  refine ⟨?_, h.table, fun c hc => ?_, fun b hb => ?_, fun c hc => ?_⟩
  · obtain ⟨l, hl⟩ := hm
    refine ⟨l, hl.sub id (fun o c j hj => ⟨j, ?_, rfl, rfl⟩) fun _ _ _ _ _ _ _ _ he => he⟩
    cases o with
    | core d =>
      obtain ⟨rfl, hd, rfl⟩ := hj
      have hdc := ne_of_setCore_top hk hd
      rw [setCore_of_ne hdc] at hd ⊢
      exact ⟨⟨rfl, hd, rfl⟩, fun he => hdc (Holder.core.inj he)⟩
    | block b =>
      obtain ⟨hb, hpark, hcj⟩ := hj
      refine ⟨⟨hb, fun hp => hpark ?_, hcj⟩, fun he => by cases he⟩
      exact (parking_setCore { rt with master := m } hold hnew).mpr hp
  · have hcc := ne_of_setCore_top hk hc
    rw [setCore_of_ne hcc] at hc ⊢
    rw [current_setCore_of_ne hcc]
    exact h.running c hc
  · obtain ⟨h0, htable, hpid⟩ := h.suspended b hb
    refine ⟨h0, htable, fun hp => hpid fun hp' => hp ?_⟩
    exact (parking_setCore { rt with master := m } hold hnew).mpr hp'
  · have hcc := ne_of_setCore_top hk (busy_of_pc hc rfl)
    rw [setCore_of_ne hcc] at hc
    rw [current_setCore_of_ne hcc]
    exact h.placed c hc

/-- A new pid for a block that no yarn has and that is not marked as suspended. -/
theorem insert (h : Inv rt) (hfresh : rt.FreshBlock block) (h0 : pid ≠ 0)
    (hpid : pid.toNat = rt.maxpid) {y : YarnBlock} (hy : y.pid = pid)
    (hawake : ¬ y.isSuspended) (hm : ∃ l', Ledger.Backs l' m (rt.maxpid + 1) rt.Lent) :
    Inv { rt.setBlock block y with
      master := m
      ptable := Function.update rt.ptable pid block
      maxpid := rt.maxpid + 1 } := by
  obtain ⟨htable, hcur⟩ := hfresh
  have hold : ∀ q : ULong, q.toNat < rt.maxpid →
      Function.update rt.ptable pid block q = rt.ptable q := by
    intro q hq
    refine Function.update_of_ne ?_ _ _
    rintro rfl
    omega
  obtain ⟨l, hl⟩ := hm
  refine ⟨⟨l, hl.sub id (fun o c j hj => ⟨j, ?_, rfl, rfl⟩) fun _ _ _ _ _ _ _ _ he => he⟩,
    ?_, ?_, ?_, ?_⟩
  · cases o with
    | core d => exact hj
    | block b =>
      obtain ⟨hb, hpark, hcj⟩ := hj
      have hne := ne_of_setBlock hawake hb
      rw [setBlock_of_ne hne] at hb hcj
      exact ⟨hb, hpark, hcj⟩
  · intro q hq
    dsimp only at hq ⊢
    by_cases hqp : q = pid
    · subst hqp
      rw [Function.update_self, setBlock_self]
      exact ⟨h0, by omega, hy⟩
    · rw [Function.update_of_ne hqp] at hq ⊢
      rw [setBlock_of_ne (htable q)]
      obtain ⟨hq0, hlt, hqpid⟩ := h.table q hq
      exact ⟨hq0, Nat.lt_succ_of_lt hlt, hqpid⟩
  · intro c hc
    obtain ⟨hc0, hcpid, hlive⟩ := h.running c hc
    refine ⟨hc0, (congrArg YarnBlock.pid (setBlock_of_ne (hcur c hc))).trans hcpid, ?_⟩
    have htab := hold _ (h.pid_lt hc)
    exact hlive.imp htab.trans fun hdone => ⟨htab.trans hdone.1, hdone.2⟩
  · intro b hb
    have hne := ne_of_setBlock hawake hb
    dsimp only at hb ⊢
    rw [setBlock_of_ne hne] at hb ⊢
    obtain ⟨hb0, hbt, hbpid⟩ := h.suspended b hb
    have hlt := (h.table (rt.blocks b).pid (by rw [hbt]; exact hb0)).2.1
    exact ⟨hb0, (hold _ hlt).trans hbt, hbpid⟩
  · intro c hc
    have hbusy : (rt.cores c).pc.busy := busy_of_pc hc rfl
    exact (congrArg YarnBlock.suspensionCore (setBlock_of_ne (hcur c hbusy))).trans (h.placed c hc)

theorem maxpid_pos (h : Inv rt) : 0 < rt.maxpid := by
  obtain ⟨l, hl⟩ := h.backed
  exact Nat.lt_of_le_of_lt (Nat.zero_le _) (hl.keeps.bound 0)

theorem not_suspended_of_fresh (h : Inv rt) (hfresh : rt.FreshBlock block) :
    ¬ (rt.blocks block).isSuspended :=
  fun hb => hfresh.1 _ (h.suspended block hb).2.1

/-- The next pid is the number of pids so far. -/
theorem maxpid_toNat (cfg : Config) {n : Nat} (h : n + 1 < cfg.maxProcesses) :
    (BitVec.ofNat 64 n).toNat = n := by
  have := cfg.maxProcesses_le
  rw [BitVec.toNat_ofNat]
  omega

theorem pid_new (h : Inv rt) (cfg : Config) (hlt : rt.maxpid + 1 < cfg.maxProcesses)
    (hpid : pid = BitVec.ofNat 64 rt.maxpid) : pid.toNat = rt.maxpid ∧ pid ≠ 0 := by
  have hpos := h.maxpid_pos
  have hn : pid.toNat = rt.maxpid := by
    rw [hpid]
    exact maxpid_toNat cfg hlt
  refine ⟨hn, ?_⟩
  rintro rfl
  rw [zero_toNat] at hn
  omega

theorem dispatch {now : ULong} (h : Inv rt) (hpc : (rt.cores core).pc = .top)
    (hp : rt.ptable job.pid ≠ 0)
    (hm : ∃ l', Ledger.Backs l' m rt.maxpid (Ledger.lend rt.Lent (.core core) core job)) :
    Inv ({ rt with master := m }.dispatch core job now) := by
  have hold : ¬ (rt.cores core).pc.parks := not_parks hpc rfl
  have hpark : ∀ b, ({ rt with master := m }.dispatch core job now).Parking b ↔ rt.Parking b :=
    fun b => parking_setCore _ hold Bool.false_ne_true
  have hcores : ∀ c, c ≠ core →
      ({ rt with master := m }.dispatch core job now).cores c = rt.cores c :=
    fun c hc => setCore_of_ne hc
  have hself : ({ rt with master := m }.dispatch core job now).cores core =
      ⟨.running, job, .dispatch (rt.ptable job.pid) job now⟩ := setCore_self
  obtain ⟨l, hl⟩ := hm
  refine ⟨⟨l, hl.sub id (fun o c j hj => ⟨j, ?_, rfl, rfl⟩) fun _ _ _ _ _ _ _ _ he => he⟩,
    ?_, ?_, ?_, ?_⟩
  · cases o with
    | core d =>
      obtain ⟨rfl, hd, rfl⟩ := hj
      by_cases hdc : c = core
      · subst hdc
        rw [hself]
        exact Or.inr ⟨rfl, rfl, rfl⟩
      · rw [hcores c hdc] at hd ⊢
        exact Or.inl (lent_core hd)
    | block b =>
      obtain ⟨hb, hnp, hc, hj⟩ := hj
      obtain ⟨home, hblock⟩ := dispatch_block { rt with master := m } core job now b
      rw [hblock] at hb hc hj
      exact Or.inl ⟨hb, fun hp => hnp ((hpark b).mpr hp), hc, hj⟩
  · intro pid hpid
    obtain ⟨home, hblock⟩ := dispatch_block { rt with master := m } core job now (rt.ptable pid)
    obtain ⟨h0, hlt, hbp⟩ := h.table pid hpid
    exact ⟨h0, hlt, (congrArg YarnBlock.pid hblock).trans hbp⟩
  · intro c hc
    by_cases hcc : c = core
    · subst hcc
      rw [current, hself]
      obtain ⟨home, hblock⟩ :=
        dispatch_block { rt with master := m } c job now (rt.ptable job.pid)
      exact ⟨hp, (congrArg YarnBlock.pid hblock).trans (h.table job.pid hp).2.2, Or.inl rfl⟩
    · rw [current, hcores c hcc]
      rw [hcores c hcc] at hc
      obtain ⟨home, hblock⟩ := dispatch_block { rt with master := m } core job now (rt.current c)
      obtain ⟨h0, hbp, hlive⟩ := h.running c hc
      exact ⟨h0, (congrArg YarnBlock.pid hblock).trans hbp, hlive⟩
  · intro b hb
    obtain ⟨home, hblock⟩ := dispatch_block { rt with master := m } core job now b
    rw [hblock] at hb ⊢
    obtain ⟨h0, hbt, hbp⟩ := h.suspended b hb
    exact ⟨h0, hbt, fun hnp => hbp fun hp => hnp ((hpark b).mpr hp)⟩
  · intro c hc
    by_cases hcc : c = core
    · subst hcc
      rw [hself] at hc
      cases hc
    · rw [hcores c hcc] at hc
      rw [current, hcores c hcc]
      obtain ⟨home, hblock⟩ := dispatch_block { rt with master := m } core job now (rt.current c)
      exact (congrArg YarnBlock.suspensionCore hblock).trans (h.placed c hc)

/-- A yarn that has returned leaves the table. -/
theorem forget (h : Inv rt) (hpc : (rt.cores core).pc = .switched)
    (hrt : (rt.cores core).ttd.runtime = UNSCHEDULE)
    (hawake : ¬ (rt.blocks (rt.current core)).isSuspended) :
    Inv { rt with
      ptable := Function.update rt.ptable (rt.blocks (rt.current core)).pid 0 } := by
  have hbusy : (rt.cores core).pc.busy := busy_of_pc hpc rfl
  obtain ⟨-, hpid, hlive⟩ := h.running core hbusy
  refine ⟨h.backed, ?_, ?_, ?_, h.placed⟩
  · intro q hq
    dsimp only at hq ⊢
    have hne : q ≠ (rt.blocks (rt.current core)).pid := by
      rintro rfl
      exact hq (Function.update_self ..)
    rw [Function.update_of_ne hne] at hq ⊢
    exact h.table q hq
  · intro c hc
    dsimp only at hc ⊢
    obtain ⟨hc0, hcpid, hclive⟩ := h.running c hc
    refine ⟨hc0, hcpid, ?_⟩
    by_cases hcc : c = core
    · subst hcc
      rw [hpid, Function.update_self]
      exact Or.inr ⟨rfl, hpc, hrt⟩
    · have hne : (rt.cores c).activeJob.pid ≠ (rt.blocks (rt.current core)).pid := by
        rw [hpid]
        exact fun he => hcc (h.busy_unique hc hbusy he)
      rw [Function.update_of_ne hne]
      exact hclive
  · intro b hb
    dsimp only at hb ⊢
    obtain ⟨hb0, hbt, hbpid⟩ := h.suspended b hb
    refine ⟨hb0, ?_, hbpid⟩
    have hne : (rt.blocks b).pid ≠ (rt.blocks (rt.current core)).pid := by
      intro he
      rw [he, hpid] at hbt
      rcases hlive with hlive | ⟨hz, -⟩
      · obtain rfl : b = rt.current core := hbt.symm.trans hlive
        exact hawake hb
      · exact hb0 (hbt.symm.trans hz)
    rw [Function.update_of_ne hne]
    exact hbt

theorem ret (h : Inv rt) (hpc : (rt.cores core).pc = .running)
    (hawake : ¬ (rt.blocks (rt.current core)).isSuspended) :
    Inv { rt.switchOut core (rt.cores core).ttd.launcherDone with
      ptable := Function.update rt.ptable (rt.blocks (rt.current core)).pid 0 } := by
  have hswitch := h.setRunning (Or.inl hpc)
    (k := { rt.cores core with pc := .switched, ttd := (rt.cores core).ttd.launcherDone })
    Pc.noConfusion rfl rfl
  have hforget := hswitch.forget (congrArg Core.pc setCore_self)
    (by rw [setCore_self]; rfl) (by rw [current_setCore_self]; exact hawake)
  rw [current_setCore_self] at hforget
  exact hforget

/-- The loop enters the parking branch. -/
theorem flag (h : Inv rt) (hpc : (rt.cores core).pc = .switched)
    (hrt : (rt.cores core).ttd.runtime ≠ UNSCHEDULE)
    (hpid : job.pid = (rt.cores core).activeJob.pid)
    (hdata : job.data = (rt.cores core).activeJob.data) :
    Inv ((rt.setBlock (rt.current core)
        { rt.blocks (rt.current core) with isSuspended := true }).setCore core
      { rt.cores core with pc := .flagged, activeJob := job }) := by
  have hbusy : (rt.cores core).pc.busy := busy_of_pc hpc rfl
  have hold : ¬ (rt.cores core).pc.parks := not_parks hpc rfl
  have hlive := (h.running core hbusy).2.2.resolve_right fun hdone => hrt hdone.2.2
  have henter := h.setBusy (k := { rt.cores core with pc := .flagged, activeJob := job }) hbusy
    (fun b hp => hp.setCore fun hp _ => absurd hp hold) hpid hdata rfl hlive Pc.noConfusion
  have hparks : ((rt.setCore core
      { rt.cores core with pc := .flagged, activeJob := job }).cores core).pc.parks :=
    parks_of_pc (congrArg Core.pc setCore_self) rfl
  have hwrite := henter.writeParked hparks
    (y := { rt.blocks (rt.current core) with isSuspended := true })
    (by rw [current_setCore_self]; rfl) (by rw [setCore_self]; exact Pc.noConfusion)
  rw [current_setCore_self] at hwrite
  exact hwrite

/-- Besides the core itself only parked yarns have a job of this core, with a pid each. -/
theorem alone (h : Inv rt) {o o' : Holder} {j j' : SchedulerJob}
    (hj : Ledger.settle rt.Lent (.core core) o core j)
    (hj' : Ledger.settle rt.Lent (.core core) o' core j') (he : j.pid = j'.pid) : o = o' := by
  obtain ⟨hj, hne⟩ := hj
  obtain ⟨hj', hne'⟩ := hj'
  cases o with
  | core d =>
    obtain ⟨rfl, -⟩ := hj
    exact absurd rfl hne
  | block b =>
    cases o' with
    | core d =>
      obtain ⟨rfl, -⟩ := hj'
      exact absurd rfl hne'
    | block b' =>
      obtain ⟨hb, hnp, -, rfl⟩ := hj
      obtain ⟨hb', hnp', -, rfl⟩ := hj'
      rw [(h.suspended b hb).2.2 hnp, (h.suspended b' hb').2.2 hnp'] at he
      rw [h.block_unique hb hb' he]

theorem parkCore (h : Inv rt) (hpc : (rt.cores core).pc = .flagged) :
    Inv (rt.parkCore core) := by
  have hparks : (rt.cores core).pc.parks := parks_of_pc hpc rfl
  have hwrite := h.writeParked hparks
    (y := { rt.blocks (rt.current core) with suspensionCore := core }) rfl fun _ => rfl
  have hbusy := Pc.busy_of_parks hparks
  exact hwrite.setBusy hbusy (fun b hp => hp.setCore fun _ hcur => ⟨rfl, hcur⟩) rfl rfl rfl
    (h.live hbusy (by rw [hpc]; exact Pc.noConfusion))
    fun _ => congrArg YarnBlock.suspensionCore setBlock_self

/-- The loan goes from the core to the block. -/
theorem leave (h : Inv rt) (hpc : (rt.cores core).pc = .placed)
    (hjob : (rt.blocks (rt.current core)).suspensionJob = (rt.cores core).activeJob)
    (hk : k.pc = .top) : Inv (rt.setCore core k) := by
  have hparks : (rt.cores core).pc.parks := parks_of_pc hpc rfl
  have hbusy := Pc.busy_of_parks hparks
  have hne : ∀ c, ((rt.setCore core k).cores c).pc.busy → c ≠ core := by
    rintro c hc rfl
    rw [setCore_self, hk] at hc
    cases hc
  -- a block parked by another core is still being parked
  have hpark : ∀ b, b ≠ rt.current core → rt.Parking b → (rt.setCore core k).Parking b :=
    fun b hb hp => hp.setCore fun _ hcur => absurd hcur.symm hb
  obtain ⟨l, hl⟩ := h.backed
  refine ⟨⟨l, hl.sub (fun o => if o = .block (rt.current core) then .core core else o)
    (fun o c j hj => ⟨j, ?_, rfl, rfl⟩) fun o o' c c' j j' hj hj' he => ?_⟩, h.table, ?_, ?_, ?_⟩
  · cases o with
    | core d =>
      obtain ⟨rfl, hd, rfl⟩ := hj
      rw [if_neg Holder.noConfusion, setCore_of_ne (hne c hd)]
      rw [setCore_of_ne (hne c hd)] at hd
      exact lent_core hd
    | block b =>
      obtain ⟨hb, hnp, rfl, rfl⟩ := hj
      by_cases hbc : b = rt.current core
      · subst hbc
        rw [if_pos rfl, setCore_blocks, hjob, h.placed core hpc]
        exact lent_core hbusy
      · rw [if_neg fun heq => hbc (Holder.block.inj heq)]
        exact lent_block hb fun hp => hnp (hpark b hbc hp)
  · -- the core holds nothing any more
    have hnot : ∀ {o c j}, (rt.setCore core k).Lent o c j → o ≠ .core core := by
      rintro o c j hj rfl
      exact hne core hj.2.1 rfl
    split at he <;> split at he
    · rename_i ho ho'
      rw [ho, ho']
    · exact absurd he.symm (hnot hj')
    · exact absurd he (hnot hj)
    · exact he
  · intro c hc
    have hcc := hne c hc
    rw [setCore_of_ne hcc] at hc ⊢
    rw [current_setCore_of_ne hcc]
    exact h.running c hc
  · intro b hb
    obtain ⟨hb0, hbt, hbpid⟩ := h.suspended b hb
    refine ⟨hb0, hbt, fun hnp => ?_⟩
    by_cases hbc : b = rt.current core
    · subst hbc
      rw [setCore_blocks, hjob, (h.running core hbusy).2.1]
    · exact hbpid fun hp => hnp (hpark b hbc hp)
  · intro c hc
    have hcc := hne c (by rw [hc]; rfl)
    rw [setCore_of_ne hcc] at hc
    rw [current_setCore_of_ne hcc]
    exact h.placed c hc

theorem parkJob (h : Inv rt) (hpc : (rt.cores core).pc = .placed) : Inv (rt.parkJob core) := by
  have hparks : (rt.cores core).pc.parks := parks_of_pc hpc rfl
  have hwrite := h.writeParked hparks
    (y := { rt.blocks (rt.current core) with suspensionJob := (rt.cores core).activeJob }) rfl
    (h.placed core)
  exact hwrite.leave hpc (congrArg YarnBlock.suspensionJob setBlock_self) rfl

/-- A parked yarn is not marked any more, and its job goes back. -/
theorem wake (h : Inv rt) (hb : (rt.blocks block).isSuspended) (hnp : ¬ rt.Parking block)
    (hm : rt.master.masterSchedReschedule cfg (rt.blocks block).suspensionCore
      (rt.blocks block).suspensionJob = some m) :
    Inv { rt.setBlock block { rt.blocks block with isSuspended := false } with master := m } := by
  have hpids : ∀ b, ((rt.setBlock block
      { rt.blocks block with isSuspended := false }).blocks b).pid = (rt.blocks b).pid :=
    fun b => setBlock_pid (by rfl) b
  obtain ⟨l, hl⟩ := h.backed
  obtain ⟨-, -, l', hl'⟩ := hl.reschedule (lent_block hb hnp) rfl rfl hm
  refine ⟨⟨l', hl'.sub id (fun o c j hj => ⟨j, ?_, rfl, rfl⟩) fun _ _ _ _ _ _ _ _ he => he⟩,
    ?_, ?_, ?_, ?_⟩
  · cases o with
    | core d => exact ⟨hj, fun he => by cases he⟩
    | block b =>
      obtain ⟨hb', hnp', hcj⟩ := hj
      have hne := ne_of_setBlock Bool.false_ne_true hb'
      rw [setBlock_of_ne hne] at hb' hcj
      exact ⟨⟨hb', hnp', hcj⟩, fun he => hne (Holder.block.inj he)⟩
  · intro q hq
    obtain ⟨hq0, hlt, hqpid⟩ := h.table q hq
    exact ⟨hq0, hlt, (hpids _).trans hqpid⟩
  · intro c hc
    obtain ⟨hc0, hcpid, hclive⟩ := h.running c hc
    exact ⟨hc0, (hpids _).trans hcpid, hclive⟩
  · intro b hb'
    have hne := ne_of_setBlock Bool.false_ne_true hb'
    dsimp only at hb' ⊢
    rw [setBlock_of_ne hne] at hb' ⊢
    exact h.suspended b hb'
  · intro c hc
    have hparks : (rt.cores c).pc.parks := parks_of_pc hc rfl
    have hne : rt.current c ≠ block := fun he => hnp ⟨c, hparks, he⟩
    exact (congrArg YarnBlock.suspensionCore (setBlock_of_ne hne)).trans (h.placed c hc)

end Inv

/-- Every regular step keeps the invariant, if a yarn that returns is awake. -/
theorem step_inv (h : Inv rt) (hreg : rt.Regular a) (hawake : rt.Awake a)
    (hs : rt.step cfg a = some rt') : Inv rt' := by
  obtain ⟨l, hl⟩ := h.backed
  cases step_outcome hs with
  | yarnNew hblock hpid hlt hm =>
    obtain ⟨hn, h0⟩ := h.pid_new cfg hlt hpid
    exact h.insert hreg h0 hn rfl (h.not_suspended_of_fresh hreg) (hl.schedule h0 hn hm).2.2
  | leastLoad hm => exact h.setMaster (hl.leastLoad hm).2.2
  | hoist hne hm => exact h.setMaster (hl.hoist hne hm).2.2
  | @idle core _ _ _ _ _ _ hpc hm hk =>
    -- with the pid of a dead yarn its job is lost
    refine h.setTop (not_parks hpc rfl) hk ?_
    rcases (hl.select (.core core) hm).2.2 with ⟨-, l', hl'⟩ | ⟨-, l', hl'⟩
    · exact ⟨l', hl'.sub id (fun o c j hj => ⟨j, hj.1, rfl, rfl⟩) fun _ _ _ _ _ _ _ _ he => he⟩
    · exact ⟨l', hl'.sub id (fun o c j hj => ⟨j, Or.inl hj.1, rfl, rfl⟩)
        fun _ _ _ _ _ _ _ _ he => he⟩
  | @dispatch core _ _ _ _ _ hpc hm h0 hp =>
    rcases (hl.select (.core core) hm).2.2 with ⟨hz, -⟩ | ⟨-, hl'⟩
    · exact absurd hz h0
    · exact h.dispatch hpc hp hl'
  | register hpc => exact h.setRunning (Or.inl hpc) Pc.noConfusion rfl rfl
  | switch ha hpc hcur hsus => exact h.setRunning (Or.inl hpc) Pc.noConfusion rfl hcur
  | goOn => exact h
  | suspend hpc hcur hsus => exact h.setRunning (Or.inr hpc) Pc.noConfusion rfl hcur
  | ret hpc hhome => exact h.ret hpc hawake
  | stray hhome hpc => exact absurd hreg hhome
  | unschedule hpc hpid hdata hm =>
    have hbusy := busy_of_pc hpc rfl
    refine h.setTop (not_parks hpc rfl) rfl ?_
    exact (hl.unschedule (lent_core hbusy) hpid hdata (fun o o' j j' => h.alone) hm).2.2
  | reschedule hpc hpid hdata hm =>
    have hbusy := busy_of_pc hpc rfl
    refine h.setTop (not_parks hpc rfl) rfl ?_
    exact (hl.reschedule (lent_core hbusy) hpid hdata hm).2.2
  | flag hpc hpid hdata hrt => exact h.flag hpc hrt hpid hdata
  | parkCore hpc => exact h.parkCore hpc
  | parkJob hpc => exact h.parkJob hpc
  | ignore => exact h
  | wake hp hsus hm => exact h.wake hsus hreg hm

end Yarns.Runtime
