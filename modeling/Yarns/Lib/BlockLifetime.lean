import Yarns.Lib.Whereabouts

/-!
# The blocks of the yarns

`yarn_new` takes the block of a yarn from the pool, and with it a stack; the loop gives both
back when the routine has returned. In an orderly run a block is out of the pool exactly as
long as its yarn is in the process table or a core is busy with it (`blocks_released`): no
step touches a block that was given back, none is given back while it is in use, and none
is leaked. That the pool hands out only what it has is the one condition here about blocks;
it takes the place of `FreshBlock`. A `yarn_new` is one step here too, so this is about calls
of it that do not overlap.
-/

namespace Yarns.Runtime

open Base Master

/-- The runtime and the blocks that are out of the pool. -/
structure Pooled where
  runtime : Runtime
  held : ULong → Bool

/-- The blocks out of the pool after a step. -/
def heldAfter (rt : Runtime) (held : ULong → Bool) : Action → ULong → Bool
  | .yarnNew _ block _ => Function.update held block true
  | .finish core =>
    match (rt.cores core).ttd.afterSwap (rt.cores core).activeJob with
    | .unschedule _ => Function.update held (rt.current core) false
    | .park _ | .reschedule _ => held
  | _ => held

def poolStep (cfg : Config) (s : Pooled) (a : Action) : Option Pooled :=
  (s.runtime.step cfg a).map fun rt => ⟨rt, heldAfter s.runtime s.held a⟩

def poolStart (cfg : Config) (procs : Nat) (prim sec : Int) : Pooled :=
  ⟨start cfg procs prim sec, fun _ => false⟩

/-- The blocks that a step reads or writes, other than a new one. -/
def touches (rt rt' : Runtime) : Action → List ULong
  | .yarnNew .. | .leastLoad | .hoist .. => []
  | .select core .. => if (rt'.cores core).pc = .running then [rt'.current core] else []
  | .register core | .yield core .. | .mark core _ | .suspend core _ | .ret core | .finish core
  | .parkCore core | .parkJob core => [rt.current core]
  | .resume pid => [rt.ptable pid]

/-- The yarn is in the table, or a core is busy with it. -/
def InUse (rt : Runtime) (b : ULong) : Prop :=
  b ≠ 0 ∧ (∃ pid, rt.ptable pid = b) ∨ ∃ c, (rt.cores c).pc.busy ∧ rt.current c = b

/-- As `Regular`, with what the pool does in place of `FreshBlock`. -/
def PoolRegular (s : Pooled) : Action → Prop
  | .yarnNew _ block _ => s.held block = false
  | a => s.runtime.Regular a

structure PoolOrderly (s : Pooled) (a : Action) : Prop where
  regular : PoolRegular s a
  shared : s.runtime.ParksShared a
  free : s.runtime.FreeCore a
  unmarked : s.runtime.Unmarked a

/-- What a step does with blocks. -/
structure MemorySafe (s : Pooled) (a : Action) (t : Pooled) : Prop where
  touched : ∀ b ∈ touches s.runtime t.runtime a, s.held b = true
  exact : ∀ b, t.held b = true ↔ t.runtime.InUse b

variable {cfg : Config} {rt rt' : Runtime} {core c : Nat} {b block pid : ULong} {k : Core}
  {a : Action} {s t : Pooled} {job : SchedulerJob} {now : ULong}

/-! ## Who uses a block -/

theorem inUse_congr (htable : rt'.ptable = rt.ptable)
    (hbusy : ∀ c, (rt'.cores c).pc.busy = (rt.cores c).pc.busy)
    (hcur : ∀ c, (rt.cores c).pc.busy → rt'.current c = rt.current c) :
    rt'.InUse b ↔ rt.InUse b := by
  rw [InUse, InUse, htable]
  refine or_congr Iff.rfl (exists_congr fun c => ?_)
  rw [hbusy]
  exact and_congr_right fun hc => by rw [hcur c hc]

theorem inUse_setCore (hcores : rt'.cores = (rt.setCore core k).cores)
    (htable : rt'.ptable = rt.ptable) (hbusy : k.pc.busy = (rt.cores core).pc.busy)
    (hcur : (rt.cores core).pc.busy → k.ttd.yarnCurrent = rt.current core) :
    rt'.InUse b ↔ rt.InUse b := by
  refine inUse_congr htable (fun c => ?_) fun c hc => ?_
  · rw [hcores]
    by_cases hcc : c = core
    · subst hcc
      rw [setCore_self, hbusy]
    · rw [setCore_of_ne hcc]
  · rw [current, hcores]
    by_cases hcc : c = core
    · subst hcc
      rw [setCore_self]
      exact hcur hc
    · rw [setCore_of_ne hcc]
      rfl

/-- A core goes back to the top of the loop. -/
theorem inUse_top (hcores : rt'.cores = (rt.setCore core k).cores)
    (htable : rt'.ptable = rt.ptable) (hk : k.pc = .top) :
    rt'.InUse b ↔ b ≠ 0 ∧ (∃ pid, rt.ptable pid = b) ∨
      ∃ c, c ≠ core ∧ (rt.cores c).pc.busy ∧ rt.current c = b := by
  rw [InUse, htable]
  refine or_congr Iff.rfl (exists_congr fun c => ?_)
  by_cases hcc : c = core
  · subst hcc
    rw [hcores, setCore_self, hk]
    exact iff_of_false (fun h => by cases h.1) fun h => h.1 rfl
  · rw [current, hcores, setCore_of_ne hcc]
    exact ⟨fun h => ⟨hcc, h⟩, And.right⟩

/-- A core leaves a yarn that stays in the table. -/
theorem inUse_leave (h : Inv rt) (hcores : rt'.cores = (rt.setCore core k).cores)
    (htable : rt'.ptable = rt.ptable) (hk : k.pc = .top) (hbusy : (rt.cores core).pc.busy)
    (hlive : rt.ptable (rt.cores core).activeJob.pid = rt.current core) :
    rt'.InUse b ↔ rt.InUse b := by
  rw [inUse_top hcores htable hk]
  constructor
  · exact Or.imp_right fun ⟨c, _, hc⟩ => ⟨c, hc⟩
  · rintro (htab | ⟨c, hc, hcur⟩)
    · exact Or.inl htab
    · by_cases hcc : c = core
      · subst hcc
        exact Or.inl ⟨hcur ▸ (h.running c hbusy).1, _, hlive.trans hcur⟩
      · exact Or.inr ⟨c, hcc, hc, hcur⟩

theorem inUse_dispatch {m : Master} (hpc : (rt.cores core).pc = .top)
    (hp : rt.ptable job.pid ≠ 0) :
    ({ rt with master := m }.dispatch core job now).InUse b ↔ rt.InUse b := by
  have hself : ({ rt with master := m }.dispatch core job now).cores core =
      ⟨.running, job, .dispatch (rt.ptable job.pid) job now⟩ := setCore_self
  have hoff : ∀ c, c ≠ core →
      ({ rt with master := m }.dispatch core job now).cores c = rt.cores c :=
    fun c hc => setCore_of_ne hc
  constructor
  · rintro (htab | ⟨c, hc, hcur⟩)
    · exact Or.inl htab
    · by_cases hcc : c = core
      · subst hcc
        rw [current, hself] at hcur
        exact Or.inl ⟨hcur ▸ hp, _, hcur⟩
      · rw [hoff c hcc] at hc
        rw [current, hoff c hcc] at hcur
        exact Or.inr ⟨c, hc, hcur⟩
  · rintro (htab | ⟨c, hc, hcur⟩)
    · exact Or.inl htab
    · have hcc : c ≠ core := by
        rintro rfl
        rw [hpc] at hc
        cases hc
      refine Or.inr ⟨c, ?_, ?_⟩
      · rw [hoff c hcc]
        exact hc
      · rw [current, hoff c hcc]
        exact hcur

/-- A yarn that returns leaves the table; the core is still busy with its block. -/
theorem inUse_ret (h : Inv rt) (hpc : (rt.cores core).pc = .running) {ttd : ThreadData}
    (hcur : ttd.yarnCurrent = rt.current core) :
    ({ rt.switchOut core ttd with
      ptable := Function.update rt.ptable (rt.blocks (rt.current core)).pid 0 }).InUse b ↔
      rt.InUse b := by
  have hbusy := busy_of_pc hpc rfl
  obtain ⟨h0, hpid, hlive⟩ := h.running core hbusy
  have hlive := hlive.resolve_right fun hdone => by
    rw [hpc] at hdone
    cases hdone.2.1
  have hcores : (∃ c, ((rt.switchOut core ttd).cores c).pc.busy ∧
      (rt.switchOut core ttd).current c = b) ↔ ∃ c, (rt.cores c).pc.busy ∧ rt.current c = b := by
    refine exists_congr fun c => ?_
    by_cases hcc : c = core
    · subst hcc
      rw [switchOut, current_setCore_self, setCore_self, hcur, hpc]
      exact Iff.rfl
    · rw [switchOut, current_setCore_of_ne hcc, setCore_of_ne hcc]
  constructor
  · rintro (⟨hb, q, hq⟩ | hc)
    · dsimp only at hq
      by_cases hqp : q = (rt.blocks (rt.current core)).pid
      · rw [hqp, Function.update_self] at hq
        exact absurd hq.symm hb
      · rw [Function.update_of_ne hqp] at hq
        exact Or.inl ⟨hb, q, hq⟩
    · exact Or.inr (hcores.mp hc)
  · rintro (⟨hb, q, hq⟩ | hc)
    · by_cases hqp : q = (rt.blocks (rt.current core)).pid
      · rw [hqp, hpid, hlive] at hq
        exact Or.inr (hcores.mpr ⟨core, hbusy, hq⟩)
      · refine Or.inl ⟨hb, q, ?_⟩
        dsimp only
        rw [Function.update_of_ne hqp]
        exact hq
    · exact Or.inr (hcores.mpr hc)

/-! ## Steps -/

/-- What the pool does not hand out twice is fresh. -/
theorem PoolOrderly.orderly (hgood : PoolOrderly s a) (hexact : ∀ b, s.held b = true ↔
    s.runtime.InUse b) (hs : s.runtime.step cfg a = some rt') : s.runtime.Orderly a := by
  refine ⟨?_, hgood.shared, hgood.free, hgood.unmarked⟩
  have hreg := hgood.regular
  cases a with
  | yarnNew nice block ptr =>
    have hfree : ¬ s.runtime.InUse block := by
      rw [← hexact, show s.held block = false from hreg]
      exact Bool.false_ne_true
    have h0 : block ≠ 0 := by
      rintro rfl
      cases hs
    exact ⟨fun pid hp => hfree (Or.inl ⟨h0, pid, hp⟩),
      fun c hc hcur => hfree (Or.inr ⟨c, hc, hcur⟩)⟩
  | _ => exact hreg

/-- The pid of a new yarn had no block. -/
theorem inUse_yarnNew {nice : Int} {m : Master} (hold : rt.ptable pid = 0) (hblock : block ≠ 0) :
    ({ rt.setBlock block { rt.blocks block with pid, nice, home := none } with
      master := m
      ptable := Function.update rt.ptable pid block
      maxpid := rt.maxpid + 1 } : Runtime).InUse b ↔ b = block ∨ rt.InUse b := by
  constructor
  · rintro (⟨hb, q, hq⟩ | hc)
    · dsimp only at hq
      by_cases hqp : q = pid
      · rw [hqp, Function.update_self] at hq
        exact Or.inl hq.symm
      · rw [Function.update_of_ne hqp] at hq
        exact Or.inr (Or.inl ⟨hb, q, hq⟩)
    · exact Or.inr (Or.inr hc)
  · rintro (rfl | ⟨hb, q, hq⟩ | hc)
    · exact Or.inl ⟨hblock, pid, Function.update_self ..⟩
    · have hqp : q ≠ pid := by
        rintro rfl
        exact hb (hq.symm.trans hold)
      refine Or.inl ⟨hb, q, ?_⟩
      dsimp only
      rw [Function.update_of_ne hqp]
      exact hq
    · exact Or.inr hc

/-- The block of a yarn that has returned is only used by the core that gives it back. -/
theorem inUse_unschedule (h : Inv rt) (hbusy : (rt.cores core).pc.busy)
    (hdead : rt.ptable (rt.cores core).activeJob.pid = 0) (hk : k.pc = .top) {m : Master} :
    ({ rt with master := m }.setCore core k).InUse b ↔ b ≠ rt.current core ∧ rt.InUse b := by
  obtain ⟨-, hpid, -⟩ := h.running core hbusy
  refine Iff.trans (inUse_top rfl rfl hk) ?_
  constructor
  · rintro (⟨hb, q, hq⟩ | ⟨c, hcc, hc, hcur⟩)
    · refine ⟨?_, Or.inl ⟨hb, q, hq⟩⟩
      rintro rfl
      have hqpid := (h.table q (by rwa [hq])).2.2
      rw [hq, hpid] at hqpid
      rw [← hqpid, hdead] at hq
      exact hb hq.symm
    · refine ⟨?_, Or.inr ⟨c, hc, hcur⟩⟩
      rintro rfl
      exact hcc (h.current_unique hc hbusy hcur)
  · rintro ⟨hb, htab | ⟨c, hc, hcur⟩⟩
    · exact Or.inl htab
    · refine Or.inr ⟨c, ?_, hc, hcur⟩
      rintro rfl
      exact hb hcur.symm

theorem update_held_iff {held : ULong → Bool} {x : Bool} :
    Function.update held block x b = true ↔ b = block ∧ x = true ∨ b ≠ block ∧ held b = true := by
  rw [Function.update_apply]
  split
  next hb => simp [hb]
  next hb => simp [hb]

/-- The pool keeps track of who uses which block. -/
theorem step_exact (h : Tracked rt) (hgood : rt.Orderly a) (hs : rt.step cfg a = some rt')
    {held : ULong → Bool} (hexact : ∀ b, held b = true ↔ rt.InUse b) (b : ULong) :
    heldAfter rt held a b = true ↔ rt'.InUse b := by
  have hinv := h.asleep.inv
  cases step_outcome hs with
  | @yarnNew nice block ptr pid m hblock hpid hlt hm =>
    have hold : rt.ptable pid = 0 := by
      by_contra hp
      have hn := (hinv.pid_new cfg hlt hpid).1
      have hlt := (hinv.table pid hp).2.1
      omega
    rw [inUse_yarnNew hold hblock, heldAfter, update_held_iff, hexact]
    tauto
  | leastLoad => exact hexact b
  | hoist => exact hexact b
  | idle hpc hm hk =>
    refine (hexact b).trans (inUse_setCore rfl rfl ?_ fun hb => ?_).symm
    · rw [hk, hpc]
    · rw [hpc] at hb
      cases hb
  | dispatch hpc hm h0 hp => exact (hexact b).trans (inUse_dispatch hpc hp).symm
  | register hpc =>
    refine Iff.trans (hexact b) (Iff.symm ?_)
    apply inUse_setCore rfl rfl
    · rw [hpc]
      rfl
    · exact fun _ => rfl
  | @switch a core ttd ha hpc hcur =>
    have hsame : (rt.switchOut core ttd).InUse b ↔ rt.InUse b := by
      apply inUse_setCore rfl rfl
      · rw [hpc]
        rfl
      · exact fun _ => hcur
    rcases ha with ⟨target, t, rfl⟩ | ⟨t, rfl⟩
    · exact (hexact b).trans hsame.symm
    · exact (hexact b).trans hsame.symm
  | goOn => exact hexact b
  | suspend hpc hcur =>
    refine Iff.trans (hexact b) (Iff.symm ?_)
    apply inUse_setCore rfl rfl
    · rw [hpc]
      rfl
    · exact fun _ => hcur
  | ret hpc =>
    refine Iff.trans (hexact b) (Iff.symm ?_)
    exact inUse_ret hinv hpc (show (ThreadData.launcherDone _).yarnCurrent = _ from rfl)
  | stray hhome => exact absurd hgood.regular hhome
  | @unschedule core job m hpc hpid hdata hm hact =>
    have hdead := h.returned core hpc (unschedules_afterSwap.mp ⟨job, congrArg some hact⟩)
    rw [inUse_unschedule hinv (busy_of_pc hpc rfl) hdead rfl]
    simp only [heldAfter, hact, update_held_iff, hexact]
    simp
  | @reschedule core job m hpc hpid hdata hm hact =>
    have hbusy := busy_of_pc hpc rfl
    have hlive := ((hinv.running core hbusy).2.2).resolve_right fun hdone => by
      rw [afterSwap_unschedule hdone.2.2] at hact
      cases hact
    simp only [heldAfter, hact]
    exact (hexact b).trans (inUse_leave hinv rfl rfl rfl hbusy hlive).symm
  | @flag core job hpc hpid hdata hrt hsus hpark =>
    simp only [heldAfter, hpark]
    refine Iff.trans (hexact b) (Iff.symm ?_)
    apply inUse_setCore rfl rfl
    · show true = (rt.cores core).pc.busy
      rw [hpc]
      rfl
    · exact fun _ => rfl
  | @parkCore core hpc =>
    refine Iff.trans (hexact b) (Iff.symm ?_)
    apply inUse_setCore rfl rfl
    · show true = (rt.cores core).pc.busy
      rw [hpc]
      rfl
    · exact fun _ => rfl
  | @parkJob core hpc =>
    have hbusy := busy_of_pc hpc rfl
    have hlive := ((hinv.running core hbusy).2.2).resolve_right fun hdone => by
      rw [hpc] at hdone
      cases hdone.2.1
    exact (hexact b).trans (inUse_leave hinv rfl rfl rfl hbusy hlive).symm
  | ignore => exact hexact b
  | wake => exact hexact b

/-- A step that is guarded by the place of a loop that has a yarn. -/
theorem inUse_of_guard {pc : Pc} {r : Option Runtime} (hbusy : pc.busy)
    (hs : (if (rt.cores core).pc = pc then r else none) = some rt') (hb : b ∈ [rt.current core]) :
    rt.InUse b := by
  split at hs
  next hpc => exact Or.inr ⟨core, busy_of_pc hpc hbusy, (List.mem_singleton.mp hb).symm⟩
  next => cases hs

/-- A step of a yarn or of a loop is made on a core that has a yarn. -/
theorem step_touches (hs : rt.step cfg a = some rt') : ∀ b ∈ touches rt rt' a, rt.InUse b := by
  intro b hb
  cases a with
  | yarnNew | leastLoad | hoist => cases hb
  | select core newTime ptrs now =>
    cases step_outcome hs with
    | idle hpc hm hk =>
      rw [touches, setCore_self, hk] at hb
      cases hb
    | @dispatch _ _ _ _ m job hpc hm h0 hp =>
      have hcore : ({ rt with master := m }.dispatch core job now).cores core =
          ⟨.running, job, .dispatch (rt.ptable job.pid) job now⟩ := setCore_self
      rw [touches, if_pos (by rw [hcore]), List.mem_singleton, current, hcore] at hb
      exact Or.inl ⟨hb ▸ hp, job.pid, hb.symm⟩
    | switch ha =>
      obtain ⟨_, _, ha⟩ | ⟨_, ha⟩ := ha
      · cases ha
      · cases ha
  | register => exact inUse_of_guard rfl hs hb
  | yield => exact inUse_of_guard rfl hs hb
  | mark => exact inUse_of_guard rfl hs hb
  | suspend => exact inUse_of_guard rfl hs hb
  | ret => exact inUse_of_guard rfl hs hb
  | finish => exact inUse_of_guard rfl hs hb
  | parkCore => exact inUse_of_guard rfl hs hb
  | parkJob => exact inUse_of_guard rfl hs hb
  | resume pid =>
    have hp : rt.ptable pid ≠ 0 := by
      intro h0
      rw [step, yarnResume] at hs
      simp only [if_pos h0, Option.map_none, reduceCtorEq] at hs
    rw [touches, List.mem_singleton] at hb
    exact Or.inl ⟨hb ▸ hp, pid, hb.symm⟩

/-- In an orderly run no block is touched that the pool could hand out again, and after
each step the blocks out of the pool are those of the yarns in the table and on the cores. -/
theorem blocks_released (cfg : Config) (procs : Nat) (prim sec : Int) (as : List Action)
    (hgood : Along (poolStep cfg) (fun s a _ => PoolOrderly s a)
      (poolStart cfg procs prim sec) as) :
    Along (poolStep cfg) MemorySafe (poolStart cfg procs prim sec) as := by
  refine along_of_invariant
    (I := fun s => Tracked s.runtime ∧ ∀ b, s.held b = true ↔ s.runtime.InUse b)
    ⟨Tracked.start cfg procs prim sec, fun b => ?_⟩ (fun s a t h hg hs => ?_) hgood
  · refine iff_of_false Bool.false_ne_true ?_
    rintro (⟨hb, pid, hp⟩ | ⟨c, hc, -⟩)
    · exact hb hp.symm
    · cases hc
  · obtain ⟨htrack, hexact⟩ := h
    obtain ⟨rt', hrt, rfl⟩ := Option.map_eq_some_iff.mp hs
    have hord := hg.orderly hexact hrt
    have hexact' := step_exact htrack hord hrt hexact
    refine ⟨⟨htrack.step hord hrt, hexact'⟩, ⟨fun b hb => ?_, hexact'⟩⟩
    exact (hexact b).mpr (step_touches hrt b hb)

/-- A yarn runs and returns, and the block it leaves is that of the next yarn. -/
theorem blocks_released_reuse : Along (poolStep .defaultProfile) MemorySafe
    (poolStart .defaultProfile 2 YARNS_SCHEDULER_ROUND_ROBIN YARNS_SCHEDULER_ROUND_ROBIN)
    [.yarnNew 0 4096 64, .select 0 1 (fun _ => []) 10, .ret 0, .finish 0,
      .yarnNew 0 4096 128, .select 0 1 (fun _ => []) 20, .yield 0 0 21, .finish 0] := by
  refine blocks_released _ _ _ _ _ ?_
  refine along_cons rfl ⟨rfl, fun _ _ h => (by cases h), fun h => absurd h (by decide), trivial⟩ ?_
  refine along_cons rfl ⟨trivial, fun _ _ h => (by cases h), trivial, trivial⟩ ?_
  refine along_cons rfl ⟨rfl, fun _ _ h => (by cases h), trivial, trivial⟩ ?_
  refine along_cons rfl ⟨trivial, fun core job h _ => (by cases h; decide), trivial, trivial⟩ ?_
  refine along_cons rfl ⟨rfl, fun _ _ h => (by cases h), fun h => absurd h (by decide), trivial⟩ ?_
  refine along_cons rfl ⟨trivial, fun _ _ h => (by cases h), trivial, trivial⟩ ?_
  refine along_cons rfl ⟨trivial, fun _ _ h => (by cases h), trivial,
    show _ ≠ UNSCHEDULE by decide +kernel⟩ ?_
  exact along_cons rfl ⟨trivial, fun core job h _ => (by cases h; decide), trivial, trivial⟩
    trivial

end Yarns.Runtime
