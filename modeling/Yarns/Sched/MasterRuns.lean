import Yarns.Sched.MasterClient

/-!
# Runs of the master scheduler

Two properties of whole runs of the client. Without `TITANIC` jobs every live pid is at
one core and the counters are exact, so the assertion of `select_core_least_load` cannot
fail (`shared_balanced`). With them a dedicated job keeps its core exactly in the runs in
which `select_core_unused` never finds a dedicated core (`dedication_iff`): it looks for a
core without a scheduler, and a dedicated core has none until a job is queued there.
-/

namespace Yarns.Master

open Base

/-- The pids queued in the scheduler of a core. -/
def queuedPids (m : Master) (core : Nat) : List ULong :=
  match m.schedulers core with
  | some s => s.queuedPids
  | none => []

theorem Books.queuedPids_perm {m : Master} {queued : Nat → List ULong}
    {out : Nat → List SchedulerJob} (h : Books m.schedulers queued out) (core : Nat) :
    (m.queuedPids core).Perm (queued core) := by
  unfold Master.queuedPids
  split
  · rename_i s hs
    exact (h.held core s hs).2
  · rename_i hs
    rw [(h.idle core hs).2]

namespace Client

variable {cfg : Config} {counting : Prop} {st st' : Client} {op : Op} {ops : List Op}
  {queued : Nat → List ULong} {core : Nat} {pid : ULong}

/-! ## Shared cores -/

/-- The pids at a core: queued in its scheduler, or selected and still out. -/
def pidsAt (st : Client) (core : Nat) : List ULong :=
  st.master.queuedPids core ++ (st.out core).map SchedulerJob.pid

structure Balanced (st : Client) : Prop where
  placed : ∀ pid ∈ st.pids, ∃! c, c < st.master.nprocs ∧ pid ∈ st.pidsAt c
  once : ∀ c < st.master.nprocs, (st.pidsAt c).Nodup ∧ ∀ pid ∈ st.pidsAt c, pid ∈ st.pids
  counted : ∀ c < st.master.nprocs,
    (st.master.jobcounts c).toNat = (st.pidsAt c).length
  unwrapped : ∀ c < st.master.nprocs, ∀ pid ∈ st.pidsAt c, st.master.jobcounts c ≠ 0
  /-- The assertion holds when a fresh pid is scheduled, and during the accounting. -/
  leastLoad : ((0 < st.master.nprocs ∧ ∃ pid, pid ≠ 0 ∧ pid ∉ st.pids) ∨ 1 < st.master.nprocs) →
    st.master.selectCoreLeastLoad.isSome

theorem Inv.pidsAt_perm (h : st.Inv True queued) (c : Nat) :
    (st.pidsAt c).Perm (st.held queued c) := by
  rw [held_of_shared (h.shared trivial c)]
  exact (h.books.queuedPids_perm c).append_right _

theorem Inv.flatMap_nodup (h : st.Inv counting queued) :
    ((List.range st.master.nprocs).flatMap (st.held queued)).Nodup :=
  h.tally.placed.nodup_iff.mpr h.distinct

theorem Inv.length_held (h : st.Inv True queued) (hc : core < st.master.nprocs) :
    (st.master.jobcounts core).toNat = (st.held queued core).length := by
  have hnd := slot_nodup h.flatMap_nodup (List.mem_range.mpr hc)
  have hlt := length_lt_of_nodup hnd fun h0 => h.nonzero (h.live_of_held hc h0)
  rw [h.tally.counted trivial core hc, BitVec.toNat_ofNat, Nat.mod_eq_of_lt hlt]

/-- A full core holds every non-zero pid, so no fresh pid is left and no second core can
be full. -/
theorem Inv.leastLoad_isSome (h : st.Inv True queued)
    (hfresh : (0 < st.master.nprocs ∧ ∃ pid, pid ≠ 0 ∧ pid ∉ st.pids) ∨ 1 < st.master.nprocs) :
    st.master.selectCoreLeastLoad.isSome := by
  by_contra hnone
  rw [Option.not_isSome_iff_eq_none] at hnone
  have hfull : ∀ c < st.master.nprocs, (st.held queued c).length = 2 ^ 64 - 1 := by
    intro c hc
    rw [← h.length_held hc, selectCoreLeastLoad_eq_none hnone c hc, ulongMax_toNat]
  have hzero : 0 < st.master.nprocs := by omega
  have hsub : ∀ c < st.master.nprocs, st.held queued c ⊆ st.pids :=
    fun c hc pid hp => h.live_of_held hc hp
  have hnd0 := slot_nodup h.flatMap_nodup (List.mem_range.mpr hzero)
  rcases hfresh with ⟨-, pid, hpid, hfresh⟩ | htwo
  · have hle := (hnd0.subperm (hsub 0 hzero)).length_le
    have hlt := length_lt_of_nodup (List.nodup_cons.mpr ⟨hfresh, h.distinct⟩) (by
      intro hm
      rcases List.mem_cons.mp hm with hz | hm
      · exact hpid hz.symm
      · exact h.nonzero hm)
    rw [hfull 0 hzero] at hle
    rw [List.length_cons] at hlt
    omega
  · have hnd1 := slot_nodup h.flatMap_nodup (List.mem_range.mpr htwo)
    have hboth : (st.held queued 0 ++ st.held queued 1).Nodup := by
      refine List.nodup_append'.mpr ⟨hnd0, hnd1, fun pid hp0 hp1 => ?_⟩
      exact absurd (slot_unique h.flatMap_nodup (List.mem_range.mpr hzero)
        (List.mem_range.mpr htwo) hp0 hp1) (by decide)
    have hle := (hboth.subperm (List.append_subset.mpr ⟨hsub 0 hzero, hsub 1 htwo⟩)).length_le
    have hlt := length_lt_of_nodup h.distinct h.nonzero
    rw [List.length_append, hfull 0 hzero, hfull 1 htwo] at hle
    omega

theorem Inv.exists_core (h : st.Inv counting queued) (hp : pid ∈ st.pids) :
    ∃ c < st.master.nprocs, pid ∈ st.held queued c := by
  obtain ⟨c, hc, hp⟩ := List.mem_flatMap.mp (h.tally.placed.symm.subset hp)
  exact ⟨c, List.mem_range.mp hc, hp⟩

theorem Inv.core_unique (h : st.Inv counting queued) {c d : Nat} (hc : c < st.master.nprocs)
    (hd : d < st.master.nprocs) (hpc : pid ∈ st.held queued c) (hpd : pid ∈ st.held queued d) :
    c = d :=
  slot_unique h.flatMap_nodup (List.mem_range.mpr hc) (List.mem_range.mpr hd) hpc hpd

theorem Inv.balanced (h : st.Inv True queued) : st.Balanced where
  placed := by
    intro pid hp
    obtain ⟨c, hc, hpc⟩ := h.exists_core hp
    refine ⟨c, ⟨hc, (h.pidsAt_perm c).symm.subset hpc⟩, fun d hd => ?_⟩
    exact h.core_unique hd.1 hc ((h.pidsAt_perm d).subset hd.2) hpc
  once := by
    intro c hc
    refine ⟨(h.pidsAt_perm c).nodup_iff.mpr
      (slot_nodup h.flatMap_nodup (List.mem_range.mpr hc)), fun pid hp => ?_⟩
    exact h.live_of_held hc ((h.pidsAt_perm c).subset hp)
  counted := by
    intro c hc
    rw [h.length_held hc, (h.pidsAt_perm c).length_eq]
  unwrapped := by
    intro c hc pid hp hz
    have hlen := h.length_held hc
    rw [hz] at hlen
    have hnil := List.eq_nil_of_length_eq_zero hlen.symm
    have hmem := (h.pidsAt_perm c).subset hp
    rw [hnil] at hmem
    cases hmem
  leastLoad := h.leastLoad_isSome

/-- In every state that a run without `TITANIC` jobs reaches, every live pid is at
exactly one core, the counters are exact, and the assertion does not fail. -/
theorem shared_balanced (cfg : Config) (procs : Nat) (prim sec : Int) (ops : List Op)
    (hshared : ∀ ptr pid, Op.schedule ptr pid .titanic ∉ ops)
    (hrun : run (step cfg) (start cfg procs prim sec) ops = some st) : st.Balanced := by
  have halong : Along (step cfg) Shared (start cfg procs prim sec) ops := by
    refine along_of_forall_mem fun op hop s t ptr pid heq => ?_
    exact hshared ptr pid (heq ▸ hop)
  have hinv : ∃ queued, st.Inv True queued := by
    refine run_invariant (I := fun st => ∃ queued, st.Inv True queued)
      ⟨_, start_inv True cfg procs prim sec⟩ ?_ halong hrun
    intro s op t hI hop hs
    obtain ⟨queued, hI⟩ := hI
    refine (step_inv hI (fun ptr pid core heq => ?_) (fun _ => hop) hs).1
    exact absurd heq (hop ptr pid)
  obtain ⟨queued, hinv⟩ := hinv
  exact hinv.balanced

theorem shared_balanced_two_cores : ∃ st,
    run (step .defaultProfile)
      (start .defaultProfile 2 YARNS_SCHEDULER_ROUND_ROBIN YARNS_SCHEDULER_ROTATING_STAIRCASE)
      [.schedule 4096 7 .normal, .schedule 8192 8 .high, .select 0 .blank 1 fun _ => [],
        .reschedule 0 ⟨7, 1000, 0, 0, .normal⟩ ⟨7, 0, 0, 0, .normal⟩,
        .select 0 .blank 2 fun _ => [],
        .unschedule 0 ⟨8, 1000, 0, 0, .normal⟩ ⟨8, 400, 0, 0, .normal⟩] = some st ∧
      st.Balanced := by
  have hrun : (run (step .defaultProfile)
      (start .defaultProfile 2 YARNS_SCHEDULER_ROUND_ROBIN YARNS_SCHEDULER_ROTATING_STAIRCASE)
      [.schedule 4096 7 .normal, .schedule 8192 8 .high, .select 0 .blank 1 fun _ => [],
        .reschedule 0 ⟨7, 1000, 0, 0, .normal⟩ ⟨7, 0, 0, 0, .normal⟩,
        .select 0 .blank 2 fun _ => [],
        .unschedule 0 ⟨8, 1000, 0, 0, .normal⟩ ⟨8, 400, 0, 0, .normal⟩]).isSome := by
    decide +kernel
  obtain ⟨st, hst⟩ := Option.isSome_iff_exists.mp hrun
  exact ⟨st, hst, shared_balanced _ _ _ _ _ (by simp) hst⟩

/-! ## Dedicated cores -/

/-- `pid` is queued in the scheduler of a core or was selected from it. -/
def SchedulerHolds (st : Client) (core : Nat) (pid : ULong) : Prop :=
  pid ∈ st.master.queuedPids core ∨
    st.master.singleJobs core = 0 ∧ ∃ g ∈ st.out core, g.pid = pid

/-- Every live `TITANIC` pid is the dedicated job of exactly one core and held by no
scheduler, or held by exactly one core's scheduler and nobody's dedicated job. -/
def TitanicPlaced (st : Client) : Prop :=
  ∀ pid, (pid, .titanic) ∈ st.live →
    ((∃! c, c < st.master.nprocs ∧ st.master.singleJobs c = pid) ∧
        ∀ c < st.master.nprocs, ¬ st.SchedulerHolds c pid) ∨
      (∀ c < st.master.nprocs, st.master.singleJobs c ≠ pid) ∧
        ∃! c, c < st.master.nprocs ∧ st.SchedulerHolds c pid

theorem Inv.mem_held_iff (h : st.Inv counting queued) (h0 : pid ≠ 0) (c : Nat) :
    pid ∈ st.held queued c ↔ st.SchedulerHolds c pid ∨ st.master.singleJobs c = pid := by
  rw [SchedulerHolds, (h.books.queuedPids_perm c).mem_iff]
  by_cases hs : st.master.singleJobs c = 0
  · rw [held_of_shared hs, List.mem_append, List.mem_map]
    simp only [hs, h0.symm, or_false, true_and]
  · rw [held_of_dedicated hs, List.mem_append, List.mem_singleton]
    simp only [hs, false_and, or_false, eq_comm]

/-- On one core a pid is not both dedicated and held by the scheduler. -/
theorem Inv.not_both (h : st.Inv counting queued) (hc : core < st.master.nprocs) (h0 : pid ≠ 0)
    (hs : st.master.singleJobs core = pid) : ¬ st.SchedulerHolds core pid := by
  have hne : st.master.singleJobs core ≠ 0 := fun hz => h0 (hs.symm.trans hz)
  have hnd := slot_nodup h.flatMap_nodup (List.mem_range.mpr hc)
  rw [held_of_dedicated hne, hs] at hnd
  intro hheld
  rcases hheld with hq | ⟨hz, -⟩
  · have hq' := (h.books.queuedPids_perm core).subset hq
    exact (List.nodup_append'.mp hnd).2.2 hq' (List.mem_singleton_self pid)
  · exact hne hz

theorem Inv.titanicPlaced (h : st.Inv counting queued) : st.TitanicPlaced := by
  intro pid hlive
  have hp : pid ∈ st.pids := List.mem_map_of_mem hlive
  have h0 : pid ≠ 0 := fun hz => h.nonzero (hz ▸ hp)
  obtain ⟨c, hc, hpc⟩ := h.exists_core hp
  have hunique : ∀ d < st.master.nprocs,
      st.SchedulerHolds d pid ∨ st.master.singleJobs d = pid → d = c := fun d hd hpd =>
    h.core_unique hd hc ((h.mem_held_iff h0 d).mpr hpd) hpc
  rcases (h.mem_held_iff h0 c).mp hpc with hheld | hded
  · refine Or.inr ⟨fun d hd hs => ?_, c, ⟨hc, hheld⟩, fun d hd => hunique d hd.1 (Or.inl hd.2)⟩
    obtain rfl := hunique d hd (Or.inr hs)
    exact h.not_both hc h0 hs hheld
  · refine Or.inl ⟨⟨c, ⟨hc, hded⟩, fun d hd => hunique d hd.1 (Or.inr hd.2)⟩, fun d hd hs => ?_⟩
    obtain rfl := hunique d hd (Or.inl hs)
    exact h.not_both hc h0 hded hs

/-- A dedication that overwrites another one does not keep it. -/
theorem Inv.dedicatesFree (h : st.Inv counting queued) (hs : st.step cfg op = some st')
    (hkept : DedicationKept st op st') : DedicatesFree st op st' := by
  intro ptr pid core heq hcore
  subst heq
  by_contra hsingle
  cases step_calls hs with
  | schedule _ hfresh hm =>
    rw [masterSchedSchedule, if_pos rfl, selectCoreUnused_iff.mpr hcore] at hm
    cases hm
    rcases hkept core hsingle with hsame | ⟨granted, job, heq, -⟩
    · have hpid : pid = st.master.singleJobs core := by
        rw [← hsame]
        exact (Function.update_self core pid st.master.singleJobs).symm
      obtain ⟨-, hlt, -⟩ := hcore
      refine hfresh (h.live_of_held hlt ?_)
      rw [held_of_dedicated hsingle, hpid]
      exact List.mem_append_right _ (List.mem_singleton_self _)
    · cases heq

/-- A run keeps every dedication, and places every live `TITANIC` pid, if and only if at
every schedule of a `TITANIC` job the lowest core without a scheduler has no dedicated
job. -/
theorem dedication_iff (cfg : Config) (procs : Nat) (prim sec : Int) (ops : List Op) :
    Along (step cfg) (fun st op st' => DedicationKept st op st' ∧ st'.TitanicPlaced)
        (start cfg procs prim sec) ops ↔
      Along (step cfg) DedicatesFree (start cfg procs prim sec) ops := by
  refine along_iff_of_invariant (I := fun st => ∃ queued, st.Inv False queued)
    ⟨_, start_inv False cfg procs prim sec⟩ ?_ ?_
  · intro st op st' hI hs
    obtain ⟨queued, hI⟩ := hI
    refine ⟨fun hP => hI.dedicatesFree hs hP.1, fun hfree => ?_⟩
    obtain ⟨⟨queued', hI'⟩, hkept⟩ := step_inv hI hfree False.elim hs
    exact ⟨hkept, hI'.titanicPlaced⟩
  · intro st op st' hI hfree hs
    obtain ⟨queued, hI⟩ := hI
    exact (step_inv hI hfree False.elim hs).1

/-- The second `TITANIC` job takes the core of the first. -/
theorem second_titanic_takes_core :
    ¬ Along (step .defaultProfile)
      (fun st op st' => DedicationKept st op st' ∧ st'.TitanicPlaced)
      (start .defaultProfile 2 YARNS_SCHEDULER_ROUND_ROBIN YARNS_SCHEDULER_ROUND_ROBIN)
      [.schedule 4096 7 .titanic, .schedule 8192 8 .titanic] := by
  intro h
  obtain ⟨-, h⟩ := h _ rfl
  obtain ⟨⟨hkept, -⟩, -⟩ := h _ rfl
  rcases hkept 1 (by decide) with hsame | ⟨granted, job, heq, -⟩
  · exact absurd hsame (by decide)
  · cases heq

end Client

end Yarns.Master
