import Yarns.Sched.CoreLocks

/-!
# Every interleaving of the cores

A core lock is taken exactly while one core holds it (`Inv`). A core holds a lock while it
waits for another only in `rebalance`, from the first lock of its pair to the second, so
cores can only block each other along the pairs of the `rebalance` calls that do not have
both of their locks (`Pairs`). If no pair closes a path of pairs when its `rebalance`
begins, no core ever waits for itself, directly or over others (`no_deadlock`). The first
accounting does not keep to that: with equal loads its two cores are the same one
(`equal_loads_deadlock`).
-/

namespace Yarns

open Base Relation

/-- The master scheduler, its locks and where the cores are. -/
abbrev CoreState (ι : Type) := Parties CoreLocks CorePc ι

namespace CoreLocks

variable {ι : Type} [DecidableEq ι]

def start (master : Master) : CoreState ι := ⟨⟨master, fun _ => false⟩, fun _ => .idle⟩

def step (cfg : Config) : CoreState ι → ι × CoreAct → Option (CoreState ι) :=
  Parties.step fun _ => act cfg

/-- A lock is taken exactly while a core holds it, and then one core does. -/
structure Inv (s : CoreState ι) : Prop where
  taken : ∀ c, ∀ l ∈ (s.locals c).holds, s.memory.locks l = true
  held : ∀ l, s.memory.locks l = true → ∃ c, l ∈ (s.locals c).holds
  unique : ∀ c d l, l ∈ (s.locals c).holds → l ∈ (s.locals d).holds → c = d
  distinct : ∀ c, (s.locals c).Distinct

/-- The pairs of cores that are being rebalanced by a core without both locks yet. -/
def Pairs (s : CoreState ι) (src target : Nat) : Prop :=
  ∃ c, (s.locals c).pair = some (src, target)

/-- A `rebalance` that begins closes no path of pairs. -/
def Ordered (s : CoreState ι) (p : ι × CoreAct) (t : CoreState ι) : Prop :=
  ∀ src target, (s.locals p.1).pair = none → (t.locals p.1).pair = some (src, target) →
    ¬ ReflTransGen (Pairs s) target src

/-- Core `c` waits for a lock that core `d` holds. -/
def Blocks (s : CoreState ι) (c d : ι) : Prop :=
  WaitsFor (fun c l => (s.locals c).waits = some l) (fun c l => l ∈ (s.locals c).holds) c d

variable {cfg : Config} {master : Master} {s t : CoreState ι} {p : ι × CoreAct}
  {as : List (ι × CoreAct)}

omit [DecidableEq ι] in
theorem start_inv (master : Master) : Inv (start master : CoreState ι) where
  taken := fun _ _ h => nomatch h
  held := fun _ h => nomatch h
  unique := fun _ _ _ h => nomatch h
  distinct := fun _ => trivial

omit [DecidableEq ι] in
theorem inv_iff : Inv s ↔ Locked s.memory.locks (fun c l => l ∈ (s.locals c).holds) ∧
    ∀ c, (s.locals c).Distinct :=
  ⟨fun h => ⟨⟨h.taken, h.held, h.unique⟩, h.distinct⟩,
    fun ⟨h, hd⟩ => ⟨h.taken, h.held, h.unique, hd⟩⟩

theorem step_inv (h : Inv s) (hs : step cfg s p = some t) : Inv t := by
  obtain ⟨i, a⟩ := p
  obtain ⟨m, pc, hact, rfl⟩ := Parties.step_cases hs
  obtain ⟨heffect, hd⟩ := act_cases (h.taken i) (h.distinct i) hact
  obtain ⟨hlocked, hdistinct⟩ := inv_iff.mp h
  have hother : ∀ c, c ≠ i → ∀ l, l ∈ (Function.update s.locals i pc c).holds ↔
      l ∈ (s.locals c).holds := by
    intro c hc l
    rw [Function.update_of_ne hc]
  refine inv_iff.mpr ⟨?_, forall_update (P := fun _ (pc : CorePc) => pc.Distinct)
    (fun c _ => hdistinct c) hd⟩
  cases heffect with
  | keep hlocks hholds hpair =>
    dsimp only
    rw [hlocks]
    refine hlocked.congr fun c l => ?_
    by_cases hc : c = i
    · subst hc
      rw [Function.update_self, hholds]
    · exact hother c hc l
  | acquire k hfree hlocks hwaits hholds hpair =>
    dsimp only
    rw [hlocks]
    refine hlocked.acquire (i := i) hfree hother fun l => ?_
    rw [Function.update_self, hholds, List.mem_append, List.mem_singleton]
  | release k hlocks hholds hnot hpair =>
    dsimp only
    rw [hlocks]
    refine hlocked.release (i := i) hother (fun l => ?_) ?_
    · rw [Function.update_self, hholds, List.mem_cons]
    · rwa [Function.update_self]

/-- Nobody passes a lock that somebody holds. -/
theorem Inv.stopped {c d : ι} {l : Nat} {ptr : ULong} (h : Inv s)
    (hw : (s.locals c).waits = some l) (hl : l ∈ (s.locals d).holds) :
    step cfg s (c, .step ptr) = none := by
  rw [step, Parties.step, act, access_taken hw (h.taken d l hl)]
  rfl

/-! ## Pairs -/

theorem pair_of_waits {pc : CorePc} {k l : Nat} (hk : k ∈ pc.holds) (hw : pc.waits = some l) :
    pc.pair = some (k, l) := by
  cases pc with
  | lockTarget sel shifts src target =>
    obtain rfl := List.mem_singleton.mp hk
    obtain rfl := Option.some.inj hw
    rfl
  | lockSrc | lockOne => cases hk
  | _ => cases hw

omit [DecidableEq ι] in
theorem pairs_of_waits {c : ι} {k l : Nat} (hk : k ∈ (s.locals c).holds)
    (hw : (s.locals c).waits = some l) : Pairs s k l := ⟨c, pair_of_waits hk hw⟩

omit [DecidableEq ι] in
theorem start_acyclic (master : Master) : Acyclic (Pairs (start master : CoreState ι)) := by
  intro a hcycle
  obtain ⟨b, -, c, hc⟩ := TransGen.tail'_iff.mp hcycle
  cases hc

theorem step_acyclic (h : Inv s) (hr : Acyclic (Pairs s)) (hs : step cfg s p = some t)
    (hord : Ordered s p t) : Acyclic (Pairs t) := by
  obtain ⟨i, a⟩ := p
  obtain ⟨m, pc, hact, rfl⟩ := Parties.step_cases hs
  obtain ⟨heffect, -⟩ := act_cases (h.taken i) (h.distinct i) hact
  have hpairs : ∀ x y, Pairs ⟨m, Function.update s.locals i pc⟩ x y →
      pc.pair = some (x, y) ∨ Pairs s x y := by
    intro x y hxy
    rcases (exists_update (P := fun pc : CorePc => pc.pair = some (x, y))).mp hxy with
      hnew | ⟨c, -, hc⟩
    · exact Or.inl hnew
    · exact Or.inr ⟨c, hc⟩
  have hold : (pc.pair = none ∨ pc.pair = (s.locals i).pair) → Acyclic
      (Pairs ⟨m, Function.update s.locals i pc⟩) := by
    intro hcase
    refine hr.mono fun x y hxy => ?_
    rcases hpairs x y hxy with hnew | hold
    · rcases hcase with hnone | hsame
      · rw [hnone] at hnew
        cases hnew
      · exact ⟨i, hsame ▸ hnew⟩
    · exact hold
  cases heffect with
  | keep hlocks hholds hpair =>
    rcases hpair with hnone | hbefore
    · exact hold (Or.inl hnone)
    · cases hpc : pc.pair with
      | none => exact hold (Or.inl hpc)
      | some xy =>
        -- a rebalance begins
        obtain ⟨src, target⟩ := xy
        have hafter : (Function.update s.locals i pc i).pair = some (src, target) := by
          rw [Function.update_self, hpc]
        have hpath := hord src target hbefore hafter
        refine hr.insert hpath fun x y hxy => ?_
        rcases hpairs x y hxy with hnew | hold
        · rw [hpc] at hnew
          cases hnew
          exact Or.inr ⟨rfl, rfl⟩
        · exact Or.inl hold
  | acquire k hfree hlocks hwaits hholds hpair => exact hold hpair
  | release k hlocks hholds hnot hpair => exact hold (Or.inl hpair)

/-- In every run in which no `rebalance` begins with a pair that closes a path of pairs, no
core waits for a lock it holds, and no cores wait for each other in a circle. -/
theorem no_deadlock (cfg : Config) (procs : Nat) (prim sec : Int) (as : List (ι × CoreAct))
    (s : CoreState ι)
    (hord : Along (step cfg) Ordered (start (masterSchedInit cfg procs prim sec)) as)
    (hr : run (step cfg) (start (masterSchedInit cfg procs prim sec)) as = some s) :
    (∀ c l, l ∈ (s.locals c).holds → (s.locals c).waits ≠ some l) ∧
      ∀ c, ¬ TransGen (Blocks s) c c := by
  have hI : Inv s ∧ Acyclic (Pairs s) := by
    refine run_invariant (I := fun s : CoreState ι => Inv s ∧ Acyclic (Pairs s))
      ⟨start_inv _, start_acyclic _⟩ ?_ hord hr
    exact fun _ _ _ h hg hs => ⟨step_inv h.1 hs, step_acyclic h.1 h.2 hs hg⟩
  refine ⟨fun c l hl hw => ?_, ?_⟩
  · exact hI.2 l (TransGen.single (pairs_of_waits hl hw))
  · refine no_wait_cycle (fun c k l hk hw => pairs_of_waits hk hw) (fun c k k' l hk hk' hw => ?_)
      hI.2
    have hpair := (pair_of_waits hk hw).symm.trans (pair_of_waits hk' hw)
    cases hpair
    rfl

omit [DecidableEq ι] in
/-- Two different cores make no path when no other pair is there. -/
theorem ordered_of_first (h : (s.locals p.1).pair = none →
    ∀ xy ∈ (t.locals p.1).pair, xy.1 ≠ xy.2 ∧ ∀ c, (s.locals c).pair = none) : Ordered s p t := by
  intro src target hbefore hpair hpath
  obtain ⟨hne, hnone⟩ := h hbefore (src, target) hpair
  rcases hpath.cases_head with rfl | ⟨b, ⟨c, hc⟩, -⟩
  · exact hne rfl
  · rw [hnone c] at hc
    cases hc

/-- Core 1 looks for a job, core 0 gets three, and the accounting is about to move some. -/
def threeJobs : List (Fin 2 × CoreAct) :=
  (1, .call (.select 1 .blank 1)) :: List.replicate 5 (1, .step 0) ++
  (0, .call (.schedule 7 .normal)) :: List.replicate 9 (0, .step 4096) ++
  (0, .call (.schedule 8 .normal)) :: List.replicate 7 (0, .step 8192) ++
  (0, .call (.schedule 9 .normal)) :: List.replicate 7 (0, .step 12288) ++
  (0, .call (.select 0 .blank 5000001)) :: List.replicate 14 (0, .step 0)

theorem no_deadlock_threeJobs :
    ∃ s : CoreState (Fin 2), run (step .defaultProfile) (start (masterSchedInit .defaultProfile 2
        YARNS_SCHEDULER_ROUND_ROBIN YARNS_SCHEDULER_ROTATING_STAIRCASE)) threeJobs = some s ∧
      (s.locals 0).pair = some (0, 1) ∧ ∀ c, ¬ TransGen (Blocks s) c c := by
  have hrun : (run (step .defaultProfile) (start (masterSchedInit .defaultProfile 2
      YARNS_SCHEDULER_ROUND_ROBIN YARNS_SCHEDULER_ROTATING_STAIRCASE)) threeJobs).map
        (fun s : CoreState (Fin 2) => (s.locals 0).pair) = some (some (0, 1)) := by
    decide +kernel
  obtain ⟨s, hs, hpair⟩ := Option.map_eq_some_iff.mp hrun
  have hfirst : Along (step .defaultProfile) (fun (s : CoreState (Fin 2)) p t =>
      (s.locals p.1).pair = none →
        ∀ xy ∈ (t.locals p.1).pair, xy.1 ≠ xy.2 ∧ ∀ c, (s.locals c).pair = none)
      (start (masterSchedInit .defaultProfile 2
        YARNS_SCHEDULER_ROUND_ROBIN YARNS_SCHEDULER_ROTATING_STAIRCASE)) threeJobs := by
    decide +kernel
  refine ⟨s, hs, hpair, (no_deadlock _ _ _ _ threeJobs s (hfirst.mono ?_) hs).2⟩
  exact fun s p t => ordered_of_first

/-- The first accounting of two cores without jobs. -/
def firstAccounting : List (Fin 2 × CoreAct) :=
  (0, .call (.select 0 .blank 5000001)) :: List.replicate 14 (0, .step 0)

/-- With equal loads both cores of the `rebalance` are core 0, which takes its lock and
then waits for it. -/
theorem equal_loads_deadlock :
    ¬ ∀ (as : List (Fin 2 × CoreAct)) (s : CoreState (Fin 2)),
      run (step .defaultProfile) (start (masterSchedInit .defaultProfile 2
        YARNS_SCHEDULER_ROUND_ROBIN YARNS_SCHEDULER_ROTATING_STAIRCASE)) as = some s →
      ∀ c l, l ∈ (s.locals c).holds → (s.locals c).waits ≠ some l := by
  intro h
  have hrun : (run (step .defaultProfile) (start (masterSchedInit .defaultProfile 2
      YARNS_SCHEDULER_ROUND_ROBIN YARNS_SCHEDULER_ROTATING_STAIRCASE)) firstAccounting).map
        (fun s : CoreState (Fin 2) => s.locals 0) =
      some (.lockTarget ⟨0, .blank⟩ 1 0 0) := by decide +kernel
  obtain ⟨s, hs, hpc⟩ := Option.map_eq_some_iff.mp hrun
  refine h firstAccounting s hs 0 0 ?_ ?_
  · rw [hpc]
    exact List.mem_singleton_self 0
  · rw [hpc]
    rfl

/-- A `rebalance` that begins with one core twice never ends. -/
theorem self_pair_forever {c : ι} {l : Nat} (h : Inv s) (hself : (s.locals c).pair = some (l, l))
    (hr : Reachable (step cfg) s t) : (t.locals c).pair = some (l, l) := by
  have hI : Inv t ∧ (t.locals c).pair = some (l, l) := by
    refine reachable_invariant (I := fun s : CoreState ι => Inv s ∧ (s.locals c).pair = some (l, l))
      ⟨h, hself⟩ ?_ hr
    rintro s ⟨i, a⟩ t ⟨hI, hpair⟩ hs
    refine ⟨step_inv hI hs, ?_⟩
    obtain ⟨m, pc, hact, rfl⟩ := Parties.step_cases hs
    by_cases hi : c = i
    · subst hi
      dsimp only
      rw [Function.update_self]
      exact act_of_self_pair (hI.taken c) hpair hact
    · dsimp only
      rw [Function.update_of_ne hi]
      exact hpair
  exact hI.2

end CoreLocks

end Yarns
