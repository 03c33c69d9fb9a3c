import Yarns.Sched.MasterRuns
import Yarns.Sched.Supply

/-!
# The loop of `rebalance`

`rebalance` hoists as long as the source counts more jobs than the target, but
`job_hoist` only moves what the scheduler of the source hands out at once. In every
reachable state the loop ends, with the counters balanced, exactly if the source has that
many jobs to give and the target a scheduler (`rebalance_iff`); otherwise it never ends.
-/

namespace Yarns.Master

open Base

section

variable (cfg : Config) (src target : Nat)

/-- One iteration of the loop, where it has not ended. -/
def hoistStep (m : Master) (ptr : ULong) : Option Master :=
  if m.jobcounts src > m.jobcounts target then m.jobHoist cfg src target ptr else none

/-- What the scheduler of a core gives away. -/
def supply (m : Master) (core : Nat) : Nat :=
  match m.schedulers core with
  | some s => s.supply cfg
  | none => 0

/-- The hoists it takes to balance the counters. -/
def needed (m : Master) : Nat :=
  ((m.jobcounts src).toNat - (m.jobcounts target).toNat + 1) / 2

/-- A counter that is higher is brought down by jobs the source has to give. -/
def Suffices (m : Master) : Prop :=
  m.jobcounts src > m.jobcounts target →
    (m.schedulers target).isSome ∧ m.needed src target ≤ m.supply cfg src

/-- Addresses that `yalloc` may return one after the other to the scheduler of a core. -/
def FreshFor (m : Master) (ptrs : List ULong) : Prop :=
  ptrs.Nodup ∧ ∀ ptr ∈ ptrs, ptr ≠ 0 ∧ ptr ≠ 1 ∧
    ∀ s, m.schedulers target = some s → ¬ s.InUse ptr

/-- One pid goes from the queue of `src` to that of `target`. -/
structure Moves (m m' : Master) : Prop where
  queued : ∃ pid, (m.queuedPids src).Perm (pid :: m'.queuedPids src) ∧
    (m'.queuedPids target).Perm (pid :: m.queuedPids target)
  counted : m'.jobcounts = Function.update (Function.update m.jobcounts src
    (m.jobcounts src - 1)) target (m.jobcounts target + 1)
  others : ∀ c, c ≠ src → c ≠ target → m'.schedulers c = m.schedulers c

/-- The counters after a call, against those before. -/
structure Balances (m m' : Master) : Prop where
  le : m'.jobcounts src ≤ m'.jobcounts target
  close : m.jobcounts src > m.jobcounts target →
    (m'.jobcounts target).toNat ≤ (m'.jobcounts src).toNat + 1
  same : ¬ m.jobcounts src > m.jobcounts target →
    m'.jobcounts src = m.jobcounts src ∧ m'.jobcounts target = m.jobcounts target
  sum : (m'.jobcounts src).toNat + (m'.jobcounts target).toNat =
    (m.jobcounts src).toNat + (m.jobcounts target).toNat

/-- `rebalance` returns after some iterations, each of which moves one job, with the
counters balanced. -/
def Rebalances (m : Master) (ptrs : List ULong) : Prop :=
  ∃ k ≤ ptrs.length, ∃ m', run (hoistStep cfg src target) m (ptrs.take k) = some m' ∧
    Along (hoistStep cfg src target) (fun s _ t => Moves src target s t) m (ptrs.take k) ∧
    m.rebalance cfg src target ptrs = some m' ∧ Balances src target m m'

end

variable {cfg : Config} {m m' : Master} {src target : Nat} {ptr : ULong} {ptrs : List ULong}
  {s t : Scheduler} {srcOut targetOut : List SchedulerJob}

theorem queuedPids_of_some {core : Nat} (h : m.schedulers core = some s) :
    m.queuedPids core = s.queuedPids := by
  rw [queuedPids, h]

theorem supply_of_some {core : Nat} (h : m.schedulers core = some s) :
    m.supply cfg core = s.supply cfg := by
  rw [supply, h]

/-! ## One hoist -/

/-- What one `job_hoist` does: without a supply it moves nothing. -/
theorem jobHoist_cases (hne : src ≠ target) (hsrc : m.schedulers src = some s)
    (hs : s.Keeps srcOut) (htarget : ∀ t, m.schedulers target = some t → t.Keeps targetOut)
    (hhoist : m.jobHoist cfg src target ptr = some m') :
    (s.supply cfg = 0 ∧ ∃ s', m' = m.setScheduler src s' ∧ s'.Keeps srcOut ∧
      s'.supply cfg = 0) ∨
    ∃ s' t t' pid prio, m.schedulers target = some t ∧
      t.schedule cfg ptr pid prio = some t' ∧ m'.schedulers src = some s' ∧
      m'.schedulers target = some t' ∧ s'.Keeps srcOut ∧ t'.Keeps targetOut ∧
      s.supply cfg = s'.supply cfg + 1 ∧ Moves src target m m' := by
  obtain ⟨s₁, job, hsel, hcase⟩ := hs.select_supply cfg
  simp only [jobHoist, hsrc, hsel, Option.bind_eq_bind, Option.bind_some] at hhoist
  rcases hcase with ⟨hpid, hzero, hzero'⟩ | ⟨hpid, s₂, hun, hsupply⟩
  · rw [if_neg (not_not_intro hpid)] at hhoist
    cases hhoist
    rcases hs.select hsel with ⟨-, hkeeps⟩ | ⟨hne, -⟩
    · exact Or.inl ⟨hzero, s₁, rfl, hkeeps, hzero'⟩
    · exact absurd hpid hne
  · rw [if_pos hpid] at hhoist
    simp only [hoistJob, schedulers_setScheduler_of_ne hne.symm, schedulers_setScheduler_of_ne hne,
      schedulers_setScheduler, Option.bind_eq_bind, Option.bind_eq_some_iff] at hhoist
    obtain ⟨t, ht, t', hsched, source, hsource, source', hsource', hhoist⟩ := hhoist
    obtain rfl := Option.some.inj hsource
    obtain rfl := Option.some.inj (hun.symm.trans hsource')
    have hm' := Option.some.inj hhoist
    have hsrc' : m'.schedulers src = some s₂ := by
      rw [← hm']
      exact schedulers_setScheduler
    have htarget' : m'.schedulers target = some t' := by
      rw [← hm']
      exact (schedulers_setScheduler_of_ne hne.symm).trans schedulers_setScheduler
    have hcounts : m'.jobcounts = Function.update (Function.update m.jobcounts src
        (m.jobcounts src - 1)) target (m.jobcounts target + 1) := by
      rw [← hm']
      show Function.update (Function.update m.jobcounts src _) target
        (Function.update m.jobcounts src _ target + 1) = _
      rw [Function.update_of_ne hne.symm]
      rfl
    rcases hs.select hsel with ⟨hz, -⟩ | ⟨-, hkeeps⟩
    · exact absurd hz hpid
    refine Or.inr ⟨s₂, t, t', job.pid, job.priority, ht, hsched, hsrc', htarget',
      hkeeps.unschedule rfl rfl hpid hun, (htarget t ht).schedule hpid hsched, hsupply,
      ⟨job.pid, ?_, ?_⟩, hcounts, fun c hcs hct => ?_⟩
    · obtain ⟨-, hpids⟩ := Scheduler.unschedule_spec hkeeps.owns rfl rfl hpid hun
      rcases Scheduler.select_spec hs.owns hs.nonzero hsel with ⟨hz, -⟩ | ⟨-, -, hperm⟩
      · exact absurd hz hpid
      · rw [queuedPids_of_some hsrc, queuedPids_of_some hsrc', hpids]
        exact hperm
    · obtain ⟨-, hperm⟩ := Scheduler.schedule_spec (htarget t ht).owns hsched
      rw [queuedPids_of_some ht, queuedPids_of_some htarget']
      exact hperm
    · rw [← hm']
      exact (schedulers_setScheduler_of_ne hcs).trans
        ((schedulers_setScheduler_of_ne hct).trans (schedulers_setScheduler_of_ne hcs))

/-- A hoist between two schedulers returns. -/
theorem jobHoist_total (cfg : Config) (hne : src ≠ target) (hsrc : m.schedulers src = some s)
    (hs : s.Keeps srcOut) (htarget : m.schedulers target = some t) (ht : t.Keeps targetOut)
    (hptr0 : ptr ≠ 0) (hptr1 : ptr ≠ 1) (hptr : ¬ t.InUse ptr) :
    ∃ m', m.jobHoist cfg src target ptr = some m' := by
  obtain ⟨s₁, job, hsel, hcase⟩ := hs.select_supply cfg
  simp only [jobHoist, hsrc, hsel, Option.bind_eq_bind, Option.bind_some]
  rcases hcase with ⟨hpid, -⟩ | ⟨hpid, s₂, hun, -⟩
  · rw [if_neg (not_not_intro hpid)]
    exact ⟨_, rfl⟩
  · rw [if_pos hpid]
    obtain ⟨t', hsched, -⟩ := ht.schedule_total hptr0 hptr1 hptr cfg job.pid job.priority
    simp only [hoistJob, schedulers_setScheduler_of_ne hne.symm, schedulers_setScheduler_of_ne hne,
      schedulers_setScheduler, htarget, hsched, hun, Option.bind_eq_bind, Option.bind_some]
    exact ⟨_, rfl⟩

/-! ## The loop -/

/-- Without a supply the loop never ends. -/
theorem hoistLoop_stuck (hne : src ≠ target)
    (htarget : ∀ t, m.schedulers target = some t → t.Keeps targetOut)
    (hsrc : m.schedulers src = some s) (hs : s.Keeps srcOut) (hzero : s.supply cfg = 0)
    (hmore : m.jobcounts src > m.jobcounts target) :
    m.hoistLoop cfg src target ptrs = none := by
  induction ptrs generalizing m s with
  | nil => rw [hoistLoop, if_pos hmore]
  | cons ptr ptrs ih =>
    rw [hoistLoop, if_pos hmore]
    cases hhoist : m.jobHoist cfg src target ptr with
    | none => rfl
    | some m' =>
      rcases jobHoist_cases hne hsrc hs htarget hhoist with
        ⟨-, s', rfl, hs', hzero'⟩ | ⟨s', t, t', pid, prio, -, -, -, -, -, -, hsupply, -⟩
      · refine ih (fun t ht => ?_) schedulers_setScheduler hs' hzero' hmore
        rw [schedulers_setScheduler_of_ne hne.symm] at ht
        exact htarget t ht
      · omega

/-- The counters after a move. -/
theorem Moves.counts (h : Moves src target m m') (hne : src ≠ target)
    (hmore : m.jobcounts src > m.jobcounts target) :
    (m'.jobcounts src).toNat + 1 = (m.jobcounts src).toNat ∧
      (m'.jobcounts target).toNat = (m.jobcounts target).toNat + 1 := by
  rw [h.counted, Function.update_self, Function.update_of_ne hne, Function.update_self]
  have hlt : (m.jobcounts target).toNat < (m.jobcounts src).toNat := hmore
  constructor
  · bv_omega
  · bv_omega

/-- The loop never ends where the source gives away too little. -/
theorem hoistLoop_none (hne : src ≠ target)
    (hsrc : ∀ s, m.schedulers src = some s → s.Keeps srcOut)
    (htarget : ∀ t, m.schedulers target = some t → t.Keeps targetOut)
    (hshort : ¬ m.Suffices cfg src target) : m.hoistLoop cfg src target ptrs = none := by
  induction ptrs generalizing m with
  | nil =>
    obtain ⟨hmore, -⟩ := Classical.not_imp.mp hshort
    rw [hoistLoop, if_pos hmore]
  | cons ptr ptrs ih =>
    obtain ⟨hmore, hshort⟩ := Classical.not_imp.mp hshort
    rw [hoistLoop, if_pos hmore]
    cases hhoist : m.jobHoist cfg src target ptr with
    | none => rfl
    | some m' =>
      cases hs : m.schedulers src with
      | none =>
        rw [jobHoist, hs] at hhoist
        cases hhoist
      | some s =>
        rcases jobHoist_cases hne hs (hsrc s hs) htarget hhoist with
          ⟨-, s', rfl, hs', hzero'⟩ |
          ⟨s', t, t', pid, prio, ht, hsched, hs', ht', hkeeps, hkeeps', hsupply, hmoves⟩
        · have htarget' : ∀ t, (m.setScheduler src s').schedulers target = some t →
              t.Keeps targetOut := by
            intro t ht
            rw [schedulers_setScheduler_of_ne hne.symm] at ht
            exact htarget t ht
          exact hoistLoop_stuck hne htarget' schedulers_setScheduler hs' hzero' hmore
        · obtain ⟨hcount, hcount'⟩ := hmoves.counts hne hmore
          refine ih (fun r hr => ?_) (fun r hr => ?_) fun hsuff => hshort ?_
          · rwa [← Option.some.inj (hs'.symm.trans hr)]
          · rwa [← Option.some.inj (ht'.symm.trans hr)]
          · -- one hoist less is needed, one job less is there
            refine ⟨by rw [ht]; rfl, ?_⟩
            rw [supply_of_some hs, needed]
            rw [Suffices, supply_of_some hs', needed] at hsuff
            by_cases hmore' : m'.jobcounts src > m'.jobcounts target
            · have := (hsuff hmore').2
              have hlt : (m'.jobcounts target).toNat < (m'.jobcounts src).toNat := hmore'
              omega
            · have hle : (m'.jobcounts src).toNat ≤ (m'.jobcounts target).toNat :=
                not_lt.mp hmore'
              omega

/-- Addresses that were fresh stay so, but for the one used. -/
theorem FreshFor.tail (hfresh : m.FreshFor target (ptr :: ptrs)) {pid : ULong}
    {prio : SchedulerPriority} {t' : Scheduler} (ht : m.schedulers target = some t)
    (hkeeps : t.Keeps targetOut) (hsched : t.schedule cfg ptr pid prio = some t')
    (ht' : m'.schedulers target = some t') : m'.FreshFor target ptrs := by
  obtain ⟨hnd, hall⟩ := hfresh
  obtain ⟨hnot, hnd⟩ := List.nodup_cons.mp hnd
  obtain ⟨hptr0, hptr1, hptr⟩ := hall ptr List.mem_cons_self
  obtain ⟨t₁, hsched₁, huse⟩ := hkeeps.schedule_total hptr0 hptr1 (hptr t ht) cfg pid prio
  obtain rfl := Option.some.inj (hsched.symm.trans hsched₁)
  refine ⟨hnd, fun a ha => ?_⟩
  obtain ⟨ha0, ha1, hause⟩ := hall a (List.mem_cons_of_mem ptr ha)
  refine ⟨ha0, ha1, fun r hr hin => ?_⟩
  obtain rfl := Option.some.inj (ht'.symm.trans hr)
  rcases huse a hin with rfl | hin
  · exact hnot ha
  · exact hause t ht hin

theorem Balances.refl (h : ¬ m.jobcounts src > m.jobcounts target) : Balances src target m m where
  le := not_lt.mp h
  close := fun hmore => absurd hmore h
  same := fun _ => ⟨rfl, rfl⟩
  sum := rfl

theorem Balances.of_moves {m'' : Master} (hne : src ≠ target)
    (hmore : m.jobcounts src > m.jobcounts target) (hmoves : Moves src target m m')
    (h : Balances src target m' m'') : Balances src target m m'' := by
  obtain ⟨hcount, hcount'⟩ := hmoves.counts hne hmore
  have hlt : (m.jobcounts target).toNat < (m.jobcounts src).toNat := hmore
  refine ⟨h.le, fun _ => ?_, fun hnot => absurd hmore hnot, ?_⟩
  · by_cases hmore' : m'.jobcounts src > m'.jobcounts target
    · exact h.close hmore'
    · obtain ⟨hsrc, htarget⟩ := h.same hmore'
      rw [hsrc, htarget]
      omega
  · rw [h.sum]
    omega

/-- With a sufficient supply the loop ends, each iteration moving one job. -/
theorem hoistLoop_ends (hne : src ≠ target)
    (hsrc : ∀ s, m.schedulers src = some s → s.Keeps srcOut)
    (htarget : ∀ t, m.schedulers target = some t → t.Keeps targetOut)
    (hsuff : m.Suffices cfg src target) (hfresh : m.FreshFor target ptrs)
    (hlen : m.needed src target ≤ ptrs.length) :
    ∃ k ≤ ptrs.length, ∃ m', run (hoistStep cfg src target) m (ptrs.take k) = some m' ∧
      Along (hoistStep cfg src target) (fun s _ t => Moves src target s t) m (ptrs.take k) ∧
      m.hoistLoop cfg src target ptrs = some m' ∧ Balances src target m m' := by
  induction ptrs generalizing m with
  | nil =>
    by_cases hmore : m.jobcounts src > m.jobcounts target
    · have hlt : (m.jobcounts target).toNat < (m.jobcounts src).toNat := hmore
      rw [needed, List.length_nil] at hlen
      omega
    · exact ⟨0, le_refl 0, m, rfl, trivial, by rw [hoistLoop, if_neg hmore], .refl hmore⟩
  | cons ptr ptrs ih =>
    by_cases hmore : m.jobcounts src > m.jobcounts target
    · have hlt : (m.jobcounts target).toNat < (m.jobcounts src).toNat := hmore
      obtain ⟨hsome, hneeded⟩ := hsuff hmore
      obtain ⟨t, ht⟩ := Option.isSome_iff_exists.mp hsome
      cases hs : m.schedulers src with
      | none =>
        rw [supply, hs, needed] at hneeded
        dsimp only at hneeded
        omega
      | some s =>
        obtain ⟨hptr0, hptr1, hptr⟩ := hfresh.2 ptr List.mem_cons_self
        obtain ⟨m', hhoist⟩ := jobHoist_total cfg hne hs (hsrc s hs) ht (htarget t ht)
          hptr0 hptr1 (hptr t ht)
        rw [supply_of_some hs, needed] at hneeded
        rcases jobHoist_cases hne hs (hsrc s hs) htarget hhoist with
          ⟨hzero, -⟩ |
          ⟨s', r, t', pid, prio, hr, hsched, hs', ht', hkeeps, hkeeps', hsupply, hmoves⟩
        · omega
        obtain rfl := Option.some.inj (ht.symm.trans hr)
        obtain ⟨hcount, hcount'⟩ := hmoves.counts hne hmore
        have hsuff' : m'.Suffices cfg src target := by
          intro _
          refine ⟨by rw [ht']; rfl, ?_⟩
          rw [supply_of_some hs', needed]
          omega
        have hlen' : m'.needed src target ≤ ptrs.length := by
          rw [needed, List.length_cons] at hlen
          rw [needed]
          omega
        obtain ⟨k, hk, m'', hrun, halong, hloop, hbalances⟩ := ih
          (fun u hu => Option.some.inj (hs'.symm.trans hu) ▸ hkeeps)
          (fun u hu => Option.some.inj (ht'.symm.trans hu) ▸ hkeeps') hsuff'
          (hfresh.tail ht (htarget t ht) hsched ht') hlen'
        have hstep : hoistStep cfg src target m ptr = some m' := by
          rw [hoistStep, if_pos hmore, hhoist]
        refine ⟨k + 1, Nat.succ_le_succ hk, m'', ?_, ?_, ?_, .of_moves hne hmore hmoves hbalances⟩
        · rw [List.take_succ_cons, run, hstep]
          exact hrun
        · rw [List.take_succ_cons]
          exact along_cons hstep hmoves halong
        · rw [hoistLoop, if_pos hmore, hhoist]
          exact hloop
    · exact ⟨0, Nat.zero_le _, m, rfl, trivial, by rw [hoistLoop, if_neg hmore], .refl hmore⟩

/-- The loop is `rebalance` between two cores. -/
theorem rebalances_iff (hne : src ≠ target)
    (hsrc : ∀ s, m.schedulers src = some s → s.Keeps srcOut)
    (htarget : ∀ t, m.schedulers target = some t → t.Keeps targetOut)
    (hfresh : m.FreshFor target ptrs) (hlen : m.needed src target ≤ ptrs.length) :
    Rebalances cfg src target m ptrs ↔ m.Suffices cfg src target := by
  constructor
  · intro h
    obtain ⟨k, -, m', -, -, hloop, -⟩ := h
    by_contra hshort
    rw [rebalance, if_neg hne, hoistLoop_none hne hsrc htarget hshort] at hloop
    cases hloop
  · intro hsuff
    obtain ⟨k, hk, m', hrun, halong, hloop, hbalances⟩ :=
      hoistLoop_ends hne hsrc htarget hsuff hfresh hlen
    exact ⟨k, hk, m', hrun, halong, by rw [rebalance, if_neg hne, hloop], hbalances⟩

end Yarns.Master
