import Yarns.Base.Run
import Yarns.Sched.Staircase

/-!
# Work conservation of the staircase scheduler

Runs of the scheduler under a client that returns each selected job at most once, with
at most the granted slice left. `WorkConserving` is the obligation of `select` that the
round-robin and fair schedulers meet: no job only when nothing is queued.

The quotas of a level are set once, by `sched_allocate_staircase`, and only ever
charged; the swap exchanges the blocks without refilling them. So the obligation is met
exactly in the states in which some non-empty level still has a quota.
-/

namespace Yarns

open Base

namespace Staircase

/-- The scheduler together with the jobs its client holds. -/
structure Client where
  sched : Staircase
  out : List SchedulerJob

inductive Op where
  | schedule (ptr pid : ULong) (prio : SchedulerPriority)
  | select (job : SchedulerJob)
  | reschedule (granted job : SchedulerJob)
  | unschedule (granted job : SchedulerJob)

variable (cfg : Config)

def Client.start : Client := ⟨allocate cfg, []⟩

/-- One call. Pid 0 stands for no job and is never scheduled. -/
def Client.step (st : Client) : Op → Option Client
  | .schedule ptr pid prio =>
    if pid = 0 then none else do
      let sched ← st.sched.schedule cfg ptr pid prio
      some { st with sched }
  | .select job => do
    let (sched, job') ← st.sched.select cfg job
    some ⟨sched, if job'.pid = 0 then st.out else job' :: st.out⟩
  | .reschedule granted job =>
    if granted ∈ st.out ∧ job.Returns granted then do
      let sched ← st.sched.reschedule cfg job
      some ⟨sched, st.out.erase granted⟩
    else none
  | .unschedule granted job =>
    if granted ∈ st.out ∧ job.Returns granted then do
      let sched ← st.sched.unschedule job
      some ⟨sched, st.out.erase granted⟩
    else none

/-- A call with all that its guards say. -/
inductive Calls (st : Client) : Op → Client → Prop
  | schedule {ptr pid prio s'} : pid ≠ 0 → st.sched.schedule cfg ptr pid prio = some s' →
    Calls st (.schedule ptr pid prio) ⟨s', st.out⟩
  | select {job job' s'} : st.sched.select cfg job = some (s', job') →
    Calls st (.select job) ⟨s', if job'.pid = 0 then st.out else job' :: st.out⟩
  | reschedule {granted job s'} : granted ∈ st.out → job.Returns granted →
    st.sched.reschedule cfg job = some s' →
    Calls st (.reschedule granted job) ⟨s', st.out.erase granted⟩
  | unschedule {granted job s'} : granted ∈ st.out → job.Returns granted →
    st.sched.unschedule job = some s' →
    Calls st (.unschedule granted job) ⟨s', st.out.erase granted⟩

/-- `select` returns a queued job with a slice whenever one is queued, and pid 0 only
when none is. -/
def WorkConserving (s : Staircase) : Prop :=
  ∀ job, job.data ≠ 1 →
    (s.queuedPtrs ≠ [] → ∃ s' job' entry, s.select cfg job = some (s', job') ∧
      job'.data ∈ s.queuedPtrs ∧ s.entries job'.data = some entry ∧
      job'.pid = entry.pid ∧ 0 < job'.runtime) ∧
    ∀ s' job', s.select cfg job = some (s', job') → job'.pid = 0 → s.queuedPtrs = []

/-- Some non-empty level of one of the two blocks has quota left. -/
def HasQuota (s : Staircase) : Prop :=
  ∃ level < LAYERS,
    (s.active.timeslices level ≠ 0 ∧ s.active.queues level ≠ []) ∨
      (s.exhausted.timeslices level ≠ 0 ∧ s.exhausted.queues level ≠ [])

/-! ## The invariant of the runs -/

/-- Entries have a pid, and a slice unless the build gives none. -/
def Sliced (s : Staircase) : Prop :=
  ∀ a e, s.entries a = some e → e.pid ≠ 0 ∧ (cfg.timeslice ≠ 0 → e.timeslice ≠ 0)

/-- Without a timeslice every quota is zero. -/
def Unfunded (s : Staircase) : Prop :=
  ∀ level, s.active.timeslices level = 0 ∧ s.exhausted.timeslices level = 0

structure Client.Inv (st : Client) : Prop where
  owns : st.sched.Owns st.out
  held : ∀ g ∈ st.out, g.pid ≠ 0
  sliced : st.sched.Sliced cfg
  unfunded : cfg.timeslice = 0 → st.sched.Unfunded ∧ st.out = []

variable {cfg} {s s' : Staircase} {st st' : Client} {job job' g : SchedulerJob} {op : Op}
  {level : Nat} {ptr pid : ULong} {prio : SchedulerPriority}

theorem hasQuota_iff : s.HasQuota ↔
    s.active.firstLevel.isSome ∨ s.exhausted.firstLevel.isSome := by
  constructor
  · intro h
    obtain ⟨level, hl, h | h⟩ := h
    · refine Or.inl (Option.isSome_iff_ne_none.mpr fun hn => ?_)
      exact (StaircaseBlock.firstLevel_eq_none.mp hn level hl).elim h.1 h.2
    · refine Or.inr (Option.isSome_iff_ne_none.mpr fun hn => ?_)
      exact (StaircaseBlock.firstLevel_eq_none.mp hn level hl).elim h.1 h.2
  · intro h
    rcases h with h | h
    · obtain ⟨level, hlevel⟩ := Option.isSome_iff_exists.mp h
      obtain ⟨hl, hslice, je, rest, hq⟩ := StaircaseBlock.firstLevel_spec hlevel
      exact ⟨level, hl, Or.inl ⟨hslice, by rw [hq]; exact List.cons_ne_nil _ _⟩⟩
    · obtain ⟨level, hlevel⟩ := Option.isSome_iff_exists.mp h
      obtain ⟨hl, hslice, je, rest, hq⟩ := StaircaseBlock.firstLevel_spec hlevel
      exact ⟨level, hl, Or.inr ⟨hslice, by rw [hq]; exact List.cons_ne_nil _ _⟩⟩

/-- Without quota `select` finds no job. -/
theorem select_no_quota (cfg : Config) (job : SchedulerJob) (h : ¬ s.HasQuota) :
    ∃ s' job', s.select cfg job = some (s', job') ∧ job'.pid = 0 ∧ (s' = s ∨ s' = s.swap) := by
  rw [hasQuota_iff, not_or] at h
  obtain ⟨hactive, hexhausted⟩ := h
  rw [Option.not_isSome_iff_eq_none] at hactive hexhausted
  rw [select_eq, hactive, hexhausted]
  by_cases hd : job.data = 1
  · exact ⟨s, _, if_pos hd, rfl, Or.inl rfl⟩
  · exact ⟨s.swap, _, if_neg hd, rfl, Or.inr rfl⟩

theorem Unfunded.not_hasQuota (h : s.Unfunded) : ¬ s.HasQuota := by
  intro hq
  obtain ⟨level, -, hq | hq⟩ := hq
  · exact hq.1 (h level).1
  · exact hq.1 (h level).2

theorem min3_ne_zero {x y z : ULong} (hx : x ≠ 0) (hy : y ≠ 0) (hz : z ≠ 0) :
    min3 x y z ≠ 0 := by
  unfold min3
  rcases min_choice y z with h | h
  · rw [h]
    rcases min_choice x y with h' | h' <;> rw [h'] <;> assumption
  · rw [h]
    rcases min_choice x z with h' | h' <;> rw [h'] <;> assumption

/-! ## What each call does to the entries -/

theorem Sliced.update (h : s.Sliced cfg) {a : ULong} {x : Option JobEntry}
    (hx : ∀ e, x = some e → e.pid ≠ 0 ∧ (cfg.timeslice ≠ 0 → e.timeslice ≠ 0))
    (active exhausted : StaircaseBlock) :
    Sliced cfg ⟨active, exhausted, Function.update s.entries a x⟩ :=
  update_forall h hx

theorem schedule_sliced (h : s.Sliced cfg) (h0 : pid ≠ 0)
    (hs : s.schedule cfg ptr pid prio = some s') : s'.Sliced cfg := by
  unfold schedule at hs
  split at hs
  · cases hs
  · cases hs
    refine h.update ?_ _ _
    intro e he
    cases he
    exact ⟨h0, id⟩

theorem reschedule_sliced (h : s.Sliced cfg) (hs : s.reschedule cfg job = some s') :
    s'.Sliced cfg := by
  simp only [reschedule, Option.bind_eq_bind, Option.bind_eq_some_iff] at hs
  obtain ⟨je, hje, hs⟩ := hs
  obtain ⟨a, ha⟩ := entryOf_live hje
  obtain ⟨hpid, -⟩ := h a je ha
  split at hs
  · cases hs
    refine h.update ?_ _ _
    intro e he
    cases he
    exact ⟨hpid, id⟩
  · rename_i hslice
    cases hs
    refine h.update ?_ _ _
    intro e he
    cases he
    exact ⟨hpid, fun _ => hslice⟩

theorem unschedule_sliced (h : s.Sliced cfg) (hs : s.unschedule job = some s') :
    s'.Sliced cfg := by
  simp only [unschedule, Option.bind_eq_bind, Option.bind_eq_some_iff] at hs
  obtain ⟨je, -, hs⟩ := hs
  cases hs
  refine h.update ?_ _ _
  intro e he
  cases he

theorem dispatch_sliced (h : s.Sliced cfg) (hs : s.dispatch cfg job level = some (s', job')) :
    s'.Sliced cfg := by
  cases dispatch_cases hs with
  | @intro ptr _ entry _ hentry =>
    refine h.update ?_ _ _
    intro e he
    cases he
    exact h ptr entry hentry

theorem select_sliced (h : s.Sliced cfg) (hs : s.select cfg job = some (s', job')) :
    s'.Sliced cfg := by
  cases select_cases hs with
  | active _ hd => exact dispatch_sliced h hd
  | exhausted _ _ _ hd => exact dispatch_sliced (s := s.swap) h hd
  | flagged => exact h
  | empty => exact h

/-! ## The invariant holds in every reachable state -/

theorem start_inv : (Client.start cfg).Inv cfg where
  owns := allocate_owns
  held := by
    intro g hg
    cases hg
  sliced := by
    intro a e he
    cases he
  unfunded := by
    intro h
    refine ⟨fun level => ?_, rfl⟩
    simp [Client.start, allocate, Config.timeslices_of_zero h]

theorem Client.Inv.schedule (h : st.Inv cfg) (h0 : pid ≠ 0)
    (hs : st.sched.schedule cfg ptr pid prio = some s') : Inv cfg ⟨s', st.out⟩ where
  owns := (schedule_spec h.owns hs).1
  held := h.held
  sliced := schedule_sliced h.sliced h0 hs
  unfunded := by
    intro hz
    obtain ⟨hu, hout⟩ := h.unfunded hz
    refine ⟨?_, hout⟩
    unfold Staircase.schedule at hs
    split at hs
    · cases hs
    · cases hs
      exact hu

theorem Client.Inv.select (h : st.Inv cfg) (hs : st.sched.select cfg job = some (s', job')) :
    Inv cfg ⟨s', if job'.pid = 0 then st.out else job' :: st.out⟩ := by
  have hsliced := select_sliced h.sliced hs
  have hunfunded : cfg.timeslice = 0 → job'.pid = 0 ∧ s'.Unfunded ∧ st.out = [] := by
    intro hz
    obtain ⟨hu, hout⟩ := h.unfunded hz
    obtain ⟨t, job₀, ht, hpid, hst⟩ :=
      select_no_quota cfg job hu.not_hasQuota
    rw [hs] at ht
    cases ht
    refine ⟨hpid, ?_, hout⟩
    rcases hst with rfl | rfl
    · exact hu
    · exact fun level => (hu level).symm
  rcases select_spec h.owns hs with ⟨hpid, howns, -⟩ | ⟨howns, -⟩
  · rw [if_pos hpid]
    exact ⟨howns, h.held, hsliced, fun hz => (hunfunded hz).2⟩
  · obtain ⟨entry, hentry, hpid⟩ := howns.owned.outLive (job'.data, job'.pid)
      (List.mem_map.mpr ⟨job', List.mem_cons_self, rfl⟩)
    have hne : job'.pid ≠ 0 := fun h0 => (hsliced _ _ hentry).1 (hpid.trans h0)
    rw [if_neg hne]
    refine ⟨howns, ?_, hsliced, fun hz => absurd (hunfunded hz).1 hne⟩
    intro g hg
    rcases List.mem_cons.mp hg with rfl | hg
    · exact hne
    · exact h.held g hg

/-- The client hands a job back: what `reschedule` and `unschedule` share. -/
theorem Client.Inv.back (h : st.Inv cfg) (hg : g ∈ st.out) (howns : s'.Owns (st.out.erase g))
    (hsliced : s'.Sliced cfg) : Inv cfg ⟨s', st.out.erase g⟩ where
  owns := howns
  held := fun g' hg' => h.held g' (List.mem_of_mem_erase hg')
  sliced := hsliced
  unfunded := by
    intro hz
    obtain ⟨-, hout⟩ := h.unfunded hz
    rw [hout] at hg
    cases hg

theorem step_calls (hs : st.step cfg op = some st') : Calls cfg st op st' := by
  cases op with
  | schedule ptr pid prio =>
    simp only [Client.step] at hs
    split at hs
    · cases hs
    · obtain ⟨sched, hsched, hs⟩ := Option.bind_eq_some_iff.mp hs
      cases hs
      exact .schedule ‹_› hsched
  | select job =>
    obtain ⟨⟨sched, job'⟩, hsel, hs⟩ := Option.bind_eq_some_iff.mp hs
    cases hs
    exact .select hsel
  | reschedule granted job =>
    simp only [Client.step] at hs
    split at hs
    · rename_i hg
      obtain ⟨sched, hsched, hs⟩ := Option.bind_eq_some_iff.mp hs
      cases hs
      exact .reschedule hg.1 hg.2 hsched
    · cases hs
  | unschedule granted job =>
    simp only [Client.step] at hs
    split at hs
    · rename_i hg
      obtain ⟨sched, hsched, hs⟩ := Option.bind_eq_some_iff.mp hs
      cases hs
      exact .unschedule hg.1 hg.2 hsched
    · cases hs

theorem step_inv (h : st.Inv cfg) (hs : st.step cfg op = some st') : st'.Inv cfg := by
  cases step_calls hs with
  | schedule h0 hsched => exact h.schedule h0 hsched
  | select hsel => exact h.select hsel
  | reschedule hg hjob hsched =>
    obtain ⟨hpid, hdata, -⟩ := hjob
    have howns := h.owns.perm (List.perm_cons_erase hg)
    exact h.back hg (reschedule_spec howns hpid hdata (h.held _ hg) hsched).1
      (reschedule_sliced h.sliced hsched)
  | unschedule hg hjob hsched =>
    obtain ⟨hpid, hdata, -⟩ := hjob
    have howns := h.owns.perm (List.perm_cons_erase hg)
    exact h.back hg (unschedule_spec howns hpid hdata (h.held _ hg) hsched).1
      (unschedule_sliced h.sliced hsched)

theorem reachable_inv (h : Reachable (Client.step cfg) (Client.start cfg) st) : st.Inv cfg :=
  reachable_invariant start_inv (fun _ _ _ hi hs => step_inv hi hs) h

/-! ## Work conservation -/

/-- A level with quota gives its oldest job a slice. -/
theorem dispatch_grants (job : SchedulerJob) (h : s.Owns st.out) (hsliced : s.Sliced cfg)
    (hz : cfg.timeslice ≠ 0) (hlevel : s.active.firstLevel = some level) :
    ∃ s' job' entry, s.dispatch cfg job level = some (s', job') ∧ job'.data ∈ s.queuedPtrs ∧
      s.entries job'.data = some entry ∧ job'.pid = entry.pid ∧ 0 < job'.runtime := by
  obtain ⟨hl, hquota, je, rest, hq⟩ := StaircaseBlock.firstLevel_spec hlevel
  obtain ⟨entry, t, hentry, hmem, hd, -, -⟩ := dispatch_spec cfg job h hl hq
  obtain ⟨-, hslice⟩ := hsliced je entry hentry
  refine ⟨t, _, entry, hd, hmem, hentry, rfl, ?_⟩
  exact ulong_pos (min3_ne_zero (hslice hz) hquota hz)

theorem select_grants (h : st.Inv cfg) (hquota : st.sched.HasQuota) (hd : job.data ≠ 1) :
    ∃ s' job' entry, st.sched.select cfg job = some (s', job') ∧
      job'.data ∈ st.sched.queuedPtrs ∧ st.sched.entries job'.data = some entry ∧
      job'.pid = entry.pid ∧ 0 < job'.runtime := by
  have hz : cfg.timeslice ≠ 0 := fun hz => (h.unfunded hz).1.not_hasQuota hquota
  rw [select_eq]
  cases hactive : st.sched.active.firstLevel with
  | some level => exact dispatch_grants job h.owns h.sliced hz hactive
  | none =>
    simp only [if_neg hd]
    cases hexhausted : st.sched.exhausted.firstLevel with
    | some level =>
      obtain ⟨t, job', entry, hdis, hmem, hrest⟩ :=
        dispatch_grants (s := st.sched.swap) job h.owns.swap h.sliced hz hexhausted
      exact ⟨t, job', entry, hdis, swap_queuedPtrs.subset hmem, hrest⟩
    | none =>
      rw [hasQuota_iff, hactive, hexhausted] at hquota
      exact absurd hquota (by decide)

/-- In every reachable state the scheduler is work-conserving if and only if nothing is
queued or some non-empty level still has quota. The quotas start as `YARNS_TIMESLICE * 5` in C:
five timeslices where that fits in an `int`. -/
theorem workConserving_iff (cfg : Config) (st : Client)
    (h : Reachable (Client.step cfg) (Client.start cfg) st) :
    st.sched.WorkConserving cfg ↔ (st.sched.queuedPtrs ≠ [] → st.sched.HasQuota) := by
  have hinv := reachable_inv h
  constructor
  · intro hwork hqueued
    by_contra hquota
    obtain ⟨s', job', hs, hpid, -⟩ :=
      select_no_quota cfg SchedulerJob.blank hquota
    exact hqueued ((hwork SchedulerJob.blank (by decide)).2 s' job' hs hpid)
  · intro hcond job hd
    refine ⟨fun hqueued => select_grants hinv (hcond hqueued) hd, ?_⟩
    intro s' job' hs hpid
    by_contra hqueued
    obtain ⟨t, job₀, entry, ht, -, hentry, howner, -⟩ := select_grants hinv (hcond hqueued) hd
    rw [hs] at ht
    cases ht
    exact (hinv.sliced _ entry hentry).1 (howner ▸ hpid)

theorem workConserving_iff_scheduled : ∃ st,
    (Client.start .defaultProfile).step .defaultProfile (.schedule 4096 7 .normal) = some st ∧
      st.sched.queuedPtrs ≠ [] ∧
      (st.sched.WorkConserving .defaultProfile ↔
        (st.sched.queuedPtrs ≠ [] → st.sched.HasQuota)) :=
  ⟨_, rfl, by decide, workConserving_iff _ _ ⟨[.schedule 4096 7 .normal], rfl⟩⟩

/-- One job that uses its whole slice ten times. -/
def drain : List Op :=
  let granted : SchedulerJob := ⟨7, 1000, 4096, 0, .normal⟩
  .schedule 4096 7 .normal :: (List.replicate 10
    [.select .blank, .reschedule granted { granted with runtime := 0 }]).flatten

/-- After that both quotas of its level are spent, and `select` never finds it again. -/
theorem drain_not_workConserving : ∃ st,
    run (Client.step .defaultProfile) (Client.start .defaultProfile) drain = some st ∧
      ¬ st.sched.WorkConserving .defaultProfile := by
  have hrun : ((run (Client.step .defaultProfile) (Client.start .defaultProfile) drain).bind
      fun st => (st.sched.select .defaultProfile .blank).map
        fun r => (st.sched.queuedPtrs, r.2.pid)) = some ([4096], 0) := by
    decide +kernel
  obtain ⟨st, hst, hsel⟩ := Option.bind_eq_some_iff.mp hrun
  refine ⟨st, hst, fun hwork => ?_⟩
  obtain ⟨⟨s', job'⟩, hsel, hvals⟩ := Option.map_eq_some_iff.mp hsel
  obtain ⟨hqueued, hpid⟩ := Prod.mk.inj hvals
  have hempty := (hwork .blank (by decide)).2 s' job' hsel hpid
  rw [hqueued] at hempty
  exact absurd hempty (by decide)

end Staircase

end Yarns
