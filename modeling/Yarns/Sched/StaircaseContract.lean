import Yarns.Sched.StaircaseRuns

/-!
# The books of the staircase scheduler over whole runs

Under the client of `StaircaseRuns`, with a timeslice: every entry is in one queue of one
block, once, or out; an entry in a queue names the level of that queue and has a slice
left that is no longer than the timeslice; an entry that is out remembers the slice it
was granted. `Settled` is that invariant, `QueuedAt` abstracts from which of the two
blocks is the active one, so that the swap inside `select` changes nothing.

Which jobs there are is read off the calls and not off the scheduler: those scheduled and not
unscheduled (`scheduled`). Each of them is in one queue or out (`run_contract`).
-/

namespace Yarns

open Base

namespace Staircase

/-- The entry is in the queue of `level` of one of the blocks. -/
def QueuedAt (s : Staircase) (level : Nat) (a : ULong) : Prop :=
  a ∈ s.active.queues level ∨ a ∈ s.exhausted.queues level

/-- An entry as `schedule` and `reschedule` leave it. -/
def Funded (cfg : Config) (e : JobEntry) : Prop :=
  e.originalLevel ≤ e.lastLevel ∧ e.lastLevel < LAYERS ∧ 0 < e.timeslice ∧
    e.timeslice ≤ cfg.timeslice

structure Settled (cfg : Config) (s : Staircase) (out : List SchedulerJob) : Prop where
  covered : ∀ a e, s.entries a = some e →
    (∃ level, s.QueuedAt level a) ∨ a ∈ out.map SchedulerJob.data
  placed : ∀ level a, s.QueuedAt level a →
    level < LAYERS ∧ ∀ e, s.entries a = some e → e.lastLevel = level
  funded : ∀ a e, s.entries a = some e → Funded cfg e
  granted : ∀ g ∈ out, ∀ e, s.entries g.data = some e →
    e.lastTimeslice = g.runtime ∧ g.runtime ≤ e.timeslice

/-- The jobs that are scheduled and not unscheduled after a call, by address and pid. -/
def Op.jobsAfter (jobs : List (ULong × ULong)) : Op → List (ULong × ULong)
  | .schedule ptr pid _ => (ptr, pid) :: jobs
  | .unschedule granted _ => jobs.erase (granted.data, granted.pid)
  | _ => jobs

/-- The jobs that the calls of a run have scheduled and not unscheduled. -/
def scheduled (ops : List Op) : List (ULong × ULong) := ops.foldl Op.jobsAfter []

variable {cfg : Config} {s s' : Staircase} {st st' : Client} {job job' g : SchedulerJob}
  {out out' : List SchedulerJob} {op : Op} {level : Nat} {a ptr pid : ULong}
  {prio : SchedulerPriority} {e : JobEntry}

theorem mem_queued {b : StaircaseBlock} :
    a ∈ b.queued ↔ ∃ level < LAYERS, a ∈ b.queues level := by
  simp only [StaircaseBlock.queued, List.mem_flatMap, List.mem_range]

theorem mem_enqueue {b : StaircaseBlock} {l : Nat} :
    a ∈ (b.enqueue l ptr).queues level ↔ a ∈ b.queues level ∨ level = l ∧ a = ptr := by
  by_cases hl : level = l
  · subst hl
    simp [StaircaseBlock.enqueue, fifoEnqueue]
  · simp [StaircaseBlock.enqueue, hl]

theorem Settled.perm (h : s.Settled cfg out) (hp : out.Perm out') : s.Settled cfg out' where
  covered := fun a e he => (h.covered a e he).imp_right fun hm => (hp.map _).subset hm
  placed := h.placed
  funded := h.funded
  granted := fun g hg => h.granted g (hp.symm.subset hg)

theorem QueuedAt.mem_queuedPtrs (hq : s.QueuedAt level a) (hl : level < LAYERS) :
    a ∈ s.queuedPtrs := by
  rcases hq with hq | hq
  · exact List.mem_append_left _ (mem_queued.mpr ⟨level, hl, hq⟩)
  · exact List.mem_append_right _ (mem_queued.mpr ⟨level, hl, hq⟩)

theorem Settled.mem_queuedPtrs (h : s.Settled cfg out) (hq : s.QueuedAt level a) :
    a ∈ s.queuedPtrs := hq.mem_queuedPtrs (h.placed level a hq).1

theorem swap_queuedAt : s.swap.QueuedAt level a ↔ s.QueuedAt level a := or_comm

theorem Settled.swap (h : s.Settled cfg out) : s.swap.Settled cfg out where
  covered := by
    intro a e he
    refine (h.covered a e he).imp_left fun hq => ?_
    obtain ⟨level, hq⟩ := hq
    exact ⟨level, swap_queuedAt.mpr hq⟩
  placed := fun level a hq => h.placed level a (swap_queuedAt.mp hq)
  funded := h.funded
  granted := h.granted

/-! ## The two moves of an entry -/

/-- An entry that is not queued is written, and joins the queue of its level, or freed. -/
theorem Settled.write (h : s.Settled cfg out) (hptr : ∀ level, ¬ s.QueuedAt level ptr)
    {x : Option JobEntry} (hx : ∀ e, x = some e → Funded cfg e)
    (hentries : s'.entries = Function.update s.entries ptr x)
    (hqueues : ∀ level a, s'.QueuedAt level a ↔
      s.QueuedAt level a ∨ ∃ e, x = some e ∧ level = e.lastLevel ∧ a = ptr)
    (hout : ∀ g ∈ out, g.data ≠ ptr → g ∈ out') (hsub : ∀ g ∈ out', g ∈ out ∧ g.data ≠ ptr) :
    s'.Settled cfg out' where
  covered := by
    intro a e he
    by_cases ha : a = ptr
    · rw [hentries, ha, Function.update_self] at he
      exact Or.inl ⟨e.lastLevel, (hqueues _ _).mpr (Or.inr ⟨e, he, rfl, ha⟩)⟩
    · rw [hentries, Function.update_of_ne ha] at he
      rcases h.covered a e he with ⟨level, hq⟩ | hm
      · exact Or.inl ⟨level, (hqueues _ _).mpr (Or.inl hq)⟩
      · obtain ⟨g, hg, rfl⟩ := List.mem_map.mp hm
        exact Or.inr (List.mem_map_of_mem (hout g hg ha))
  placed := by
    intro level a hq
    rw [hentries]
    rcases (hqueues level a).mp hq with hq | ⟨e, he, rfl, rfl⟩
    · have ha : a ≠ ptr := by rintro rfl; exact hptr level hq
      rw [Function.update_of_ne ha]
      exact h.placed level a hq
    · rw [Function.update_self, he]
      refine ⟨(hx e he).2.1, fun r hr => ?_⟩
      rw [← Option.some.inj hr]
  funded := by
    rw [hentries]
    exact update_forall h.funded hx
  granted := by
    intro g hg
    obtain ⟨hg, hne⟩ := hsub g hg
    rw [hentries, Function.update_of_ne hne]
    exact h.granted g hg

/-- An entry leaves its queue with the slice `job'` grants it. -/
theorem Settled.take (h : s.Settled cfg out) (hentry : s.entries ptr = some e)
    (hptr : ∀ level, ¬ s'.QueuedAt level ptr) {slice : ULong} (hslice : slice ≤ e.timeslice)
    (hentries : s'.entries =
      Function.update s.entries ptr (some { e with lastTimeslice := slice }))
    (hqueues : ∀ level a, a ≠ ptr → (s'.QueuedAt level a ↔ s.QueuedAt level a))
    (hout : ∀ g ∈ out, g.data ≠ ptr) (hdata : job'.data = ptr) (hrt : job'.runtime = slice) :
    s'.Settled cfg (job' :: out) where
  covered := by
    intro a r hr
    by_cases ha : a = ptr
    · rw [ha, ← hdata]
      exact Or.inr List.mem_cons_self
    · rw [hentries, Function.update_of_ne ha] at hr
      rcases h.covered a r hr with ⟨level, hq⟩ | hm
      · exact Or.inl ⟨level, (hqueues level a ha).mpr hq⟩
      · exact Or.inr (List.mem_cons_of_mem _ hm)
  placed := by
    intro level a hq
    have ha : a ≠ ptr := by rintro rfl; exact hptr level hq
    rw [hentries, Function.update_of_ne ha]
    exact h.placed level a ((hqueues level a ha).mp hq)
  funded := by
    rw [hentries]
    refine update_forall h.funded fun r hr => ?_
    rw [← Option.some.inj hr]
    exact h.funded ptr e hentry
  granted := by
    intro g hg r hr
    rcases List.mem_cons.mp hg with rfl | hg
    · rw [hentries, hdata, Function.update_self] at hr
      rw [← Option.some.inj hr, hrt]
      exact ⟨rfl, hslice⟩
    · rw [hentries, Function.update_of_ne (hout g hg)] at hr
      exact h.granted g hg r hr

/-! ## The calls -/

theorem schedule_settled (hz : cfg.timeslice ≠ 0) (howns : s.Owns out) (h : s.Settled cfg out)
    (hs : s.schedule cfg ptr pid prio = some s') : s'.Settled cfg out := by
  unfold schedule at hs
  split at hs
  · cases hs
  · rename_i hfresh
    simp only [not_or, Option.not_isSome_iff_eq_none] at hfresh
    obtain ⟨-, -, hptr⟩ := hfresh
    cases hs
    have hfunded : Funded cfg ⟨cfg.timeslice, 0, pid, startLevel prio, startLevel prio⟩ :=
      ⟨le_refl _, startLevel_lt prio, ulong_pos hz, le_refl _⟩
    have hout : ∀ g ∈ out, g.data ≠ ptr := by
      rintro g hg rfl
      obtain ⟨r, hr, -⟩ := howns.owned.outLive _ (List.mem_map_of_mem hg)
      rw [hptr] at hr
      cases hr
    refine h.write ?_ (x := some ⟨cfg.timeslice, 0, pid, startLevel prio, startLevel prio⟩)
      (fun e he => ?_) rfl ?_ (fun g hg _ => hg) (fun g hg => ⟨hg, hout g hg⟩)
    · intro level hq
      obtain ⟨r, hr⟩ := howns.owned.queuedLive ptr (h.mem_queuedPtrs hq)
      rw [hptr] at hr
      cases hr
    · rw [← Option.some.inj he]
      exact hfunded
    · intro level a
      simp only [QueuedAt, mem_enqueue, Option.some.injEq, exists_eq_left']
      tauto

/-- What is known of an entry whose job is out. -/
theorem out_entry (howns : s.Owns (g :: out)) (h : s.Settled cfg (g :: out)) :
    (∀ level, ¬ s.QueuedAt level g.data) ∧ (∀ g' ∈ out, g'.data ≠ g.data) := by
  obtain ⟨hq, hout, -⟩ := howns.owned.out_facts
  refine ⟨fun level hlevel => hq (h.mem_queuedPtrs hlevel), fun g' hg' => ?_⟩
  exact hout (g'.data, g'.pid) (List.mem_map_of_mem (f := fun g => (g.data, g.pid)) hg')

/-- A returned entry is written back into the exhausted block, or freed. -/
theorem back_settled (howns : s.Owns (g :: out)) (h : s.Settled cfg (g :: out))
    {x : Option JobEntry} (hx : ∀ e, x = some e → Funded cfg e)
    (hentries : s'.entries = Function.update s.entries g.data x)
    (hqueues : ∀ level a, s'.QueuedAt level a ↔
      s.QueuedAt level a ∨ ∃ e, x = some e ∧ level = e.lastLevel ∧ a = g.data) :
    s'.Settled cfg out := by
  obtain ⟨hq, hout⟩ := out_entry howns h
  refine h.write hq hx hentries hqueues (fun g' hg' hne => ?_) fun g' hg' => ?_
  · rcases List.mem_cons.mp hg' with rfl | hg'
    · exact absurd rfl hne
    · exact hg'
  · exact ⟨List.mem_cons_of_mem _ hg', hout g' hg'⟩

theorem reschedule_settled (hz : cfg.timeslice ≠ 0) (howns : s.Owns (g :: out))
    (h : s.Settled cfg (g :: out)) (hjob : job.Returns g) (h0 : g.pid ≠ 0)
    (hs : s.reschedule cfg job = some s') : s'.Settled cfg out := by
  obtain ⟨hpid, hdata, hrt⟩ := hjob
  obtain ⟨je, hje, hentry, -⟩ := entryOf_out howns hpid hdata h0
  obtain ⟨horig, hlast, hpos, hle⟩ := h.funded _ je hentry
  obtain ⟨hgrant, hslice⟩ := h.granted g List.mem_cons_self je hentry
  simp only [reschedule, hje, Option.bind_eq_bind, Option.bind_some, hdata] at hs
  split at hs
  · -- the slice is used up: the entry starts again where it began
    cases hs
    refine back_settled howns h (x := some { je with
      lastLevel := je.originalLevel, timeslice := cfg.timeslice }) (fun e he => ?_) rfl ?_
    · rw [← Option.some.inj he]
      exact ⟨le_refl _, lt_of_le_of_lt horig hlast, ulong_pos hz, le_refl _⟩
    · intro level a
      simp only [QueuedAt, StaircaseBlock.charge, mem_enqueue, Option.some.injEq,
        exists_eq_left']
      tauto
  · -- some of the slice is left: the entry goes down one level
    rename_i hleft
    cases hs
    refine back_settled howns h (x := some { je with
      timeslice := je.timeslice - (je.lastTimeslice - job.runtime)
      lastLevel := if je.lastLevel ≠ LAYERS - 1 then je.lastLevel + 1 else je.lastLevel })
      (fun e he => ?_) rfl ?_
    · rw [← Option.some.inj he]
      refine ⟨?_, ?_, ulong_pos hleft, ?_⟩
      · dsimp only
        split <;> omega
      · unfold LAYERS at *
        dsimp only
        split <;> omega
      · rw [hgrant]
        dsimp only
        bv_omega
    · intro level a
      simp only [QueuedAt, StaircaseBlock.charge, mem_enqueue, Option.some.injEq,
        exists_eq_left']
      tauto

theorem unschedule_settled (howns : s.Owns (g :: out)) (h : s.Settled cfg (g :: out))
    (hpid : job.pid = g.pid) (hdata : job.data = g.data) (h0 : g.pid ≠ 0)
    (hs : s.unschedule job = some s') : s'.Settled cfg out := by
  obtain ⟨je, hje, -, -⟩ := entryOf_out howns hpid hdata h0
  simp only [unschedule, hje, Option.bind_eq_bind, Option.bind_some, hdata] at hs
  cases hs
  refine back_settled howns h (x := none) (fun e he => (by cases he)) rfl fun level a => ?_
  simp [QueuedAt, StaircaseBlock.charge]

theorem dispatch_settled (job : SchedulerJob) (howns : s.Owns out) (h : s.Settled cfg out)
    (hl : level < LAYERS) {rest : Fifo} (hq : s.active.queues level = ptr :: rest) :
    ∃ s' job', s.dispatch cfg job level = some (s', job') ∧ s'.Owns (job' :: out) ∧
      s'.Settled cfg (job' :: out) ∧ job'.data = ptr := by
  obtain ⟨entry, t, hentry, -, hd, howns', -⟩ := dispatch_spec cfg job howns hl hq
  refine ⟨t, _, hd, howns', ?_, rfl⟩
  have ht : t = ⟨{ s.active with queues := Function.update s.active.queues level rest },
      s.exhausted, Function.update s.entries ptr (some { entry with
        lastTimeslice := min3 entry.timeslice (s.active.timeslices level) cfg.timeslice })⟩ :=
    dispatch_state hd hq hentry
  -- only the front of one queue is gone
  have hqueues : ∀ l a, a ≠ ptr → (t.QueuedAt l a ↔ s.QueuedAt l a) := by
    intro l a ha
    subst ht
    by_cases hll : l = level
    · subst hll
      simp [QueuedAt, hq, ha]
    · simp [QueuedAt, Function.update_of_ne hll]
  have hsub : ∀ l, t.QueuedAt l ptr → s.QueuedAt l ptr := by
    intro l hl
    subst ht
    refine hl.imp_left fun hm => ?_
    by_cases hll : l = level
    · subst hll
      rw [hq]
      exact List.mem_cons_self
    · dsimp only at hm
      rwa [Function.update_of_ne hll] at hm
  obtain ⟨hnot, hout, -⟩ := howns'.owned.out_facts
  refine h.take hentry (fun l hl => hnot ?_) (min_le_left _ _)
    (congrArg Staircase.entries ht) hqueues (fun g hg => ?_) rfl rfl
  · exact hl.mem_queuedPtrs (h.placed l ptr (hsub l hl)).1
  · exact hout (g.data, g.pid) (List.mem_map_of_mem (f := fun g => (g.data, g.pid)) hg)

/-- `select` always returns: no job, or the oldest entry of a level of one of the blocks. -/
theorem select_settled (howns : s.Owns out) (h : s.Settled cfg out) (job : SchedulerJob) :
    ∃ s' job', s.select cfg job = some (s', job') ∧
      ((job'.pid = 0 ∧ job'.data = 0 ∧ s'.Settled cfg out) ∨
        (s'.Owns (job' :: out) ∧ s'.Settled cfg (job' :: out))) := by
  rw [select_eq]
  cases hactive : s.active.firstLevel with
  | some level =>
    obtain ⟨hl, -, ptr, rest, hq⟩ := StaircaseBlock.firstLevel_spec hactive
    obtain ⟨s', job', hd, howns', hsettled, -⟩ := dispatch_settled job howns h hl hq
    exact ⟨s', job', hd, Or.inr ⟨howns', hsettled⟩⟩
  | none =>
    by_cases hdata : job.data = 1
    · exact ⟨s, _, if_pos hdata, Or.inl ⟨rfl, rfl, h⟩⟩
    · simp only [if_neg hdata]
      cases hexhausted : s.exhausted.firstLevel with
      | some level =>
        obtain ⟨hl, -, ptr, rest, hq⟩ := StaircaseBlock.firstLevel_spec hexhausted
        obtain ⟨s', job', hd, howns', hsettled, -⟩ :=
          dispatch_settled (s := s.swap) job howns.swap h.swap hl hq
        exact ⟨s', job', hd, Or.inr ⟨howns', hsettled⟩⟩
      | none => exact ⟨s.swap, _, rfl, Or.inl ⟨rfl, rfl, h.swap⟩⟩

/-! ## Every reachable state -/

theorem start_settled : (allocate cfg).Settled cfg [] where
  covered := by
    intro a e he
    cases he
  placed := by
    intro level a hq
    rcases hq with hq | hq <;> cases hq
  funded := by
    intro a e he
    cases he
  granted := by
    intro g hg
    cases hg

theorem step_settled (hz : cfg.timeslice ≠ 0) (hinv : st.Inv cfg)
    (h : st.sched.Settled cfg st.out) (hs : st.step cfg op = some st') :
    st'.sched.Settled cfg st'.out := by
  cases step_calls hs with
  | schedule _ hsched => exact schedule_settled hz hinv.owns h hsched
  | @select job job' s' hsel =>
    obtain ⟨s₁, job₁, hsel₁, hcase⟩ := select_settled hinv.owns h job
    rw [hsel] at hsel₁
    cases hsel₁
    rcases hcase with ⟨hpid, -, hsettled⟩ | ⟨howns, hsettled⟩
    · rw [if_pos hpid]
      exact hsettled
    · obtain ⟨entry, hentry, hpid⟩ := howns.owned.outLive (job'.data, job'.pid)
        (List.mem_map.mpr ⟨job', List.mem_cons_self, rfl⟩)
      have hne : job'.pid ≠ 0 := fun h0 =>
        (select_sliced hinv.sliced hsel _ entry hentry).1 (hpid.trans h0)
      rw [if_neg hne]
      exact hsettled
  | reschedule hg hjob hsched =>
    have hp := List.perm_cons_erase hg
    exact reschedule_settled hz (hinv.owns.perm hp) (h.perm hp) hjob (hinv.held _ hg) hsched
  | unschedule hg hjob hsched =>
    obtain ⟨hpid, hdata, -⟩ := hjob
    have hp := List.perm_cons_erase hg
    exact unschedule_settled (hinv.owns.perm hp) (h.perm hp) hpid hdata (hinv.held _ hg) hsched

/-! ## The jobs of a run -/

theorem dispatch_registered {jobs : List (ULong × ULong)}
    (hreg : Registered s.entries JobEntry.pid jobs)
    (hs : s.dispatch cfg job level = some (s', job')) :
    Registered s'.entries JobEntry.pid jobs := by
  cases dispatch_cases hs with
  | intro _ hentry => exact hreg.write hentry rfl

/-- The heap has an entry for every job that the calls leave scheduled, and no other. -/
theorem step_registered {jobs : List (ULong × ULong)} (hinv : st.Inv cfg)
    (hreg : Registered st.sched.entries JobEntry.pid jobs) (hs : st.step cfg op = some st') :
    Registered st'.sched.entries JobEntry.pid (op.jobsAfter jobs) := by
  cases step_calls hs with
  | @schedule ptr pid prio s' _ hsched =>
    unfold schedule at hsched
    split at hsched
    · cases hsched
    · rename_i hfresh
      simp only [not_or, Option.not_isSome_iff_eq_none] at hfresh
      cases hsched
      exact hreg.alloc hfresh.2.2 ⟨cfg.timeslice, 0, pid, startLevel prio, startLevel prio⟩
  | select hsel =>
    cases select_cases hsel with
    | active _ hd => exact dispatch_registered hreg hd
    | exhausted _ _ _ hd => exact dispatch_registered (s := st.sched.swap) hreg hd
    | flagged | empty => exact hreg
  | @reschedule granted job s' hg hjob hsched =>
    obtain ⟨hpid, hdata, -⟩ := hjob
    obtain ⟨je, hje, hentry, -⟩ := entryOf_out
      (hinv.owns.perm (List.perm_cons_erase hg)) hpid hdata (hinv.held _ hg)
    simp only [reschedule, hje, Option.bind_eq_bind, Option.bind_some, hdata] at hsched
    split at hsched
    · cases hsched
      exact hreg.write hentry rfl
    · cases hsched
      exact hreg.write hentry rfl
  | @unschedule granted job s' hg hjob hsched =>
    obtain ⟨hpid, hdata, -⟩ := hjob
    obtain ⟨je, hje, hentry, howner⟩ := entryOf_out
      (hinv.owns.perm (List.perm_cons_erase hg)) hpid hdata (hinv.held _ hg)
    simp only [unschedule, hje, Option.bind_eq_bind, Option.bind_some, hdata] at hsched
    cases hsched
    rw [Op.jobsAfter, ← howner]
    exact hreg.free hentry

theorem run_registered {ops : List Op} (hz : cfg.timeslice ≠ 0)
    (h : run (Client.step cfg) (Client.start cfg) ops = some st) :
    (st.Inv cfg ∧ st.sched.Settled cfg st.out) ∧
      Registered st.sched.entries JobEntry.pid (scheduled ops) := by
  have hstart : Registered (allocate cfg).entries JobEntry.pid [] :=
    ⟨List.nodup_nil, fun n => by simp [allocate]⟩
  refine run_history (I := fun st jobs => (st.Inv cfg ∧ st.sched.Settled cfg st.out) ∧
    Registered st.sched.entries JobEntry.pid jobs) ⟨⟨start_inv, start_settled⟩, hstart⟩ ?_ h
  rintro s jobs op t ⟨⟨hinv, hsettled⟩, hreg⟩ hs
  exact ⟨⟨step_inv hinv hs, step_settled hz hinv hsettled hs⟩, step_registered hinv hreg hs⟩

/-- The job has an entry, and that is in one place: one of the forty queues, once, or out. -/
def Client.Placed (st : Client) (j : ULong × ULong) : Prop :=
  ∃ e, st.sched.entries j.1 = some e ∧ e.pid = j.2 ∧
    ((st.sched.queuedPtrs.count j.1 = 1 ∧ j.1 ∉ st.out.map SchedulerJob.data) ∨
      (j.1 ∉ st.sched.queuedPtrs ∧ (st.out.map fun g => (g.data, g.pid)).count j = 1))

/-- Every scheduled job is in one place, and there is nothing else in these places. -/
def Client.Accounted (st : Client) (jobs : List (ULong × ULong)) : Prop :=
  (∀ j ∈ jobs, st.Placed j) ∧
    (st.sched.queuedPtrs ++ st.out.map SchedulerJob.data).Perm (jobs.map Prod.fst)

theorem Settled.mem_places (h : s.Settled cfg out) (he : s.entries a = some e) :
    a ∈ s.queuedPtrs ∨ a ∈ out.map SchedulerJob.data := by
  refine (h.covered a e he).imp_left fun hq => ?_
  obtain ⟨level, hq⟩ := hq
  exact h.mem_queuedPtrs hq

theorem placed (howns : st.sched.Owns st.out) (h : st.sched.Settled cfg st.out)
    (he : st.sched.entries a = some e) : st.Placed (a, e.pid) := by
  have hplace := howns.owned.place he (by
    rw [List.map_map]
    exact h.mem_places he)
  rw [List.map_map] at hplace
  exact ⟨e, he, rfl, hplace⟩

theorem accounted {jobs : List (ULong × ULong)} (howns : st.sched.Owns st.out)
    (h : st.sched.Settled cfg st.out) (hreg : Registered st.sched.entries JobEntry.pid jobs) :
    st.Accounted jobs := by
  refine ⟨fun j hj => ?_, ?_⟩
  · obtain ⟨e, he, hpid⟩ := (hreg.mem_iff j).mp hj
    have hplaced := placed howns h he
    rwa [hpid] at hplaced
  · have hperm := hreg.perm howns.owned fun a e he => by
      rw [List.map_map]
      exact h.mem_places he
    rwa [List.map_map] at hperm

/-! ## The contract -/

/-- What every call of `select` does in a state with the jobs `out` out: it returns after
one swap at most, clears the flag, and does not return an entry that is out. -/
def SelectsFresh (cfg : Config) (s : Staircase) (out : List SchedulerJob) : Prop :=
  ∀ job, ∃ s' job', s.select cfg job = some (s', job') ∧
    (∀ depth, selectDepth cfg s job (depth + 2) = some (s', job')) ∧ job'.data ≠ 1 ∧
    job'.data ∉ out.map SchedulerJob.data

theorem selectsFresh (howns : s.Owns out) (h : s.Settled cfg out) : SelectsFresh cfg s out := by
  intro job
  obtain ⟨s', job', hsel, hcase⟩ := select_settled howns h job
  have hdepth : ∀ depth, selectDepth cfg s job (depth + 2) = some (s', job') := by
    intro depth
    rw [selectDepth_eq, ← select_eq, hsel]
  refine ⟨s', job', hsel, hdepth, ?_⟩
  rcases hcase with ⟨-, hdata, -⟩ | ⟨howns', -⟩
  · rw [hdata]
    refine ⟨by decide, fun hm => ?_⟩
    obtain ⟨g, hg, hzero⟩ := List.mem_map.mp hm
    obtain ⟨r, hr, -⟩ := howns.owned.outLive _ (List.mem_map_of_mem hg)
    rw [hzero, howns.null] at hr
    cases hr
  · obtain ⟨-, hout, -⟩ := howns'.owned.out_facts
    refine ⟨fun hone => ?_, fun hm => ?_⟩
    · obtain ⟨r, hr, -⟩ := howns'.owned.outLive (job'.data, job'.pid) List.mem_cons_self
      rw [hone, howns'.flag] at hr
      cases hr
    · obtain ⟨g, hg, hsame⟩ := List.mem_map.mp hm
      exact hout (g.data, g.pid) (List.mem_map_of_mem (f := fun g => (g.data, g.pid)) hg) hsame

/-- The other calls return: a new job finds its queue, and the assertions hold for a job
that is out. -/
def CallsReturn (cfg : Config) (st : Client) : Prop :=
  (∀ ptr pid prio, ptr ≠ 0 → ptr ≠ 1 → st.sched.entries ptr = none →
    (st.sched.schedule cfg ptr pid prio).isSome) ∧
  ∀ g ∈ st.out, ∀ job, job.Returns g →
    (st.sched.reschedule cfg job).isSome ∧ (st.sched.unschedule job).isSome

theorem callsReturn (hinv : st.Inv cfg) : CallsReturn cfg st := by
  refine ⟨fun ptr pid prio hptr0 hptr1 hptr => ?_, fun g hg job hjob => ?_⟩
  · have hfresh : ¬ (ptr = 0 ∨ ptr = 1 ∨ (st.sched.entries ptr).isSome) := by
      rw [hptr, not_or, not_or]
      exact ⟨hptr0, hptr1, by decide⟩
    rw [schedule, if_neg hfresh]
    rfl
  · obtain ⟨je, hje, -, -⟩ := entryOf_out (hinv.owns.perm (List.perm_cons_erase hg)) hjob.1
      hjob.2.1 (hinv.held _ hg)
    constructor
    · simp only [reschedule, hje, Option.bind_eq_bind, Option.bind_some]
      split
      · rfl
      · rfl
    · simp only [unschedule, hje, Option.bind_eq_bind, Option.bind_some]
      rfl

/-- The contract, after every run of a client. `queuedPtrs` is what the forty queues hold. -/
theorem run_contract (cfg : Config) (hz : cfg.timeslice ≠ 0) (ops : List Op) (st : Client)
    (h : run (Client.step cfg) (Client.start cfg) ops = some st) :
    st.Accounted (scheduled ops) ∧
    (∀ level a, st.sched.QueuedAt level a → level < LAYERS ∧
      ∃ e, st.sched.entries a = some e ∧ e.lastLevel = level ∧ e.originalLevel ≤ level ∧
        0 < e.timeslice ∧ e.timeslice ≤ cfg.timeslice) ∧
    SelectsFresh cfg st.sched st.out ∧ CallsReturn cfg st := by
  obtain ⟨⟨hinv, hsettled⟩, hreg⟩ := run_registered hz h
  refine ⟨accounted hinv.owns hsettled hreg, fun level a hq => ?_,
    selectsFresh hinv.owns hsettled, callsReturn hinv⟩
  obtain ⟨hl, hlevel⟩ := hsettled.placed level a hq
  obtain ⟨e, he⟩ := hinv.owns.owned.queuedLive a (hsettled.mem_queuedPtrs hq)
  obtain ⟨horig, -, hpos, hle⟩ := hsettled.funded a e he
  have hlast := hlevel e he
  exact ⟨hl, e, he, hlast, hlast ▸ horig, hpos, hle⟩

/-- Two jobs are out while the blocks are swapped and then returned, one with some of its
slice left; a third is unscheduled. -/
def acrossSwap : List Op :=
  let granted (pid data : ULong) : SchedulerJob := ⟨pid, 1000, data, 0, .normal⟩
  [.schedule 4096 7 .normal, .schedule 8192 8 .titanic, .schedule 12288 9 .veryLow,
    .select .blank, .select .blank, .reschedule (granted 8 8192) ⟨8, 400, 8192, 0, .normal⟩,
    .select .blank, .unschedule (granted 9 12288) (granted 9 12288), .select .blank,
    .reschedule (granted 7 4096) ⟨7, 0, 4096, 0, .normal⟩]

theorem run_contract_acrossSwap : ∃ st : Client,
    run (Client.step .defaultProfile) (Client.start .defaultProfile) acrossSwap = some st ∧
      (st.sched.queuedPtrs, st.out.map SchedulerJob.data) = ([4096], [8192]) ∧
      scheduled acrossSwap = [(8192, 8), (4096, 7)] ∧ st.Accounted (scheduled acrossSwap) ∧
      SelectsFresh .defaultProfile st.sched st.out ∧ CallsReturn .defaultProfile st := by
  have hrun : (run (Client.step .defaultProfile) (Client.start .defaultProfile)
      acrossSwap).map (fun st => (st.sched.queuedPtrs, st.out.map SchedulerJob.data)) =
      some ([4096], [8192]) := by decide +kernel
  obtain ⟨st, hst, hplaces⟩ := Option.map_eq_some_iff.mp hrun
  obtain ⟨haccounted, -, hselects, hreturn⟩ :=
    run_contract .defaultProfile (by decide) acrossSwap st hst
  exact ⟨st, hst, hplaces, by decide, haccounted, hselects, hreturn⟩

end Staircase

end Yarns
