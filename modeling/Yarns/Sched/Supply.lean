import Yarns.Sched.FairRuns
import Yarns.Sched.Scheduler
import Yarns.Sched.StaircaseContract

/-!
# What a scheduler gives away

How many jobs `select` hands out when each is unscheduled at once, as `job_hoist` does it.
For the round-robin and the fair scheduler these are the jobs queued. The staircase
scheduler takes the slice of each job from the quota of its level, so a level gives only
the jobs before which some of the quota is left.
-/

namespace Yarns

open Base

namespace Staircase

/-- The entries at the front of a queue before which the quota is not used up. -/
def funded (cfg : Config) (entries : ULong → Option JobEntry) : ULong → Fifo → List ULong
  | _, [] => []
  | quota, je :: queue =>
    if quota = 0 then [] else
      match entries je with
      | some e => je :: funded cfg entries (quota - min3 e.timeslice quota cfg.timeslice) queue
      | none => []

/-- What one level of a block gives away. -/
def levelSupply (cfg : Config) (entries : ULong → Option JobEntry) (b : StaircaseBlock)
    (level : Nat) : List ULong :=
  funded cfg entries (b.timeslices level) (b.queues level)

def blockSupply (cfg : Config) (entries : ULong → Option JobEntry) (b : StaircaseBlock) :
    List ULong :=
  (List.range LAYERS).flatMap (levelSupply cfg entries b)

def supply (cfg : Config) (s : Staircase) : Nat :=
  (blockSupply cfg s.entries s.active ++ blockSupply cfg s.entries s.exhausted).length

/-- A queued entry names the level of its queue. -/
def Levelled (s : Staircase) : Prop :=
  ∀ level < LAYERS, ∀ a, s.QueuedAt level a → ∀ e, s.entries a = some e → e.lastLevel = level

variable {cfg : Config} {s s' : Staircase} {job job' g : SchedulerJob}
  {out : List SchedulerJob} {level : Nat} {a ptr pid : ULong} {prio : SchedulerPriority}
  {b b' : StaircaseBlock} {entries entries' : ULong → Option JobEntry} {quota : ULong}

/-! ## Entries stay on their level -/

theorem allocate_levelled : (allocate cfg).Levelled := by
  intro level _ a hq
  rcases hq with hq | hq <;> cases hq

theorem Levelled.swap (h : s.Levelled) : s.swap.Levelled :=
  fun level hl a hq => h level hl a (swap_queuedAt.mp hq)

/-- One entry is written: it is in no queue, or in the one of its level. -/
theorem Levelled.write (h : s.Levelled) {x : Option JobEntry}
    (hentries : s'.entries = Function.update s.entries ptr x)
    (hqueues : ∀ level < LAYERS, ∀ a, s'.QueuedAt level a →
      (s.QueuedAt level a ∧ a ≠ ptr) ∨ ∃ e, x = some e ∧ e.lastLevel = level ∧ a = ptr) :
    s'.Levelled := by
  intro level hl a hq e he
  rw [hentries] at he
  rcases hqueues level hl a hq with ⟨hq, hne⟩ | ⟨r, rfl, hlevel, rfl⟩
  · rw [Function.update_of_ne hne] at he
    exact h level hl a hq e he
  · rw [Function.update_self] at he
    rwa [← Option.some.inj he]

theorem schedule_levelled (howns : s.Owns out) (h : s.Levelled)
    (hs : s.schedule cfg ptr pid prio = some s') : s'.Levelled := by
  unfold schedule at hs
  split at hs
  · cases hs
  · rename_i hfresh
    simp only [not_or, Option.not_isSome_iff_eq_none] at hfresh
    obtain ⟨-, -, hptr⟩ := hfresh
    cases hs
    refine h.write rfl fun level hl a hq => ?_
    have hne : s.QueuedAt level a → a ≠ ptr := by
      rintro hqa rfl
      obtain ⟨r, hr⟩ := howns.owned.queuedLive a (hqa.mem_queuedPtrs hl)
      rw [hptr] at hr
      cases hr
    rcases hq with hq | hq
    · rcases mem_enqueue.mp hq with hq | ⟨rfl, rfl⟩
      · exact Or.inl ⟨Or.inl hq, hne (Or.inl hq)⟩
      · exact Or.inr ⟨_, rfl, rfl, rfl⟩
    · exact Or.inl ⟨Or.inr hq, hne (Or.inr hq)⟩

/-- An entry that is out is in no queue. -/
theorem ne_of_queuedAt (howns : s.Owns (g :: out)) (hl : level < LAYERS)
    (hq : s.QueuedAt level a) : a ≠ g.data := by
  rintro rfl
  exact howns.owned.out_facts.1 (hq.mem_queuedPtrs hl)

/-- A returned entry joins the queue of its level in the exhausted block. -/
theorem requeue_levelled (howns : s.Owns (g :: out)) (h : s.Levelled) (e : JobEntry)
    {active : StaircaseBlock} (hactive : active.queues = s.active.queues) :
    Levelled ⟨active, s.exhausted.enqueue e.lastLevel g.data,
      Function.update s.entries g.data (some e)⟩ := by
  refine h.write rfl fun level hl a hq => ?_
  rcases hq with hq | hq
  · have hq : s.QueuedAt level a := Or.inl (hactive ▸ hq)
    exact Or.inl ⟨hq, ne_of_queuedAt howns hl hq⟩
  · rcases mem_enqueue.mp hq with hq | ⟨rfl, rfl⟩
    · exact Or.inl ⟨Or.inr hq, ne_of_queuedAt howns hl (Or.inr hq)⟩
    · exact Or.inr ⟨e, rfl, rfl, rfl⟩

theorem reschedule_levelled (howns : s.Owns (g :: out)) (h : s.Levelled)
    (hpid : job.pid = g.pid) (hdata : job.data = g.data) (h0 : g.pid ≠ 0)
    (hs : s.reschedule cfg job = some s') : s'.Levelled := by
  obtain ⟨je, hje, -, -⟩ := entryOf_out howns hpid hdata h0
  simp only [reschedule, hje, Option.bind_eq_bind, Option.bind_some, hdata] at hs
  split at hs
  · cases hs
    exact requeue_levelled howns h { je with
      timeslice := cfg.timeslice, lastLevel := je.originalLevel } rfl
  · cases hs
    exact requeue_levelled howns h { je with
      timeslice := je.timeslice - (je.lastTimeslice - job.runtime)
      lastLevel := if je.lastLevel ≠ LAYERS - 1 then je.lastLevel + 1 else je.lastLevel } rfl

theorem unschedule_levelled (howns : s.Owns (g :: out)) (h : s.Levelled)
    (hpid : job.pid = g.pid) (hdata : job.data = g.data) (h0 : g.pid ≠ 0)
    (hs : s.unschedule job = some s') : s'.Levelled := by
  obtain ⟨je, hje, -, -⟩ := entryOf_out howns hpid hdata h0
  simp only [unschedule, hje, Option.bind_eq_bind, Option.bind_some, hdata] at hs
  cases hs
  refine h.write rfl fun level hl a hq => ?_
  exact Or.inl ⟨hq, ne_of_queuedAt howns hl hq⟩

/-- The entry at the front of a queue is taken. -/
theorem dispatch_levelled (howns : s.Owns out) (h : s.Levelled) (hl : level < LAYERS)
    {rest : Fifo} (hq : s.active.queues level = ptr :: rest)
    (hs : s.dispatch cfg job level = some (s', job')) : s'.Levelled := by
  obtain ⟨entry, t, hentry, -, hd, howns', -⟩ := dispatch_spec cfg job howns hl hq
  rw [hs] at hd
  obtain ⟨rfl, -⟩ := Prod.mk.inj (Option.some.inj hd)
  obtain rfl := dispatch_state hs hq hentry
  refine h.write rfl fun l hl' a hqa => Or.inl ⟨?_, ne_of_queuedAt howns' hl' hqa⟩
  refine hqa.imp_left fun hm => ?_
  dsimp only at hm
  by_cases hll : l = level
  · subst hll
    rw [Function.update_self] at hm
    rw [hq]
    exact List.mem_cons_of_mem ptr hm
  · rwa [Function.update_of_ne hll] at hm

theorem select_levelled (howns : s.Owns out) (h : s.Levelled)
    (hs : s.select cfg job = some (s', job')) : s'.Levelled := by
  cases select_cases hs with
  | active hlevel hd =>
    obtain ⟨hl, -, je, rest, hq⟩ := StaircaseBlock.firstLevel_spec hlevel
    exact dispatch_levelled howns h hl hq hd
  | exhausted _ _ hlevel hd =>
    obtain ⟨hl, -, je, rest, hq⟩ := StaircaseBlock.firstLevel_spec hlevel
    exact dispatch_levelled howns.swap h.swap hl hq hd
  | flagged => exact h
  | empty => exact h.swap

/-! ## What the levels give away -/

theorem funded_cons {e : JobEntry} {queue : Fifo} (hquota : quota ≠ 0)
    (he : entries a = some e) : funded cfg entries quota (a :: queue) =
      a :: funded cfg entries (quota - min3 e.timeslice quota cfg.timeslice) queue := by
  rw [funded, if_neg hquota, he]

theorem funded_zero (queue : Fifo) : funded cfg entries 0 queue = [] := by
  cases queue with
  | nil => rfl
  | cons je queue => rw [funded, if_pos rfl]

/-- Only the entries of the queue are read. -/
theorem funded_congr {queue : Fifo} (h : ∀ a ∈ queue, entries' a = entries a) :
    funded cfg entries' quota queue = funded cfg entries quota queue := by
  induction queue generalizing quota with
  | nil => rfl
  | cons je queue ih =>
    rw [funded, funded, h je List.mem_cons_self]
    have hrest : ∀ quota, funded cfg entries' quota queue = funded cfg entries quota queue :=
      fun quota => ih fun a ha => h a (List.mem_cons_of_mem je ha)
    simp only [hrest]

theorem blockSupply_congr (cfg : Config) (hslices : b'.timeslices = b.timeslices)
    (hqueues : b'.queues = b.queues)
    (h : ∀ a ∈ b.queued, entries' a = entries a) :
    blockSupply cfg entries' b' = blockSupply cfg entries b := by
  apply List.flatMap_congr
  intro level hl
  rw [levelSupply, levelSupply, hslices, hqueues]
  exact funded_congr fun a ha => h a (mem_queued.mpr ⟨level, List.mem_range.mp hl, ha⟩)

/-- The scan of `select` finds no level in a block that gives nothing away. -/
theorem blockSupply_eq_nil (h : b.firstLevel = none) : blockSupply cfg entries b = [] := by
  rw [blockSupply, List.flatMap_eq_nil_iff]
  intro level hl
  rcases StaircaseBlock.firstLevel_eq_none.mp h level (List.mem_range.mp hl) with hslice | hqueue
  · rw [levelSupply, hslice]
    exact funded_zero _
  · rw [levelSupply, hqueue]
    rfl

/-- The front entry of a level and its slice are gone. -/
theorem blockSupply_take (cfg : Config) {e : JobEntry} {rest : Fifo} (hl : level < LAYERS)
    (hslice : b.timeslices level ≠ 0) (hq : b.queues level = ptr :: rest)
    (he : entries ptr = some e)
    (hslices : b'.timeslices = Function.update b.timeslices level
      (b.timeslices level - min3 e.timeslice (b.timeslices level) cfg.timeslice))
    (hqueues : b'.queues = Function.update b.queues level rest)
    (h : ∀ a ∈ b'.queued, entries' a = entries a) :
    (blockSupply cfg entries b).length = (blockSupply cfg entries' b').length + 1 := by
  have hlevel : ∀ l < LAYERS, levelSupply cfg entries' b' l =
      funded cfg entries (b'.timeslices l) (b'.queues l) := fun l hl =>
    funded_congr fun a ha => h a (mem_queued.mpr ⟨l, hl, ha⟩)
  have hp : ((List.range LAYERS).flatMap (fun l => funded cfg entries (b'.timeslices l)
      (b'.queues l)) ++ [ptr]).Perm (blockSupply cfg entries b ++ []) := by
    refine flatMap_perm_of_off List.nodup_range (List.mem_range.mpr hl) (fun l hne => ?_) ?_
    · rw [levelSupply, hslices, hqueues, Function.update_of_ne hne, Function.update_of_ne hne]
    · rw [levelSupply, hq, funded_cons hslice he, hslices, hqueues, Function.update_self,
        Function.update_self, List.append_nil]
      exact List.perm_append_singleton ptr _
  have hlen := hp.length_eq
  rw [List.append_nil, List.length_append, List.length_singleton] at hlen
  rw [← hlen, blockSupply]
  congr 2
  apply List.flatMap_congr
  intro l hl
  exact (hlevel l (List.mem_range.mp hl)).symm

theorem swap_supply : s.swap.supply cfg = s.supply cfg := by
  simp only [supply, swap, List.length_append]
  omega

/-- The entry that `select` takes is unscheduled at once. -/
theorem dispatch_supply (job : SchedulerJob) (howns : s.Owns out) (h : s.Levelled)
    (h0 : (0 : ULong) ∉ s.queuedPids) (hl : level < LAYERS)
    (hslice : s.active.timeslices level ≠ 0) {rest : Fifo}
    (hq : s.active.queues level = ptr :: rest) :
    ∃ s' job', s.dispatch cfg job level = some (s', job') ∧ job'.pid ≠ 0 ∧
      ∃ s'', s'.unschedule job' = some s'' ∧ s.supply cfg = s''.supply cfg + 1 := by
  obtain ⟨e, s', he, -, hd, howns', hpids⟩ := dispatch_spec cfg job howns hl hq
  have hpid : e.pid ≠ 0 := by
    intro hz
    exact h0 (hpids.symm.subset (hz ▸ List.mem_cons_self))
  have hs' : s' = ⟨{ s.active with queues := Function.update s.active.queues level rest },
      s.exhausted, Function.update s.entries ptr (some { e with
        lastTimeslice := min3 e.timeslice (s.active.timeslices level) cfg.timeslice })⟩ :=
    dispatch_state hd hq he
  have hwritten : s'.entries = Function.update s.entries ptr (some { e with
      lastTimeslice := min3 e.timeslice (s.active.timeslices level) cfg.timeslice }) := by rw [hs']
  have hlevel : e.lastLevel = level := h level hl ptr (Or.inl (hq ▸ List.mem_cons_self)) e he
  -- the entry is in no queue any more
  have hqueued : ptr ∉ s'.queuedPtrs := howns'.owned.out_facts.1
  have hentries : ∀ a ∈ s'.queuedPtrs,
      Function.update s'.entries ptr none a = s.entries a := by
    intro a ha
    have hne : a ≠ ptr := by
      rintro rfl
      exact hqueued ha
    rw [Function.update_of_ne hne, hwritten, Function.update_of_ne hne]
  let taken : SchedulerJob := { job with
    pid := e.pid
    runtime := min3 e.timeslice (s.active.timeslices level) cfg.timeslice
    data := ptr }
  obtain ⟨je, hje, hentry, -⟩ : ∃ je, s'.entryOf taken = some je ∧ s'.entries ptr = some je ∧ _ :=
    entryOf_out howns' rfl rfl hpid
  refine ⟨s', taken, hd, hpid, { s' with
    active := s'.active.charge je.lastLevel je.lastTimeslice
    entries := Function.update s'.entries ptr none }, ?_, ?_⟩
  · rw [unschedule, hje]
    rfl
  · have hje : je = { e with
        lastTimeslice := min3 e.timeslice (s.active.timeslices level) cfg.timeslice } := by
      rw [hwritten, Function.update_self] at hentry
      exact (Option.some.inj hentry).symm
    have hactive : (blockSupply cfg s.entries s.active).length =
        (blockSupply cfg (Function.update s'.entries ptr none)
          (s'.active.charge je.lastLevel je.lastTimeslice)).length + 1 := by
      refine blockSupply_take cfg hl hslice hq he ?_ ?_ fun a ha => ?_
      · rw [hje, hs', ← hlevel]
        rfl
      · rw [hs']
        rfl
      · exact hentries a (List.mem_append_left _ ha)
    have hexhausted : blockSupply cfg (Function.update s'.entries ptr none) s'.exhausted =
        blockSupply cfg s.entries s.exhausted := by
      have hsame : s'.exhausted = s.exhausted := by rw [hs']
      rw [hsame]
      refine blockSupply_congr cfg rfl rfl fun a ha => hentries a (List.mem_append_right _ ?_)
      rwa [hsame]
    simp only [supply, List.length_append]
    rw [hactive, hexhausted]
    omega

/-- `select` hands out a job exactly while there is a supply. -/
theorem select_supply (cfg : Config) (job : SchedulerJob) (howns : s.Owns out) (h : s.Levelled)
    (h0 : (0 : ULong) ∉ s.queuedPids) (hdata : job.data ≠ 1) :
    ∃ s' job', s.select cfg job = some (s', job') ∧
      ((job'.pid = 0 ∧ s.supply cfg = 0 ∧ s'.supply cfg = 0) ∨
        (job'.pid ≠ 0 ∧
          ∃ s'', s'.unschedule job' = some s'' ∧ s.supply cfg = s''.supply cfg + 1)) := by
  rw [select_eq]
  cases hactive : s.active.firstLevel with
  | some level =>
    obtain ⟨hl, hslice, ptr, rest, hq⟩ := StaircaseBlock.firstLevel_spec hactive
    obtain ⟨s', job', hd, hrest⟩ := dispatch_supply job howns h h0 hl hslice hq
    exact ⟨s', job', hd, Or.inr hrest⟩
  | none =>
    simp only [if_neg hdata]
    cases hexhausted : s.exhausted.firstLevel with
    | some level =>
      obtain ⟨hl, hslice, ptr, rest, hq⟩ := StaircaseBlock.firstLevel_spec hexhausted
      obtain ⟨s', job', hd, hrest⟩ := dispatch_supply (s := s.swap) job howns.swap h.swap
        (fun hm => h0 (swap_queuedPids.subset hm)) hl hslice hq
      rw [swap_supply] at hrest
      exact ⟨s', job', hd, Or.inr hrest⟩
    | none =>
      have hzero : s.supply cfg = 0 := by
        rw [supply, blockSupply_eq_nil hactive, blockSupply_eq_nil hexhausted]
        rfl
      exact ⟨s.swap, _, rfl, Or.inl ⟨rfl, hzero, swap_supply.trans hzero⟩⟩

end Staircase

namespace Fair

variable {s s' : Fair} {job job' : SchedulerJob} {out : List SchedulerJob}

/-- The task that `select` takes is unscheduled at once. -/
theorem select_supply (cfg : Config) (job : SchedulerJob) (howns : s.Owns out)
    (h0 : (0 : ULong) ∉ s.queuedPids) :
    ∃ s' job', s.select cfg job = some (s', job') ∧
      ((job'.pid = 0 ∧ rbtreeSize s.processTree = 0 ∧ rbtreeSize s'.processTree = 0) ∨
        (job'.pid ≠ 0 ∧ ∃ s'', s'.unschedule job' = some s'' ∧
          rbtreeSize s.processTree = rbtreeSize s''.processTree + 1)) := by
  cases hentries : s.processTree.entries with
  | nil =>
    have hzero : rbtreeSize s.processTree = 0 := by
      rw [rbtreeSize, OrderedMap.size, hentries]
      rfl
    exact ⟨s, _, select_nil cfg job hentries, Or.inl ⟨rfl, hzero, hzero⟩⟩
  | cons e rest =>
    obtain ⟨key, ptr⟩ := e
    have hmem : ptr ∈ s.processTree.values := mem_values.mpr ⟨key, by
      rw [hentries]
      exact List.mem_cons_self⟩
    obtain ⟨task, htask⟩ := howns.owned.queuedLive ptr hmem
    obtain ⟨rt, hrt, -⟩ := slice_spec cfg (rbtreeRemove s.processTree key) key
    have hsel := select_cons cfg job hentries htask hrt
    refine ⟨_, _, hsel, Or.inr ?_⟩
    have hpid : task.pid ≠ 0 := by
      intro hz
      refine h0 (List.mem_filterMap.mpr ⟨ptr, hmem, ?_⟩)
      rw [htask, Option.map_some, hz]
    refine ⟨hpid, ?_⟩
    rcases select_spec howns hsel with ⟨hz, -⟩ | ⟨howns', -⟩
    · exact absurd hz hpid
    · refine ⟨_, unschedule_out howns' rfl, ?_⟩
      obtain ⟨hremove, -⟩ := entries_remove hentries
      simp only [rbtreeSize, OrderedMap.size, hremove, hentries, List.length_cons]

end Fair

/-! ## Any scheduler -/

namespace Scheduler

/-- The number of jobs that `select` hands out if each is unscheduled at once. -/
def supply (cfg : Config) : Scheduler → Nat
  | roundRobin s => fifoLength s.queue
  | staircase s => s.supply cfg
  | fair s => rbtreeSize s.processTree

/-- The address holds an entry or a task of the scheduler. -/
def InUse (ptr : ULong) : Scheduler → Prop
  | roundRobin _ => False
  | staircase s => (s.entries ptr).isSome
  | fair s => (s.tasks ptr).isSome

def Levelled : Scheduler → Prop
  | roundRobin _ => True
  | staircase s => s.Levelled
  | fair _ => True

/-- What a scheduler can rely on, with the jobs `out` out. -/
structure Keeps (out : List SchedulerJob) (s : Scheduler) : Prop where
  owns : s.Owns out
  levelled : s.Levelled
  nonzero : (0 : ULong) ∉ s.queuedPids

variable {cfg : Config} {s s' : Scheduler} {job job' g : SchedulerJob}
  {out out' : List SchedulerJob} {ptr pid : ULong} {prio : SchedulerPriority}

theorem allocate_keeps (cfg : Config) (n : Int) : (allocateSchedByNumber cfg n).Keeps [] where
  owns := allocate_owns cfg n
  levelled := by
    unfold allocateSchedByNumber
    split
    · trivial
    · split
      · exact Staircase.allocate_levelled
      · trivial
  nonzero := by
    rw [allocate_queuedPids]
    exact List.not_mem_nil

theorem Owns.sublist (h : s.Owns out) (hsub : out'.Sublist out) : s.Owns out' := by
  have hmap : (out'.map fun g => (g.data, g.pid)).Sublist (out.map fun g => (g.data, g.pid)) :=
    hsub.map _
  cases s with
  | roundRobin s => trivial
  | staircase s => exact { h with owned := h.owned.sublist hmap }
  | fair s => exact { h with owned := h.owned.sublist hmap }

/-- Jobs that are forgotten do no harm. -/
theorem Keeps.subperm (h : s.Keeps out) (hsub : out'.Subperm out) : s.Keeps out' := by
  obtain ⟨l, hp, hsub⟩ := hsub
  exact ⟨(h.owns.sublist hsub).perm hp, h.levelled, h.nonzero⟩

theorem Keeps.schedule (h : s.Keeps out) (h0 : pid ≠ 0)
    (hs : s.schedule cfg ptr pid prio = some s') : s'.Keeps out := by
  obtain ⟨howns, hperm⟩ := schedule_spec h.owns hs
  refine ⟨howns, ?_, fun hm => ?_⟩
  · cases s with
    | roundRobin s =>
      cases hs
      trivial
    | staircase s =>
      obtain ⟨t, ht, rfl⟩ := Option.map_eq_some_iff.mp hs
      exact Staircase.schedule_levelled h.owns h.levelled ht
    | fair s =>
      obtain ⟨t, -, rfl⟩ := Option.map_eq_some_iff.mp hs
      trivial
  · rcases List.mem_cons.mp (hperm.subset hm) with hz | hm
    · exact h0 hz.symm
    · exact h.nonzero hm

theorem Keeps.select (h : s.Keeps out) (hs : s.select cfg job = some (s', job')) :
    (job'.pid = 0 ∧ s'.Keeps out) ∨ (job'.pid ≠ 0 ∧ s'.Keeps (job' :: out)) := by
  have hlevelled : s'.Levelled := by
    cases s with
    | roundRobin s =>
      cases hs
      trivial
    | staircase s =>
      obtain ⟨⟨t, j⟩, ht, he⟩ := Option.map_eq_some_iff.mp hs
      cases he
      exact Staircase.select_levelled h.owns h.levelled ht
    | fair s =>
      obtain ⟨⟨t, j⟩, -, he⟩ := Option.map_eq_some_iff.mp hs
      cases he
      trivial
  rcases select_spec h.owns h.nonzero hs with ⟨hpid, howns, hperm⟩ | ⟨hpid, howns, hperm⟩
  · exact Or.inl ⟨hpid, howns, hlevelled, fun hm => h.nonzero (hperm.subset hm)⟩
  · refine Or.inr ⟨hpid, howns, hlevelled, fun hm => ?_⟩
    exact h.nonzero (hperm.symm.subset (List.mem_cons_of_mem _ hm))

theorem Keeps.reschedule (h : s.Keeps (g :: out)) (hpid : job.pid = g.pid)
    (hdata : job.data = g.data) (h0 : g.pid ≠ 0) (hs : s.reschedule cfg job = some s') :
    s'.Keeps out := by
  obtain ⟨howns, hperm⟩ := reschedule_spec h.owns hpid hdata h0 hs
  refine ⟨howns, ?_, fun hm => ?_⟩
  · cases s with
    | roundRobin s =>
      cases hs
      trivial
    | staircase s =>
      obtain ⟨t, ht, rfl⟩ := Option.map_eq_some_iff.mp hs
      exact Staircase.reschedule_levelled h.owns h.levelled hpid hdata h0 ht
    | fair s =>
      obtain ⟨t, -, rfl⟩ := Option.map_eq_some_iff.mp hs
      trivial
  · rcases List.mem_cons.mp (hperm.subset hm) with hz | hm
    · exact h0 hz.symm
    · exact h.nonzero hm

theorem Keeps.unschedule (h : s.Keeps (g :: out)) (hpid : job.pid = g.pid)
    (hdata : job.data = g.data) (h0 : g.pid ≠ 0) (hs : s.unschedule job = some s') :
    s'.Keeps out := by
  obtain ⟨howns, hpids⟩ := unschedule_spec h.owns hpid hdata h0 hs
  refine ⟨howns, ?_, hpids ▸ h.nonzero⟩
  cases s with
  | roundRobin s =>
    cases hs
    trivial
  | staircase s =>
    obtain ⟨t, ht, rfl⟩ := Option.map_eq_some_iff.mp hs
    exact Staircase.unschedule_levelled h.owns h.levelled hpid hdata h0 ht
  | fair s =>
    obtain ⟨t, -, rfl⟩ := Option.map_eq_some_iff.mp hs
    trivial

/-- A job without scheduler data comes back to a scheduler that does not know it. -/
theorem Keeps.reschedule_null (h : s.Keeps out) (hdata : job.data = 0) (h0 : job.pid ≠ 0)
    (hs : s.reschedule cfg job = some s') : s'.Keeps out := by
  obtain ⟨howns, hperm⟩ := Scheduler.reschedule_null h.owns hdata hs
  refine ⟨howns, ?_, fun hm => ?_⟩
  · cases s with
    | roundRobin s =>
      cases hs
      trivial
    | staircase s =>
      simp [Scheduler.reschedule, Staircase.reschedule, Staircase.entryOf_null hdata] at hs
    | fair s =>
      obtain ⟨t, -, rfl⟩ := Option.map_eq_some_iff.mp hs
      trivial
  · rcases hperm with hperm | hperm
    · exact h.nonzero (hperm.subset hm)
    · rcases List.mem_cons.mp (hperm.subset hm) with hz | hm
      · exact h0 hz.symm
      · exact h.nonzero hm

theorem Keeps.unschedule_null (h : s.Keeps out) (hdata : job.data = 0)
    (hs : s.unschedule job = some s') : s'.Keeps out := by
  obtain ⟨howns, hpids⟩ := Scheduler.unschedule_null h.owns hdata hs
  refine ⟨howns, ?_, hpids ▸ h.nonzero⟩
  cases s with
  | roundRobin s =>
    cases hs
    trivial
  | staircase s =>
    simp [Scheduler.unschedule, Staircase.unschedule, Staircase.entryOf_null hdata] at hs
  | fair s =>
    obtain ⟨t, -, rfl⟩ := Option.map_eq_some_iff.mp hs
    trivial

/-- `schedule` returns when `yalloc` gives it an address that is not in use. -/
theorem Keeps.schedule_total (h : s.Keeps out) (hptr0 : ptr ≠ 0) (hptr1 : ptr ≠ 1)
    (hptr : ¬ s.InUse ptr) (cfg : Config) (pid : ULong) (prio : SchedulerPriority) :
    ∃ s', s.schedule cfg ptr pid prio = some s' ∧ ∀ a, s'.InUse a → a = ptr ∨ s.InUse a := by
  cases s with
  | roundRobin s => exact ⟨_, rfl, fun a ha => ha.elim⟩
  | staircase s =>
    have hnone : ¬ (ptr = 0 ∨ ptr = 1 ∨ (s.entries ptr).isSome) := by
      rw [not_or, not_or]
      exact ⟨hptr0, hptr1, hptr⟩
    refine ⟨_, by rw [Scheduler.schedule, Staircase.schedule, if_neg hnone]; rfl, fun a ha => ?_⟩
    by_cases haptr : a = ptr
    · exact Or.inl haptr
    · refine Or.inr ?_
      change (Function.update s.entries ptr _ a).isSome at ha
      rwa [Function.update_of_ne haptr] at ha
  | fair s =>
    obtain ⟨key, -, hs⟩ := Fair.schedule_total h.owns hptr0 hptr1
      (Option.not_isSome_iff_eq_none.mp hptr) pid prio
    refine ⟨_, by rw [Scheduler.schedule, hs]; rfl, fun a ha => ?_⟩
    by_cases haptr : a = ptr
    · exact Or.inl haptr
    · refine Or.inr ?_
      change (Function.update s.tasks ptr _ a).isSome at ha
      rwa [Function.update_of_ne haptr] at ha

/-- Selecting a job and giving it away: nothing without a supply, otherwise one less. -/
theorem Keeps.select_supply (h : s.Keeps out) (cfg : Config) :
    ∃ s' job', s.select cfg .blank = some (s', job') ∧
      ((job'.pid = 0 ∧ s.supply cfg = 0 ∧ s'.supply cfg = 0) ∨
        (job'.pid ≠ 0 ∧
          ∃ s'', s'.unschedule job' = some s'' ∧ s.supply cfg = s''.supply cfg + 1)) := by
  cases s with
  | roundRobin s =>
    cases hq : s.queue with
    | nil =>
      have hzero : (roundRobin s).supply cfg = 0 := by rw [supply, hq]; rfl
      refine ⟨roundRobin s, { SchedulerJob.blank with pid := 0, runtime := 0 }, ?_,
        Or.inl ⟨rfl, hzero, hzero⟩⟩
      rw [Scheduler.select, RoundRobin.select_empty cfg s .blank hq]
      rfl
    | cons pid rest =>
      have hpid : pid ≠ 0 := by
        rintro rfl
        refine h.nonzero ?_
        show (0 : ULong) ∈ s.queue
        rw [hq]
        exact List.mem_cons_self
      refine ⟨roundRobin ⟨rest⟩, { SchedulerJob.blank with pid, runtime := cfg.timeslice }, ?_,
        Or.inr ⟨hpid, _, rfl, ?_⟩⟩
      · rw [Scheduler.select, RoundRobin.select_cons cfg s .blank hq]
        rfl
      · rw [supply, hq]
        rfl
  | staircase s =>
    obtain ⟨s', job', hsel, hcase⟩ := Staircase.select_supply cfg .blank
      h.owns h.levelled h.nonzero (by decide)
    refine ⟨staircase s', job', by rw [Scheduler.select, hsel]; rfl, ?_⟩
    rcases hcase with hidle | ⟨hpid, s'', hun, hsupply⟩
    · exact Or.inl hidle
    · exact Or.inr ⟨hpid, staircase s'', by rw [Scheduler.unschedule, hun]; rfl, hsupply⟩
  | fair s =>
    obtain ⟨s', job', hsel, hcase⟩ := Fair.select_supply cfg .blank h.owns h.nonzero
    refine ⟨fair s', job', by rw [Scheduler.select, hsel]; rfl, ?_⟩
    rcases hcase with hidle | ⟨hpid, s'', hun, hsupply⟩
    · exact Or.inl hidle
    · exact Or.inr ⟨hpid, fair s'', by rw [Scheduler.unschedule, hun]; rfl, hsupply⟩

end Scheduler

end Yarns
