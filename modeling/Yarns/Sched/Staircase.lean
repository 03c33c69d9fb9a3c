import Yarns.Base.Slots
import Yarns.Base.Handle
import Yarns.Data.Queue
import Yarns.Sched.Job

/-!
# The staircase scheduler

`sched/sched_staircase.c`: two blocks of `LAYERS` queues of job entries, each level with
a quota. Job entries live on the heap; `job->data` and the queues hold their addresses.
An operation is `none` where the code dereferences a null or freed entry, or where an
`assert` fails. The address `yalloc` returns is an argument of `schedule`: any address
that is neither null nor the swap flag `1` nor in use.
-/

namespace Yarns

open Base

def LAYERS : Nat := 20

structure JobEntry where
  timeslice : ULong
  lastTimeslice : ULong
  pid : ULong
  originalLevel : Nat
  lastLevel : Nat

structure StaircaseBlock where
  timeslices : Nat → ULong
  queues : Nat → Fifo

structure Staircase where
  active : StaircaseBlock
  exhausted : StaircaseBlock
  entries : ULong → Option JobEntry

namespace StaircaseBlock

def enqueue (b : StaircaseBlock) (level : Nat) (je : ULong) : StaircaseBlock :=
  { b with queues := Function.update b.queues level (fifoEnqueue (b.queues level) je) }

/-- `timeslices[level] -= amount`. -/
def charge (b : StaircaseBlock) (level : Nat) (amount : ULong) : StaircaseBlock :=
  { b with timeslices := Function.update b.timeslices level (b.timeslices level - amount) }

/-- The level at which the scan of `select` stops, if it is not `LAYERS`. -/
def firstLevel (b : StaircaseBlock) : Option Nat :=
  (List.range LAYERS).find? fun level =>
    b.timeslices level ≠ 0 && fifoLength (b.queues level) ≠ 0

/-- All entries queued in the block, level by level. -/
def queued (b : StaircaseBlock) : List ULong := (List.range LAYERS).flatMap b.queues

end StaircaseBlock

def min3 (x y z : ULong) : ULong := min x (min y z)

namespace Staircase

variable (cfg : Config) (s : Staircase) (job : SchedulerJob)

def allocate : Staircase :=
  let block : StaircaseBlock := ⟨fun _ => cfg.timeslices 5, fun _ => fifoNew⟩
  ⟨block, block, fun _ => none⟩

/-- The queue a new job starts in. -/
def startLevel (prio : SchedulerPriority) : Nat :=
  let p := prio.toNat
  let p := if p > 0 then p - 1 else p
  p * 2

def schedule (ptr pid : ULong) (prio : SchedulerPriority) : Option Staircase :=
  -- `yalloc` returns neither a null pointer nor a block in use
  if ptr = 0 ∨ ptr = 1 ∨ (s.entries ptr).isSome then none else
    let p := startLevel prio
    let je : JobEntry := ⟨cfg.timeslice, 0, pid, p, p⟩
    some { s with
      active := s.active.enqueue p ptr
      entries := Function.update s.entries ptr (some je) }

/-- The entry of a returned job: `assert(je)`, then the dereference. -/
def entryOf : Option JobEntry :=
  let je := if job.pid ≠ 0 then job.data else 0
  if je = 0 then none else s.entries je

def reschedule : Option Staircase := do
  let je ← s.entryOf job
  let used := je.lastTimeslice - job.runtime
  let active := s.active.charge je.lastLevel used
  let je := { je with timeslice := je.timeslice - used }
  if je.timeslice = 0 then
    let je := { je with lastLevel := je.originalLevel, timeslice := cfg.timeslice }
    some { s with
      active
      exhausted := s.exhausted.enqueue je.originalLevel job.data
      entries := Function.update s.entries job.data (some je) }
  else
    let nextLevel := if je.lastLevel ≠ LAYERS - 1 then je.lastLevel + 1 else je.lastLevel
    let je := { je with lastLevel := nextLevel }
    some { s with
      active
      exhausted := s.exhausted.enqueue nextLevel job.data
      entries := Function.update s.entries job.data (some je) }

def unschedule : Option Staircase := do
  let je ← s.entryOf job
  some { s with
    active := s.active.charge je.lastLevel je.lastTimeslice
    entries := Function.update s.entries job.data none }

/-- The branch of `select` that takes the oldest entry of a level. -/
def dispatch (level : Nat) : Option (Staircase × SchedulerJob) :=
  let (je, queue) := fifoDequeue (s.active.queues level)
  if je = 0 then none else do
    let entry ← s.entries je
    let slice := min3 entry.timeslice (s.active.timeslices level) cfg.timeslice
    some ({ s with
      active := { s.active with queues := Function.update s.active.queues level queue }
      entries := Function.update s.entries je (some { entry with lastTimeslice := slice }) },
      { job with pid := entry.pid, runtime := slice, data := je })

def swap : Staircase := { s with active := s.exhausted, exhausted := s.active }

/-- `scheduler_staircase_select` with a bound on the depth of its recursion; the flag
`data = 1` tells the inner call that the blocks have been swapped. -/
def selectDepth (s : Staircase) (job : SchedulerJob) : Nat → Option (Staircase × SchedulerJob)
  | 0 => none
  | depth + 1 =>
    match s.active.firstLevel with
    | some level => s.dispatch cfg job level
    | none =>
      if job.data = 1 then
        some (s, { job with pid := 0, runtime := 0, data := 0 })
      else
        selectDepth s.swap { job with data := 1 } depth

def select : Option (Staircase × SchedulerJob) := selectDepth cfg s job 2

/-! ## Where the entries are -/

/-- The addresses queued in the two blocks. -/
def queuedPtrs : List ULong := s.active.queued ++ s.exhausted.queued

def queuedPids : List ULong := owners s.entries JobEntry.pid s.queuedPtrs

/-- Every entry is queued in one place or out with one job; `out` lists the jobs that
were selected and not returned yet. -/
structure Owns (s : Staircase) (out : List SchedulerJob) : Prop where
  owned : Owned s.entries JobEntry.pid s.queuedPtrs (out.map fun g => (g.data, g.pid))
  null : s.entries 0 = none
  flag : s.entries 1 = none
  levels : ∀ a e, s.entries a = some e → e.lastLevel < LAYERS ∧ e.originalLevel < LAYERS

end Staircase

theorem StaircaseBlock.queued_enqueue (b : StaircaseBlock) {level : Nat} (h : level < LAYERS)
    (je : ULong) : (b.enqueue level je).queued.Perm (je :: b.queued) :=
  flatMap_push List.nodup_range (List.mem_range.mpr h) b.queues je

theorem StaircaseBlock.queued_dequeue (b : StaircaseBlock) {level : Nat} (h : level < LAYERS)
    {je : ULong} {rest : Fifo} (hq : b.queues level = je :: rest) :
    b.queued.Perm (je :: (List.range LAYERS).flatMap (Function.update b.queues level rest)) :=
  flatMap_pop List.nodup_range (List.mem_range.mpr h) b.queues hq

theorem StaircaseBlock.firstLevel_spec {b : StaircaseBlock} {level : Nat}
    (h : b.firstLevel = some level) :
    level < LAYERS ∧ b.timeslices level ≠ 0 ∧ ∃ je rest, b.queues level = je :: rest := by
  have hm := List.mem_of_find?_eq_some h
  have hp := List.find?_some h
  simp only [ne_eq, fifoLength, Bool.and_eq_true, decide_eq_true_eq, List.length_eq_zero_iff]
    at hp
  obtain ⟨hslice, hqueue⟩ := hp
  refine ⟨List.mem_range.mp hm, hslice, ?_⟩
  cases hq : b.queues level with
  | nil => exact absurd hq hqueue
  | cons je rest => exact ⟨je, rest, rfl⟩

theorem StaircaseBlock.firstLevel_eq_none {b : StaircaseBlock} :
    b.firstLevel = none ↔ ∀ level < LAYERS, b.timeslices level = 0 ∨ b.queues level = [] := by
  simp only [firstLevel, List.find?_eq_none, List.mem_range, fifoLength, ne_eq,
    Bool.and_eq_true, decide_eq_true_eq, not_and, Decidable.not_not, List.length_eq_zero_iff]
  constructor
  · intro h level hl
    by_cases h0 : b.timeslices level = 0
    · exact Or.inl h0
    · exact Or.inr (h level hl h0)
  · intro h level hl h0
    exact (h level hl).resolve_left h0

namespace Staircase

variable {cfg : Config} {s s' : Staircase} {job job' g : SchedulerJob}
  {out : List SchedulerJob} {ptr pid : ULong} {prio : SchedulerPriority}

theorem startLevel_lt (prio : SchedulerPriority) : startLevel prio < LAYERS := by
  cases prio <;> decide

theorem allocate_owns : (allocate cfg).Owns [] where
  owned := by
    have h : (allocate cfg).queuedPtrs = [] := by
      simp [queuedPtrs, StaircaseBlock.queued, allocate, fifoNew]
    rw [h]
    exact ⟨List.nodup_nil, by simp, by simp⟩
  null := rfl
  flag := rfl
  levels := by
    intro a e h
    cases h

theorem Owns.perm {out' : List SchedulerJob} (h : s.Owns out) (hp : out.Perm out') :
    s.Owns out' :=
  { h with owned := h.owned.perm (List.Perm.refl _) (hp.map _) }

/-- Both blocks only exchange their names. -/
theorem swap_queuedPtrs : s.swap.queuedPtrs.Perm s.queuedPtrs := List.perm_append_comm

theorem Owns.swap (h : s.Owns out) : s.swap.Owns out :=
  { h with owned := h.owned.perm swap_queuedPtrs.symm (List.Perm.refl _) }

theorem swap_queuedPids : s.swap.queuedPids.Perm s.queuedPids := owners_perm swap_queuedPtrs

theorem schedule_spec (h : s.Owns out) (hs : s.schedule cfg ptr pid prio = some s') :
    s'.Owns out ∧ s'.queuedPids.Perm (pid :: s.queuedPids) := by
  unfold schedule at hs
  split at hs
  · cases hs
  · rename_i hfresh
    simp only [not_or, Option.not_isSome_iff_eq_none] at hfresh
    obtain ⟨h0, h1, hptr⟩ := hfresh
    cases hs
    obtain ⟨howned, howners⟩ := h.owned.alloc hptr
      ⟨cfg.timeslice, 0, pid, startLevel prio, startLevel prio⟩
    have hq : (ptr :: s.queuedPtrs).Perm
        ((s.active.enqueue (startLevel prio) ptr).queued ++ s.exhausted.queued) :=
      ((s.active.queued_enqueue (startLevel_lt prio) ptr).append_right _).symm
    refine ⟨⟨howned.perm hq (List.Perm.refl _), ?_, ?_, ?_⟩, ?_⟩
    · exact update_eq_none h.null fun he => absurd he.symm h0
    · exact update_eq_none h.flag fun he => absurd he.symm h1
    · exact update_forall h.levels fun e he => by
        cases he
        exact ⟨startLevel_lt prio, startLevel_lt prio⟩
    · exact (owners_perm hq.symm).trans (List.Perm.of_eq howners)

/-- The entry behind a job that is out. -/
theorem entryOf_out (h : s.Owns (g :: out)) (hpid : job.pid = g.pid) (hdata : job.data = g.data)
    (h0 : g.pid ≠ 0) : ∃ je, s.entryOf job = some je ∧ s.entries g.data = some je ∧
      je.pid = g.pid := by
  obtain ⟨je, hje, howner⟩ := h.owned.outLive (g.data, g.pid) (List.mem_map.mpr
    ⟨g, List.mem_cons_self, rfl⟩)
  have hne : g.data ≠ 0 := by
    intro hz
    rw [hz, h.null] at hje
    cases hje
  refine ⟨je, ?_, hje, howner⟩
  simp only [entryOf, hpid, hdata]
  rw [if_pos h0, if_neg hne]
  exact hje

theorem entryOf_live {je : JobEntry} (h : s.entryOf job = some je) :
    ∃ a, s.entries a = some je := by
  simp only [entryOf] at h
  by_cases h0 : (if job.pid ≠ 0 then job.data else 0) = 0
  · rw [if_pos h0] at h
    cases h
  · rw [if_neg h0] at h
    exact ⟨_, h⟩

/-- A job without an entry trips the `assert`. -/
theorem entryOf_null (hdata : job.data = 0) : s.entryOf job = none := by
  simp [entryOf, hdata]

/-- Putting a returned entry into a queue of the exhausted block. -/
theorem requeue_owns (h : s.Owns (g :: out)) (je : JobEntry) (hpid : je.pid = g.pid)
    {level : Nat} (hl : level < LAYERS) (hlast : je.lastLevel < LAYERS)
    (horig : je.originalLevel < LAYERS) (active : StaircaseBlock)
    (hactive : active.queued = s.active.queued)
    (hs : s' = ⟨active, s.exhausted.enqueue level g.data,
      Function.update s.entries g.data (some je)⟩) :
    s'.Owns out ∧ s'.queuedPids.Perm (g.pid :: s.queuedPids) := by
  subst hs
  obtain ⟨howned, howners⟩ := h.owned.giveBack je hpid
  have hq : (g.data :: s.queuedPtrs).Perm
      (active.queued ++ (s.exhausted.enqueue level g.data).queued) := by
    rw [hactive]
    exact (List.perm_middle.symm.trans
      ((s.exhausted.queued_enqueue hl g.data).append_left s.active.queued).symm)
  have hne : ∀ b, s.entries b = none → b ≠ g.data := by
    rintro b hb rfl
    obtain ⟨je', hje', _⟩ := h.owned.outLive (g.data, g.pid)
      (List.mem_map.mpr ⟨g, List.mem_cons_self, rfl⟩)
    rw [hb] at hje'
    cases hje'
  refine ⟨⟨howned.perm hq (List.Perm.refl _), ?_, ?_, ?_⟩, ?_⟩
  · exact update_eq_none h.null fun he => absurd he (hne 0 h.null)
  · exact update_eq_none h.flag fun he => absurd he (hne 1 h.flag)
  · exact update_forall h.levels fun e he => by
      cases he
      exact ⟨hlast, horig⟩
  · exact (owners_perm hq.symm).trans (List.Perm.of_eq howners)

theorem reschedule_spec (h : s.Owns (g :: out)) (hpid : job.pid = g.pid)
    (hdata : job.data = g.data) (h0 : g.pid ≠ 0) (hs : s.reschedule cfg job = some s') :
    s'.Owns out ∧ s'.queuedPids.Perm (g.pid :: s.queuedPids) := by
  obtain ⟨je, hje, hentry, howner⟩ := entryOf_out h hpid hdata h0
  obtain ⟨hlast, horig⟩ := h.levels _ _ hentry
  simp only [reschedule, hje, Option.bind_eq_bind, Option.bind_some, hdata] at hs
  let charged := s.active.charge je.lastLevel (je.lastTimeslice - job.runtime)
  split at hs
  · cases hs
    exact requeue_owns h { je with timeslice := cfg.timeslice, lastLevel := je.originalLevel }
      howner horig horig horig charged rfl rfl
  · cases hs
    let nextLevel := if je.lastLevel ≠ LAYERS - 1 then je.lastLevel + 1 else je.lastLevel
    have hnext : nextLevel < LAYERS := by
      unfold nextLevel LAYERS at *
      split <;> omega
    exact requeue_owns h
      { je with
        timeslice := je.timeslice - (je.lastTimeslice - job.runtime)
        lastLevel := nextLevel }
      howner hnext hnext horig charged rfl rfl

theorem unschedule_spec (h : s.Owns (g :: out)) (hpid : job.pid = g.pid)
    (hdata : job.data = g.data) (h0 : g.pid ≠ 0) (hs : s.unschedule job = some s') :
    s'.Owns out ∧ s'.queuedPids = s.queuedPids := by
  obtain ⟨je, hje, -, -⟩ := entryOf_out h hpid hdata h0
  simp only [unschedule, hje, Option.bind_eq_bind, Option.bind_some, hdata] at hs
  cases hs
  obtain ⟨howned, howners⟩ := h.owned.drop
  exact ⟨⟨howned, update_eq_none h.null fun _ => rfl, update_eq_none h.flag fun _ => rfl,
    update_forall h.levels fun e he => by cases he⟩, howners⟩

/-- The recursion of `select` unfolded: at most one swap, however deep it may go. -/
theorem selectDepth_eq (depth : Nat) : selectDepth cfg s job (depth + 2) =
    match s.active.firstLevel with
    | some level => s.dispatch cfg job level
    | none =>
      if job.data = 1 then
        some (s, { job with pid := 0, runtime := 0, data := 0 })
      else
        match s.exhausted.firstLevel with
        | some level => s.swap.dispatch cfg job level
        | none => some (s.swap, { job with pid := 0, runtime := 0, data := 0 }) := by
  simp only [selectDepth]
  cases s.active.firstLevel with
  | some level => rfl
  | none =>
    simp only
    split
    · rfl
    · cases h : s.exhausted.firstLevel with
      | some level =>
        have h' : s.swap.active.firstLevel = some level := h
        simp only [h', dispatch]
      | none =>
        have h' : s.swap.active.firstLevel = none := h
        simp only [h', if_true]

theorem select_eq : s.select cfg job =
    match s.active.firstLevel with
    | some level => s.dispatch cfg job level
    | none =>
      if job.data = 1 then
        some (s, { job with pid := 0, runtime := 0, data := 0 })
      else
        match s.exhausted.firstLevel with
        | some level => s.swap.dispatch cfg job level
        | none => some (s.swap, { job with pid := 0, runtime := 0, data := 0 }) :=
  selectDepth_eq 0

/-- `dispatch` takes the entry at the front of the level and remembers its slice. -/
inductive Dispatched (cfg : Config) (s : Staircase) (job : SchedulerJob) (level : Nat) :
    Staircase → SchedulerJob → Prop
  | intro {ptr rest entry} : s.active.queues level = ptr :: rest →
    s.entries ptr = some entry →
    Dispatched cfg s job level { s with
      active := { s.active with queues := Function.update s.active.queues level rest }
      entries := Function.update s.entries ptr (some { entry with
        lastTimeslice := min3 entry.timeslice (s.active.timeslices level) cfg.timeslice }) }
      { job with
        pid := entry.pid
        runtime := min3 entry.timeslice (s.active.timeslices level) cfg.timeslice
        data := ptr }

theorem dispatch_cases {level : Nat} (hs : s.dispatch cfg job level = some (s', job')) :
    Dispatched cfg s job level s' job' := by
  cases hq : s.active.queues level with
  | nil =>
    simp only [dispatch, hq, fifoDequeue] at hs
    cases hs
  | cons ptr rest =>
    simp only [dispatch, hq, fifoDequeue] at hs
    split at hs
    · cases hs
    · obtain ⟨entry, hentry, hs⟩ := Option.bind_eq_some_iff.mp hs
      cases hs
      exact .intro hq hentry

theorem dispatch_state {level : Nat} {ptr : ULong} {rest : Fifo} {entry : JobEntry}
    (hs : s.dispatch cfg job level = some (s', job')) (hq : s.active.queues level = ptr :: rest)
    (hentry : s.entries ptr = some entry) :
    s' = ⟨{ s.active with queues := Function.update s.active.queues level rest },
      s.exhausted, Function.update s.entries ptr (some { entry with
        lastTimeslice := min3 entry.timeslice (s.active.timeslices level) cfg.timeslice })⟩ := by
  cases dispatch_cases hs with
  | intro hq' hentry' =>
    rw [hq] at hq'
    cases hq'
    rw [hentry] at hentry'
    cases hentry'
    rfl

/-- The ways through `select`. -/
inductive Selected (cfg : Config) (s : Staircase) (job : SchedulerJob) :
    Staircase → SchedulerJob → Prop
  | active {level s' job'} : s.active.firstLevel = some level →
    s.dispatch cfg job level = some (s', job') → Selected cfg s job s' job'
  | exhausted {level s' job'} : s.active.firstLevel = none → job.data ≠ 1 →
    s.exhausted.firstLevel = some level → s.swap.dispatch cfg job level = some (s', job') →
    Selected cfg s job s' job'
  | flagged : s.active.firstLevel = none → job.data = 1 →
    Selected cfg s job s { job with pid := 0, runtime := 0, data := 0 }
  | empty : s.active.firstLevel = none → job.data ≠ 1 → s.exhausted.firstLevel = none →
    Selected cfg s job s.swap { job with pid := 0, runtime := 0, data := 0 }

theorem select_cases (hs : s.select cfg job = some (s', job')) : Selected cfg s job s' job' := by
  rw [select_eq] at hs
  split at hs
  · exact .active ‹_› hs
  · split at hs
    · cases hs
      exact .flagged ‹_› ‹_›
    · split at hs
      · exact .exhausted ‹_› ‹_› ‹_› hs
      · cases hs
        exact .empty ‹_› ‹_› ‹_›

theorem dispatch_spec (cfg : Config) (job : SchedulerJob) (h : s.Owns out) {level : Nat}
    (hl : level < LAYERS) {je : ULong} {rest : Fifo} (hq : s.active.queues level = je :: rest) :
    ∃ entry s', s.entries je = some entry ∧ je ∈ s.queuedPtrs ∧
      s.dispatch cfg job level = some (s', { job with
        pid := entry.pid
        runtime := min3 entry.timeslice (s.active.timeslices level) cfg.timeslice
        data := je }) ∧
      s'.Owns ({ job with
        pid := entry.pid
        runtime := min3 entry.timeslice (s.active.timeslices level) cfg.timeslice
        data := je } :: out) ∧
      s.queuedPids.Perm (entry.pid :: s'.queuedPids) := by
  have hp := s.active.queued_dequeue hl hq
  have hperm : s.queuedPtrs.Perm (je ::
      ((List.range LAYERS).flatMap (Function.update s.active.queues level rest) ++
        s.exhausted.queued)) := hp.append_right _
  have hmem : je ∈ s.queuedPtrs := hperm.symm.subset List.mem_cons_self
  obtain ⟨entry, hentry⟩ := h.owned.queuedLive je hmem
  have hne : je ≠ 0 := by
    rintro rfl
    rw [h.null] at hentry
    cases hentry
  have hne1 : je ≠ 1 := by
    rintro rfl
    rw [h.flag] at hentry
    cases hentry
  let slice := min3 entry.timeslice (s.active.timeslices level) cfg.timeslice
  obtain ⟨howned, howners⟩ := (h.owned.perm hperm (List.Perm.refl _)).take hentry
    { entry with lastTimeslice := slice } rfl
  refine ⟨entry, ⟨{ s.active with queues := Function.update s.active.queues level rest },
    s.exhausted, Function.update s.entries je (some { entry with lastTimeslice := slice })⟩,
    hentry, hmem, ?_, ⟨howned, ?_, ?_, ?_⟩, ?_⟩
  · simp only [dispatch, hq, fifoDequeue]
    rw [if_neg hne, hentry]
    rfl
  · exact update_eq_none h.null fun he => absurd he.symm hne
  · exact update_eq_none h.flag fun he => absurd he.symm hne1
  · exact update_forall h.levels fun e he => by
      cases he
      have hlevels := h.levels je entry hentry
      exact hlevels
  · refine (owners_perm hperm).trans ?_
    rw [owners_cons hentry]
    exact (List.Perm.of_eq howners.symm).cons _

/-- What `select` can return: no job, perhaps after a swap, or the oldest entry of a
level of one of the two blocks. -/
theorem select_spec (h : s.Owns out) (hs : s.select cfg job = some (s', job')) :
    (job'.pid = 0 ∧ s'.Owns out ∧ s'.queuedPids.Perm s.queuedPids) ∨
      (s'.Owns (job' :: out) ∧ s.queuedPids.Perm (job'.pid :: s'.queuedPids)) := by
  cases select_cases hs with
  | active hlevel hd =>
    obtain ⟨hl, -, je, rest, hq⟩ := StaircaseBlock.firstLevel_spec hlevel
    obtain ⟨entry, t, -, -, hd', howns, hperm⟩ := dispatch_spec cfg job h hl hq
    rw [hd'] at hd
    cases hd
    exact Or.inr ⟨howns, hperm⟩
  | exhausted _ _ hlevel hd =>
    obtain ⟨hl, -, je, rest, hq⟩ := StaircaseBlock.firstLevel_spec hlevel
    obtain ⟨entry, t, -, -, hd', howns, hperm⟩ := dispatch_spec cfg job h.swap hl hq
    rw [hd'] at hd
    cases hd
    exact Or.inr ⟨howns, swap_queuedPids.symm.trans hperm⟩
  | flagged => exact Or.inl ⟨rfl, h, List.Perm.refl _⟩
  | empty => exact Or.inl ⟨rfl, h.swap, swap_queuedPids⟩

end Staircase

end Yarns
