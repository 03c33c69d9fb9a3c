import Yarns.Base.Run
import Yarns.Sched.Fair

/-!
# The books of the fair scheduler over whole runs

Runs under a client that has any number of jobs out, returns each once and with at most
the granted slice left. The value of the `float` expression in `reschedule` is part of
the call: any word. `Timed` is the invariant behind the contract: the key of a task in
the timeline is its `timebase`, and a task that is out remembers its slice. Which jobs there
are is read off the calls (`scheduled`), and each of them is in the timeline or out
(`timeline_contract`).

The loop that avoids collisions ends because the keys of a timeline are the keys of
distinct blocks of memory: there are fewer than words, so one probe more than there are
keys finds a free one.
-/

namespace Yarns

open Base

namespace Fair

/-- The scheduler together with the jobs its client holds. -/
structure Client where
  sched : Fair
  out : List SchedulerJob

inductive Op where
  | schedule (ptr pid : ULong) (prio : SchedulerPriority)
  | select (job : SchedulerJob)
  | reschedule (advance : ULong) (granted job : SchedulerJob)
  | unschedule (granted job : SchedulerJob)

variable (cfg : Config)

/-- The build whose `float` expression has the value `advance`. -/
def withAdvance (advance : ULong) : Config := { cfg with fairAdvance := fun _ _ _ => advance }

def Client.start : Client := ⟨allocate, []⟩

/-- One call. Pid 0 stands for no job and is never scheduled. -/
def Client.step (st : Client) : Op → Option Client
  | .schedule ptr pid prio =>
    if pid = 0 then none else do
      let sched ← st.sched.schedule ptr pid prio
      some { st with sched }
  | .select job => do
    let (sched, job') ← st.sched.select cfg job
    some ⟨sched, if job'.pid = 0 then st.out else job' :: st.out⟩
  | .reschedule advance granted job =>
    if granted ∈ st.out ∧ job.Returns granted then do
      let sched ← st.sched.reschedule (withAdvance cfg advance) job
      some ⟨sched, st.out.erase granted⟩
    else none
  | .unschedule granted job =>
    if granted ∈ st.out ∧ job.Returns granted then do
      let sched ← st.sched.unschedule job
      some ⟨sched, st.out.erase granted⟩
    else none

/-- The jobs that are scheduled and not unscheduled after a call, by address and pid. -/
def Op.jobsAfter (jobs : List (ULong × ULong)) : Op → List (ULong × ULong)
  | .schedule ptr pid _ => (ptr, pid) :: jobs
  | .unschedule granted _ => jobs.erase (granted.data, granted.pid)
  | _ => jobs

/-- The jobs that the calls of a run have scheduled and not unscheduled. -/
def scheduled (ops : List Op) : List (ULong × ULong) := ops.foldl Op.jobsAfter []

/-- A call with all that its guards say. -/
inductive Calls (st : Client) : Op → Client → Prop
  | schedule {ptr pid prio s'} : pid ≠ 0 → st.sched.schedule ptr pid prio = some s' →
    Calls st (.schedule ptr pid prio) ⟨s', st.out⟩
  | select {job job' s'} : st.sched.select cfg job = some (s', job') →
    Calls st (.select job) ⟨s', if job'.pid = 0 then st.out else job' :: st.out⟩
  | reschedule {advance granted job s'} : granted ∈ st.out → job.Returns granted →
    st.sched.reschedule (withAdvance cfg advance) job = some s' →
    Calls st (.reschedule advance granted job) ⟨s', st.out.erase granted⟩
  | unschedule {granted job s'} : granted ∈ st.out → job.Returns granted →
    st.sched.unschedule job = some s' →
    Calls st (.unschedule granted job) ⟨s', st.out.erase granted⟩

/-! ## The search for a free key -/

variable {cfg} {s s' : Fair} {st st' : Client} {job job' g : SchedulerJob}
  {out out' : List SchedulerJob} {op : Op} {a ptr pid key timebase : ULong}
  {prio : SchedulerPriority} {tree : Rbtree} {task : SchedulerTask}

theorem probe_succ (timebase : ULong) (i : Nat) :
    timebase + 1 + BitVec.ofNat 64 i = timebase + BitVec.ofNat 64 (i + 1) := by
  rw [Nat.add_comm i 1, BitVec.ofNat_add, ← BitVec.add_assoc]
  rfl

theorem isSome_search : (rbtreeSearch tree key).isSome ↔ key ∈ tree.keys := by
  rw [rbtreeSearch, Option.isSome_iff_ne_none, ne_eq, OrderedMap.find?_eq_none, not_not]

/-- A search that finds nothing has probed only keys of the tree. -/
theorem freeKey_eq_none {fuel : Nat} (h : freeKey tree fuel timebase = none) :
    ∀ i < fuel, timebase + BitVec.ofNat 64 i ∈ tree.keys := by
  induction fuel generalizing timebase with
  | zero => exact fun i hi => absurd hi (Nat.not_lt_zero i)
  | succ fuel ih =>
    rw [freeKey] at h
    split at h
    · rename_i hused
      intro i hi
      cases i with
      | zero =>
        rw [BitVec.add_zero]
        exact isSome_search.mp hused
      | succ i =>
        rw [← probe_succ]
        exact ih h i (Nat.succ_lt_succ_iff.mp hi)
    · cases h

/-- The probes before the key that is found are keys of the tree. -/
theorem freeKey_probes {fuel : Nat} (h : freeKey tree fuel timebase = some key) :
    ∃ n < fuel, key = timebase + BitVec.ofNat 64 n ∧
      ∀ m < n, timebase + BitVec.ofNat 64 m ∈ tree.keys := by
  induction fuel generalizing timebase with
  | zero => cases h
  | succ fuel ih =>
    rw [freeKey] at h
    split at h
    · rename_i hused
      obtain ⟨n, hn, hkey, hprobes⟩ := ih h
      refine ⟨n + 1, Nat.succ_lt_succ hn, ?_, fun m hm => ?_⟩
      · rw [hkey, probe_succ]
      · cases m with
        | zero =>
          rw [BitVec.add_zero]
          exact isSome_search.mp hused
        | succ m =>
          rw [← probe_succ]
          exact hprobes m (Nat.succ_lt_succ_iff.mp hm)
    · cases h
      exact ⟨0, Nat.zero_lt_succ fuel, (BitVec.add_zero _).symm, fun m hm => by omega⟩

/-- The search starts at the timebase, the granularity twice, and the offset. -/
theorem probe_start (n : Nat) (offset : ULong) :
    BitVec.ofNat 64 n + SCHED_FAIR_MIN_GRANULARITY + (offset + SCHED_FAIR_MIN_GRANULARITY) =
      BitVec.ofNat 64 (n + 2 * SCHED_FAIR_MIN_GRANULARITY.toNat + offset.toNat) := by
  have hgranularity : SCHED_FAIR_MIN_GRANULARITY.toNat = 50 := rfl
  apply BitVec.eq_of_toNat_eq
  simp only [BitVec.toNat_add, BitVec.toNat_ofNat, hgranularity]
  omega

/-- Where a key is free further on, the search does not wrap around. -/
theorem le_freeKey {fuel start : Nat} {free : ULong} (hfree : free ∉ tree.keys)
    (hstart : start ≤ free.toNat) (h : freeKey tree fuel (BitVec.ofNat 64 start) = some key) :
    start ≤ key.toNat := by
  obtain ⟨n, -, hkey, hprobes⟩ := freeKey_probes h
  obtain ⟨m, hm⟩ := Nat.exists_eq_add_of_le hstart
  have hle : n ≤ m := by
    by_contra hlt
    refine hfree ?_
    have hprobe := hprobes m (by omega)
    rwa [← BitVec.ofNat_add, ← hm, BitVec.ofNat_toNat, BitVec.setWidth_eq] at hprobe
  have hlt := free.isLt
  rw [hkey, ← BitVec.ofNat_add, BitVec.toNat_ofNat, Nat.mod_eq_of_lt (by omega)]
  exact Nat.le_add_right start n

/-- Probes of a tree with fewer than `2 ^ 64` keys are distinct, so one of them is free. -/
theorem freeKey_total (hsize : rbtreeSize tree < 2 ^ 64) (timebase : ULong) :
    ∃ key, freeKey tree (rbtreeSize tree + 1) timebase = some key := by
  rw [← Option.isSome_iff_exists, Option.isSome_iff_ne_none]
  intro h
  have hprobes := freeKey_eq_none h
  have hnd : ((List.range (rbtreeSize tree + 1)).map fun i =>
      timebase + BitVec.ofNat 64 i).Nodup := by
    refine List.Nodup.map_on (fun i hi j hj heq => ?_) List.nodup_range
    rw [List.mem_range] at hi hj
    have heq := congrArg BitVec.toNat (BitVec.add_right_inj timebase |>.mp heq)
    simp only [BitVec.toNat_ofNat] at heq
    rwa [Nat.mod_eq_of_lt (by omega), Nat.mod_eq_of_lt (by omega)] at heq
  have hsub : ((List.range (rbtreeSize tree + 1)).map fun i =>
      timebase + BitVec.ofNat 64 i) ⊆ tree.keys := by
    intro k hk
    obtain ⟨i, hi, rfl⟩ := List.mem_map.mp hk
    exact hprobes i (List.mem_range.mp hi)
  have hle := (hnd.subperm hsub).length_le
  rw [List.length_map, List.length_range, OrderedMap.keys, List.length_map] at hle
  exact absurd hle (Nat.not_succ_le_self _)

/-- The timeline of a scheduler has room: its values are distinct and not null. -/
theorem Owns.size_lt (h : s.Owns out) : rbtreeSize s.processTree < 2 ^ 64 := by
  have hnd : s.processTree.values.Nodup := (List.nodup_append'.mp h.owned.nodup).1
  have h0 : (0 : ULong) ∉ s.processTree.values := by
    intro hm
    obtain ⟨r, hr⟩ := h.owned.queuedLive 0 hm
    rw [h.null] at hr
    cases hr
  have hlt := length_lt_of_nodup hnd h0
  rwa [OrderedMap.values, List.length_map] at hlt

/-- `timeline_insert` returns, with the task under a key that was free. -/
theorem timelineInsert_total (hsize : rbtreeSize s.processTree < 2 ^ 64) (task : SchedulerTask)
    (ptr timebase : ULong) :
    ∃ key, key ∉ s.processTree.keys ∧ s.timelineInsert task ptr timebase = some {
      processTree := rbtreeInsert s.processTree key ptr
      timebaseOffset := s.timebaseOffset + SCHED_FAIR_MIN_GRANULARITY
      tasks := Function.update s.tasks ptr (some { task with timebase := key }) } := by
  obtain ⟨key, hkey⟩ := freeKey_total hsize (timebase + SCHED_FAIR_MIN_GRANULARITY +
    (s.timebaseOffset + SCHED_FAIR_MIN_GRANULARITY))
  refine ⟨key, freeKey_spec hkey, ?_⟩
  simp only [timelineInsert, hkey, Option.bind_eq_bind, Option.bind_some]

/-! ## The invariant -/

structure Timed (s : Fair) (out : List SchedulerJob) : Prop where
  covered : ∀ a t, s.tasks a = some t →
    a ∈ s.processTree.values ∨ a ∈ out.map SchedulerJob.data
  keyed : ∀ k a, (k, a) ∈ s.processTree.entries → ∀ t, s.tasks a = some t → t.timebase = k
  granted : ∀ g ∈ out, ∀ t, s.tasks g.data = some t → t.runtime = g.runtime
  pids : ∀ a t, s.tasks a = some t → t.pid ≠ 0

theorem mem_values : a ∈ tree.values ↔ ∃ k, (k, a) ∈ tree.entries := by
  simp only [OrderedMap.values, List.mem_map, Prod.exists, exists_eq_right]

theorem Timed.perm (h : s.Timed out) (hp : out.Perm out') : s.Timed out' where
  covered := fun a t ht => (h.covered a t ht).imp_right fun hm => (hp.map _).subset hm
  keyed := h.keyed
  granted := fun g hg => h.granted g (hp.symm.subset hg)
  pids := h.pids

/-- A task that is not in the timeline is written, and enters it under its timebase, or
freed. -/
theorem Timed.write (h : s.Timed out) (hptr : ptr ∉ s.processTree.values)
    {x : Option SchedulerTask} (hpid : ∀ t, x = some t → t.pid ≠ 0)
    (htasks : s'.tasks = Function.update s.tasks ptr x)
    (hentries : ∀ k b, (k, b) ∈ s'.processTree.entries ↔
      (k, b) ∈ s.processTree.entries ∨ ∃ t, x = some t ∧ k = t.timebase ∧ b = ptr)
    (hout : ∀ g ∈ out, g.data ≠ ptr → g ∈ out') (hsub : ∀ g ∈ out', g ∈ out ∧ g.data ≠ ptr) :
    s'.Timed out' where
  covered := by
    intro a t ht
    by_cases ha : a = ptr
    · rw [htasks, ha, Function.update_self] at ht
      exact Or.inl (mem_values.mpr ⟨t.timebase, (hentries _ _).mpr (Or.inr ⟨t, ht, rfl, ha⟩)⟩)
    · rw [htasks, Function.update_of_ne ha] at ht
      rcases h.covered a t ht with hm | hm
      · obtain ⟨k, hk⟩ := mem_values.mp hm
        exact Or.inl (mem_values.mpr ⟨k, (hentries k a).mpr (Or.inl hk)⟩)
      · obtain ⟨g, hg, rfl⟩ := List.mem_map.mp hm
        exact Or.inr (List.mem_map_of_mem (hout g hg ha))
  keyed := by
    intro k a hk
    rw [htasks]
    rcases (hentries k a).mp hk with hk | ⟨t, rfl, rfl, rfl⟩
    · have ha : a ≠ ptr := by
        rintro rfl
        exact hptr (mem_values.mpr ⟨k, hk⟩)
      rw [Function.update_of_ne ha]
      exact h.keyed k a hk
    · rw [Function.update_self]
      intro r hr
      rw [← Option.some.inj hr]
  granted := by
    intro g hg
    obtain ⟨hg, hne⟩ := hsub g hg
    rw [htasks, Function.update_of_ne hne]
    exact h.granted g hg
  pids := by
    rw [htasks]
    exact update_forall h.pids hpid

theorem mem_insert (hkey : key ∉ tree.keys) {k b : ULong} :
    (k, b) ∈ (rbtreeInsert tree key ptr).entries ↔
      (k, b) ∈ tree.entries ∨ k = key ∧ b = ptr := by
  rw [rbtreeInsert, (OrderedMap.entries_insert ptr hkey).mem_iff, List.mem_cons, Prod.mk.injEq]
  exact or_comm

/-! ## The calls -/

/-- `schedule` returns, with the new task under a key that was free. -/
theorem schedule_total (howns : s.Owns out) (hptr0 : ptr ≠ 0) (hptr1 : ptr ≠ 1)
    (hptr : s.tasks ptr = none) (pid : ULong) (prio : SchedulerPriority) :
    ∃ key, key ∉ s.processTree.keys ∧ s.schedule ptr pid prio = some {
      processTree := rbtreeInsert s.processTree key ptr
      timebaseOffset := s.timebaseOffset + SCHED_FAIR_MIN_GRANULARITY
      tasks := Function.update s.tasks ptr
        (some ⟨pid, 0, key, prioToWeight prio, 1 / prioToWeight prio⟩) } := by
  obtain ⟨lowest, hlowest⟩ : ∃ lowest, s.lowestTime = some lowest := by
    unfold lowestTime
    split
    · exact ⟨0, rfl⟩
    · rename_i hne
      simp only [rbtreeEmpty, rbtreeSize, OrderedMap.size, decide_eq_true_eq,
        List.length_eq_zero_iff] at hne
      simp only [rbtreeMin, OrderedMap.min?]
      cases hm : s.processTree.entries with
      | nil => exact absurd hm hne
      | cons e rest => exact ⟨e.1, rfl⟩
  have hnone : ¬ (ptr = 0 ∨ ptr = 1 ∨ (s.tasks ptr).isSome) := by
    rw [hptr, not_or, not_or]
    exact ⟨hptr0, hptr1, by decide⟩
  obtain ⟨key, hkey, hinsert⟩ := timelineInsert_total howns.size_lt
    ⟨pid, 0, 0, prioToWeight prio, 1 / prioToWeight prio⟩ ptr lowest
  have hsched : s.schedule ptr pid prio = s.timelineInsert
      ⟨pid, 0, 0, prioToWeight prio, 1 / prioToWeight prio⟩ ptr lowest := by
    rw [schedule, if_neg hnone, hlowest]
    rfl
  exact ⟨key, hkey, hsched.trans hinsert⟩

/-- The address of a new task is fresh. -/
theorem schedule_fresh (hs : s.schedule ptr pid prio = some s') :
    ptr ≠ 0 ∧ ptr ≠ 1 ∧ s.tasks ptr = none := by
  unfold schedule at hs
  split at hs
  · cases hs
  · rename_i hfresh
    simpa only [not_or, Option.not_isSome_iff_eq_none] using hfresh

theorem schedule_timed (howns : s.Owns out) (h : s.Timed out) (h0 : pid ≠ 0)
    (hptr0 : ptr ≠ 0) (hptr1 : ptr ≠ 1) (hptr : s.tasks ptr = none) (prio : SchedulerPriority) :
    ∃ s', s.schedule ptr pid prio = some s' ∧ s'.Timed out := by
  obtain ⟨key, hkey, hsched⟩ := schedule_total howns hptr0 hptr1 hptr pid prio
  refine ⟨_, hsched, ?_⟩
  have hvalues : ptr ∉ s.processTree.values := by
    intro hm
    obtain ⟨r, hr⟩ := howns.owned.queuedLive ptr hm
    rw [hptr] at hr
    cases hr
  have hout : ∀ g ∈ out, g.data ≠ ptr := by
    rintro g hg rfl
    obtain ⟨r, hr, -⟩ := howns.owned.outLive _ (List.mem_map_of_mem hg)
    rw [hptr] at hr
    cases hr
  refine h.write hvalues (fun t ht => ?_) rfl (fun k b => ?_) (fun g hg _ => hg)
    (fun g hg => ⟨hg, hout g hg⟩)
  · rw [← Option.some.inj ht]
    exact h0
  · simp only [mem_insert hkey, Option.some.injEq, exists_eq_left']

/-- A returned task is written back into the timeline, or freed. -/
theorem back_timed (howns : s.Owns (g :: out)) (h : s.Timed (g :: out))
    {x : Option SchedulerTask} (hpid : ∀ t, x = some t → t.pid ≠ 0)
    (htasks : s'.tasks = Function.update s.tasks g.data x)
    (hentries : ∀ k b, (k, b) ∈ s'.processTree.entries ↔
      (k, b) ∈ s.processTree.entries ∨ ∃ t, x = some t ∧ k = t.timebase ∧ b = g.data) :
    s'.Timed out := by
  obtain ⟨hq, hout, -⟩ := howns.owned.out_facts
  refine h.write hq hpid htasks hentries (fun g' hg' hne => ?_) fun g' hg' => ?_
  · rcases List.mem_cons.mp hg' with rfl | hg'
    · exact absurd rfl hne
    · exact hg'
  · exact ⟨List.mem_cons_of_mem _ hg', hout (g'.data, g'.pid)
      (List.mem_map_of_mem (f := fun g => (g.data, g.pid)) hg')⟩

/-- No assertion fails: the task still holds the runtime it was granted. -/
theorem reschedule_timed (cfg : Config) (howns : s.Owns (g :: out)) (h : s.Timed (g :: out))
    (hjob : job.Returns g) : ∃ s', s.reschedule cfg job = some s' ∧ s'.Timed out := by
  obtain ⟨-, hdata, hrt⟩ := hjob
  obtain ⟨task, htask, -, hne⟩ := task_out howns
  have hruntime := h.granted g List.mem_cons_self task htask
  obtain ⟨key, hkey, hinsert⟩ := timelineInsert_total howns.size_lt task g.data
    (cfg.fairAdvance task.timebase (task.runtime - job.runtime) task.inverseWeight)
  have hle : ¬ task.runtime < job.runtime := by
    rw [hruntime]
    exact not_lt.mpr hrt
  have hresched : s.reschedule cfg job = some {
      processTree := rbtreeInsert s.processTree key g.data
      timebaseOffset := 0
      tasks := Function.update s.tasks g.data (some { task with timebase := key }) } := by
    rw [reschedule, hdata, if_neg hne, htask]
    simp only [Option.bind_eq_bind, Option.bind_some, if_neg hle, hinsert]
  refine ⟨_, hresched, ?_⟩
  refine back_timed howns h (x := some { task with timebase := key }) (fun t ht => ?_) rfl
    fun k b => ?_
  · rw [← Option.some.inj ht]
    exact h.pids g.data task htask
  · simp only [mem_insert hkey, Option.some.injEq, exists_eq_left']

theorem unschedule_out (howns : s.Owns (g :: out)) (hdata : job.data = g.data) :
    s.unschedule job = some { s with tasks := Function.update s.tasks g.data none } := by
  obtain ⟨task, htask, -, hne⟩ := task_out howns
  rw [unschedule, hdata, if_neg hne, htask]
  rfl

theorem unschedule_timed (howns : s.Owns (g :: out)) (h : s.Timed (g :: out))
    (hdata : job.data = g.data) : ∃ s', s.unschedule job = some s' ∧ s'.Timed out := by
  refine ⟨_, unschedule_out howns hdata, ?_⟩
  exact back_timed howns h (x := none) (fun t ht => (by cases ht)) rfl fun k b => by simp

theorem rbtreeEmpty_iff : rbtreeEmpty tree = true ↔ tree.entries = [] := by
  simp only [rbtreeEmpty, rbtreeSize, OrderedMap.size, decide_eq_true_eq,
    List.length_eq_zero_iff]

theorem rbtreeMin_cons {v : ULong} {rest : List (ULong × ULong)}
    (h : tree.entries = (key, v) :: rest) : rbtreeMin tree = some key := by
  rw [rbtreeMin, OrderedMap.min?, h]
  rfl

/-- A slice is at least the minimum granularity, that of a lonely task ten timeslices. -/
theorem slice_spec (cfg : Config) (tree : Rbtree) (lowest : ULong) :
    ∃ rt, slice cfg tree lowest = some rt ∧
      (if tree.entries = [] then cfg.timeslices 10 else SCHED_FAIR_MIN_GRANULARITY) ≤ rt := by
  unfold slice
  split
  · rename_i hempty
    rw [rbtreeEmpty_iff] at hempty
    exact ⟨_, rfl, le_of_eq (if_pos hempty)⟩
  · rename_i hne
    rw [rbtreeEmpty_iff] at hne
    obtain ⟨e, rest, he⟩ := List.exists_cons_of_ne_nil hne
    simp only [rbtreeMin_cons he, Option.bind_eq_bind, Option.bind_some, Option.some.injEq,
      exists_eq_left', if_neg hne]
    split
    · exact le_refl _
    · rename_i hge
      exact not_lt.mp hge

/-- `select` on a timeline with a first entry. -/
theorem select_cons (cfg : Config) (job : SchedulerJob) {rest : List (ULong × ULong)}
    (hentries : s.processTree.entries = (key, ptr) :: rest) (htask : s.tasks ptr = some task)
    {rt : ULong} (hrt : slice cfg (rbtreeRemove s.processTree key) key = some rt) :
    s.select cfg job = some ({ s with
      processTree := rbtreeRemove s.processTree key
      tasks := Function.update s.tasks ptr (some { task with runtime := rt }) },
      { job with pid := task.pid, runtime := rt, data := ptr }) := by
  have hne : ¬ rbtreeEmpty s.processTree = true := by
    rw [rbtreeEmpty_iff, hentries]
    exact List.cons_ne_nil _ _
  have hsearch : rbtreeSearch s.processTree key = some ptr :=
    OrderedMap.find?_eq_some.mpr (by rw [hentries]; exact List.mem_cons_self)
  rw [select, if_neg hne, rbtreeMin_cons hentries]
  simp only [Option.bind_eq_bind, Option.bind_some, hsearch, htask, hrt]

theorem select_nil (cfg : Config) (job : SchedulerJob) (h : s.processTree.entries = []) :
    s.select cfg job = some (s, { job with pid := 0, runtime := 0, data := 0 }) := by
  rw [select, if_pos (rbtreeEmpty_iff.mpr h)]

theorem entries_remove {rest : List (ULong × ULong)} (h : tree.entries = (key, ptr) :: rest) :
    (rbtreeRemove tree key).entries = rest ∧ ∀ e ∈ rest, key < e.1 := by
  obtain ⟨v, rest', hentries, herase, -, hlt⟩ := OrderedMap.min?_eq_some (rbtreeMin_cons h)
  rw [h] at hentries
  cases hentries
  exact ⟨herase, hlt⟩

/-- What `select` leaves behind. -/
theorem select_timed (howns : s.Owns out) (h : s.Timed out) (job : SchedulerJob)
    {rest : List (ULong × ULong)} (hentries : s.processTree.entries = (key, ptr) :: rest)
    (htask : s.tasks ptr = some task) (rt : ULong) :
    Timed { s with
      processTree := rbtreeRemove s.processTree key
      tasks := Function.update s.tasks ptr (some { task with runtime := rt }) }
      ({ job with pid := task.pid, runtime := rt, data := ptr } :: out) := by
  obtain ⟨hremove, -⟩ := entries_remove hentries
  have hnd := (List.nodup_append'.mp howns.owned.nodup).1
  have hdisj := (List.nodup_append'.mp howns.owned.nodup).2.2
  rw [OrderedMap.values, hentries, List.map_cons, List.nodup_cons] at hnd
  refine ⟨?_, ?_, ?_, update_forall h.pids fun t ht => ?_⟩
  · intro a t ht
    by_cases ha : a = ptr
    · rw [ha]
      exact Or.inr List.mem_cons_self
    · dsimp only at ht
      rw [Function.update_of_ne ha] at ht
      refine (h.covered a t ht).imp (fun hm => ?_) (List.mem_cons_of_mem _)
      obtain ⟨k, hk⟩ := mem_values.mp hm
      rw [hentries] at hk
      refine mem_values.mpr ⟨k, ?_⟩
      rw [hremove]
      exact (List.mem_cons.mp hk).resolve_left fun heq => ha (Prod.mk.inj heq).2
  · intro k a hk
    rw [hremove] at hk
    have ha : a ≠ ptr := by
      rintro rfl
      exact hnd.1 (List.mem_map.mpr ⟨_, hk, rfl⟩)
    dsimp only
    rw [Function.update_of_ne ha]
    exact h.keyed k a (by rw [hentries]; exact List.mem_cons_of_mem _ hk)
  · intro g hg t ht
    rcases List.mem_cons.mp hg with rfl | hout
    · dsimp only at ht
      rw [Function.update_self] at ht
      rw [← Option.some.inj ht]
    · have hne : g.data ≠ ptr := by
        rintro rfl
        refine hdisj (mem_values.mpr ⟨key, ?_⟩) (List.mem_map.mpr
          ⟨(g.data, g.pid), List.mem_map_of_mem hout, rfl⟩)
        rw [hentries]
        exact List.mem_cons_self
      dsimp only at ht
      rw [Function.update_of_ne hne] at ht
      exact h.granted g hout t ht
  · rw [← Option.some.inj ht]
    exact h.pids ptr task htask

/-! ## Every reachable state -/

structure Client.Inv (st : Client) : Prop where
  owns : st.sched.Owns st.out
  timed : st.sched.Timed st.out

theorem start_inv : Client.start.Inv where
  owns := allocate_owns
  timed := {
    covered := fun a t ht => (by cases ht)
    keyed := fun k a hk => (by cases hk)
    granted := fun g hg => (by cases hg)
    pids := fun a t ht => (by cases ht) }

/-- What `select` does in a state of a run. -/
theorem select_cases (h : st.Inv) (hs : st.sched.select cfg job = some (s', job')) :
    (st.sched.processTree.entries = [] ∧ s' = st.sched ∧ job'.pid = 0) ∨
      ∃ key rest task, st.sched.processTree.entries = (key, job'.data) :: rest ∧
        st.sched.tasks job'.data = some task ∧ job'.pid = task.pid ∧ task.pid ≠ 0 ∧
        slice cfg (rbtreeRemove st.sched.processTree key) key = some job'.runtime ∧
        s'.Owns (job' :: st.out) ∧ s'.Timed (job' :: st.out) := by
  cases hentries : st.sched.processTree.entries with
  | nil =>
    rw [select_nil cfg job hentries] at hs
    cases hs
    exact Or.inl ⟨rfl, rfl, rfl⟩
  | cons e rest =>
    obtain ⟨key, ptr⟩ := e
    obtain ⟨task, htask⟩ := h.owns.owned.queuedLive ptr
      (mem_values.mpr ⟨key, by rw [hentries]; exact List.mem_cons_self⟩)
    have hpid := h.timed.pids ptr task htask
    obtain ⟨rt, hrt, -⟩ := slice_spec cfg (rbtreeRemove st.sched.processTree key) key
    have hsel := select_cons cfg job hentries htask hrt
    have htimed := select_timed h.owns h.timed job hentries htask rt
    have howns := select_spec h.owns hs
    rw [hsel] at hs
    cases hs
    refine Or.inr ⟨key, rest, task, rfl, htask, rfl, hpid, hrt, ?_, htimed⟩
    rcases howns with ⟨hzero, -⟩ | ⟨howns, -⟩
    · exact absurd hzero hpid
    · exact howns

theorem step_calls (hs : st.step cfg op = some st') : Calls cfg st op st' := by
  cases op with
  | schedule ptr pid prio =>
    simp only [Client.step] at hs
    split at hs
    · cases hs
    · obtain ⟨sched, hsched, hs⟩ := Option.bind_eq_some_iff.mp hs
      cases hs
      exact .schedule ‹_› hsched
  | select job =>
    obtain ⟨⟨sched, job'⟩, hsel, hs⟩ := Option.bind_eq_some_iff.mp hs
    cases hs
    exact .select hsel
  | reschedule advance granted job =>
    simp only [Client.step] at hs
    split at hs
    · rename_i hg
      obtain ⟨sched, hsched, hs⟩ := Option.bind_eq_some_iff.mp hs
      cases hs
      exact .reschedule hg.1 hg.2 hsched
    · cases hs
  | unschedule granted job =>
    simp only [Client.step] at hs
    split at hs
    · rename_i hg
      obtain ⟨sched, hsched, hs⟩ := Option.bind_eq_some_iff.mp hs
      cases hs
      exact .unschedule hg.1 hg.2 hsched
    · cases hs

theorem step_inv (h : st.Inv) (hs : st.step cfg op = some st') : st'.Inv := by
  cases step_calls hs with
  | schedule h0 hsched =>
    obtain ⟨hptr0, hptr1, hptr⟩ := schedule_fresh hsched
    obtain ⟨s₁, hs₁, htimed⟩ := schedule_timed h.owns h.timed h0 hptr0 hptr1 hptr _
    rw [hsched] at hs₁
    cases hs₁
    exact ⟨(schedule_spec h.owns hsched).1, htimed⟩
  | select hsel =>
    rcases select_cases h hsel with ⟨-, rfl, hpid⟩ | ⟨-, -, task, -, -, hpid, h0, -, howns, htimed⟩
    · rw [if_pos hpid]
      exact h
    · rw [if_neg (hpid ▸ h0)]
      exact ⟨howns, htimed⟩
  | @reschedule advance granted job s' hg hjob hsched =>
    have hp := List.perm_cons_erase hg
    obtain ⟨s₁, hs₁, htimed⟩ := reschedule_timed (withAdvance cfg advance) (h.owns.perm hp)
      (h.timed.perm hp) hjob
    rw [hsched] at hs₁
    cases hs₁
    exact ⟨(reschedule_spec (h.owns.perm hp) hjob.2.1 hsched).1, htimed⟩
  | unschedule hg hjob hsched =>
    have hp := List.perm_cons_erase hg
    obtain ⟨s₁, hs₁, htimed⟩ := unschedule_timed (h.owns.perm hp) (h.timed.perm hp) hjob.2.1
    rw [hsched] at hs₁
    cases hs₁
    exact ⟨(unschedule_spec (h.owns.perm hp) hjob.2.1 hsched).1, htimed⟩

theorem reachable_inv (h : Reachable (Client.step cfg) Client.start st) : st.Inv :=
  reachable_invariant start_inv (fun _ _ _ hi hs => step_inv hi hs) h

/-! ## The jobs of a run -/

theorem schedule_tasks (hs : s.schedule ptr pid prio = some s') : ∃ key, s'.tasks =
    Function.update s.tasks ptr
      (some ⟨pid, 0, key, prioToWeight prio, 1 / prioToWeight prio⟩) := by
  unfold schedule at hs
  split at hs
  · cases hs
  · obtain ⟨lowest, -, hs⟩ := Option.bind_eq_some_iff.mp hs
    obtain ⟨key, -, htasks⟩ := timelineInsert_spec hs
    exact ⟨key, htasks⟩

theorem select_tasks (hs : s.select cfg job = some (s', job')) : s'.tasks = s.tasks ∨
    ∃ ptr task runtime, s.tasks ptr = some task ∧
      s'.tasks = Function.update s.tasks ptr (some { task with runtime }) := by
  unfold select at hs
  split at hs
  · cases hs
    exact Or.inl rfl
  · simp only [Option.bind_eq_bind, Option.bind_eq_some_iff] at hs
    obtain ⟨lowest, -, ptr, -, task, htask, runtime, -, hs⟩ := hs
    cases hs
    exact Or.inr ⟨ptr, task, runtime, htask, rfl⟩

theorem reschedule_tasks (howns : s.Owns (g :: out)) (hdata : job.data = g.data)
    (hs : s.reschedule cfg job = some s') : ∃ task key, s.tasks g.data = some task ∧
      s'.tasks = Function.update s.tasks g.data (some { task with timebase := key }) := by
  obtain ⟨task, htask, -, hne⟩ := task_out howns
  rw [reschedule, hdata, if_neg hne, htask] at hs
  simp only [Option.bind_eq_bind, Option.bind_some] at hs
  split at hs
  · cases hs
  · obtain ⟨t, ht, hs⟩ := Option.bind_eq_some_iff.mp hs
    cases hs
    obtain ⟨key, -, htasks⟩ := timelineInsert_spec ht
    exact ⟨task, key, htask, htasks⟩

/-- The heap has a task for every job that the calls leave scheduled, and no other. -/
theorem step_registered {jobs : List (ULong × ULong)} (h : st.Inv)
    (hreg : Registered st.sched.tasks SchedulerTask.pid jobs) (hs : st.step cfg op = some st') :
    Registered st'.sched.tasks SchedulerTask.pid (op.jobsAfter jobs) := by
  cases step_calls hs with
  | @schedule ptr pid prio s' _ hsched =>
    obtain ⟨-, -, hptr⟩ := schedule_fresh hsched
    obtain ⟨key, htasks⟩ := schedule_tasks hsched
    rw [htasks]
    exact hreg.alloc hptr ⟨pid, 0, key, prioToWeight prio, 1 / prioToWeight prio⟩
  | select hsel =>
    rcases select_tasks hsel with htasks | ⟨ptr, task, runtime, htask, htasks⟩
    · rw [htasks]
      exact hreg
    · rw [htasks]
      exact hreg.write htask rfl
  | @reschedule advance granted job s' hg hjob hsched =>
    obtain ⟨task, key, htask, htasks⟩ :=
      reschedule_tasks (h.owns.perm (List.perm_cons_erase hg)) hjob.2.1 hsched
    rw [htasks]
    exact hreg.write htask rfl
  | @unschedule granted job s' hg hjob hsched =>
    have howns := h.owns.perm (List.perm_cons_erase hg)
    obtain ⟨task, htask, hpid, -⟩ := task_out howns
    obtain rfl := Option.some.inj ((unschedule_out howns hjob.2.1).symm.trans hsched)
    rw [Op.jobsAfter, ← hpid]
    exact hreg.free htask

theorem run_registered {ops : List Op} (h : run (Client.step cfg) Client.start ops = some st) :
    st.Inv ∧ Registered st.sched.tasks SchedulerTask.pid (scheduled ops) := by
  have hstart : Registered Client.start.sched.tasks SchedulerTask.pid [] :=
    ⟨List.nodup_nil, fun n => by simp [Client.start, allocate]⟩
  exact run_history (I := fun st jobs => st.Inv ∧ Registered st.sched.tasks _ jobs)
    ⟨start_inv, hstart⟩
    (fun _ _ _ _ hi hs => ⟨step_inv hi.1 hs, step_registered hi.1 hi.2 hs⟩) h

/-- The job has a task, and that is in one place: in the timeline, once, under its timebase
and alone there, or out. -/
def Client.Placed (st : Client) (j : ULong × ULong) : Prop :=
  ∃ task, st.sched.tasks j.1 = some task ∧ task.pid = j.2 ∧
    ((st.sched.processTree.values.count j.1 = 1 ∧
        (∀ b, (task.timebase, b) ∈ st.sched.processTree.entries ↔ b = j.1) ∧
        j.1 ∉ st.out.map SchedulerJob.data) ∨
      (j.1 ∉ st.sched.processTree.values ∧
        (st.out.map fun g => (g.data, g.pid)).count j = 1))

/-- Every scheduled job is in one place, and there is nothing else in these places. -/
def Client.Accounted (st : Client) (jobs : List (ULong × ULong)) : Prop :=
  (∀ j ∈ jobs, st.Placed j) ∧
    (st.sched.processTree.values ++ st.out.map SchedulerJob.data).Perm (jobs.map Prod.fst)

theorem Client.Inv.placed (h : st.Inv) (htask : st.sched.tasks a = some task) :
    st.Placed (a, task.pid) := by
  have hplace := h.owns.owned.place htask (by
    rw [List.map_map]
    exact h.timed.covered a task htask)
  rw [List.map_map] at hplace
  refine ⟨task, htask, rfl, hplace.imp_left fun hqueued => ⟨hqueued.1, fun b => ?_, hqueued.2⟩⟩
  have hm : a ∈ st.sched.processTree.values :=
    List.count_pos_iff.mp (hqueued.1.symm ▸ Nat.one_pos)
  obtain ⟨k, hk⟩ := mem_values.mp hm
  obtain rfl := h.timed.keyed k a hk task htask
  refine ⟨fun hb => ?_, ?_⟩
  · have heq := List.inj_on_of_nodup_map st.sched.processTree.keys_nodup hb hk rfl
    exact (Prod.mk.inj heq).2
  · rintro rfl
    exact hk

theorem accounted {jobs : List (ULong × ULong)} (h : st.Inv)
    (hreg : Registered st.sched.tasks SchedulerTask.pid jobs) : st.Accounted jobs := by
  refine ⟨fun j hj => ?_, ?_⟩
  · obtain ⟨task, htask, hpid⟩ := (hreg.mem_iff j).mp hj
    have hplaced := h.placed htask
    rwa [hpid] at hplaced
  · have hperm := hreg.perm h.owns.owned fun a task htask => by
      rw [List.map_map]
      exact h.timed.covered a task htask
    rwa [List.map_map] at hperm

/-- What every call of `select` does in a state of a run: pid 0 for an empty timeline,
otherwise the task of least timebase, with a slice of at least the minimum granularity, or
of at least `lonely` if no other task is in the timeline. -/
def SelectsLeast (cfg : Config) (lonely : ULong) (s : Fair) : Prop :=
  ∀ job, ∃ s' job', s.select cfg job = some (s', job') ∧
    (job'.pid = 0 ↔ s.processTree.entries = []) ∧
    (s.processTree.entries ≠ [] → ∃ task, s.tasks job'.data = some task ∧
      job'.pid = task.pid ∧ job'.data ∈ s.processTree.values ∧
      (∀ b ∈ s.processTree.values, ∀ t, s.tasks b = some t → task.timebase ≤ t.timebase) ∧
      (if rbtreeSize s.processTree = 1 then lonely else SCHED_FAIR_MIN_GRANULARITY) ≤
        job'.runtime)

theorem selectsLeast (cfg : Config) (h : st.Inv) :
    SelectsLeast cfg (cfg.timeslices 10) st.sched := by
  intro job
  cases hentries : st.sched.processTree.entries with
  | nil =>
    refine ⟨_, _, select_nil cfg job hentries, ⟨fun _ => rfl, fun _ => rfl⟩, ?_⟩
    exact fun hne => absurd rfl hne
  | cons e rest =>
    obtain ⟨key, ptr⟩ := e
    have hmem : ptr ∈ st.sched.processTree.values :=
      mem_values.mpr ⟨key, by rw [hentries]; exact List.mem_cons_self⟩
    obtain ⟨task, htask⟩ := h.owns.owned.queuedLive ptr hmem
    have hpid := h.timed.pids ptr task htask
    obtain ⟨hremove, hleast⟩ := entries_remove hentries
    obtain ⟨rt, hrt, hge⟩ := slice_spec cfg (rbtreeRemove st.sched.processTree key) key
    refine ⟨_, _, select_cons cfg job hentries htask hrt, ?_, fun _ =>
      ⟨task, htask, rfl, hmem, fun b hb t ht => ?_, ?_⟩⟩
    · exact ⟨fun hzero => absurd hzero hpid, fun hnil => absurd hnil (List.cons_ne_nil _ _)⟩
    · -- the first key is the least one, and keys are timebases
      have hkey : task.timebase = key :=
        h.timed.keyed key ptr (by rw [hentries]; exact List.mem_cons_self) task htask
      obtain ⟨k, hk⟩ := mem_values.mp hb
      rw [hkey, h.timed.keyed k b hk t ht]
      rw [hentries] at hk
      rcases List.mem_cons.mp hk with heq | hk
      · rw [(Prod.mk.inj heq).1]
      · exact le_of_lt (hleast (k, b) hk)
    · have hsize : rbtreeSize st.sched.processTree = 1 ↔
          (rbtreeRemove st.sched.processTree key).entries = [] := by
        rw [hremove, rbtreeSize, OrderedMap.size, hentries, List.length_cons,
          Nat.succ_inj, List.length_eq_zero_iff]
      simp only [hsize]
      exact hge

/-- The other calls return: the search of `timeline_insert` ends whatever it starts from, a
new task finds a place, and no assertion fails for a job that is out. -/
def CallsReturn (cfg : Config) (st : Client) : Prop :=
  (∀ task ptr timebase, (st.sched.timelineInsert task ptr timebase).isSome) ∧
    (∀ ptr pid prio, ptr ≠ 0 → ptr ≠ 1 → st.sched.tasks ptr = none →
      (st.sched.schedule ptr pid prio).isSome) ∧
    ∀ g ∈ st.out, ∀ job, job.Returns g → (st.sched.unschedule job).isSome ∧
      ∀ advance, (st.sched.reschedule (withAdvance cfg advance) job).isSome

theorem callsReturn (h : st.Inv) : CallsReturn cfg st := by
  refine ⟨fun task ptr timebase => ?_, fun ptr pid prio hptr0 hptr1 hptr => ?_,
    fun g hg job hjob => ?_⟩
  · obtain ⟨key, -, hs⟩ := timelineInsert_total h.owns.size_lt task ptr timebase
    rw [hs]
    rfl
  · obtain ⟨key, -, hs⟩ := schedule_total h.owns hptr0 hptr1 hptr pid prio
    rw [hs]
    rfl
  · have hp := List.perm_cons_erase hg
    obtain ⟨s₁, hs₁, -⟩ := unschedule_timed (h.owns.perm hp) (h.timed.perm hp) hjob.2.1
    refine ⟨by rw [hs₁]; rfl, fun advance => ?_⟩
    obtain ⟨s₂, hs₂, -⟩ := reschedule_timed (withAdvance cfg advance) (h.owns.perm hp)
      (h.timed.perm hp) hjob
    rw [hs₂]
    rfl

/-- The contract, after every run of a client. Only the slice of a lonely task can be below
the granularity, in a build whose ten timeslices do not fit in an `int`. -/
theorem timeline_contract (cfg : Config) (hts : 5 ≤ cfg.timeslice.toNat) (ops : List Op)
    (st : Client) (h : run (Client.step cfg) Client.start ops = some st) :
    st.Accounted (scheduled ops) ∧ CallsReturn cfg st ∧
      SelectsLeast cfg (cfg.timeslices 10) st.sched ∧
      (cfg.timeslice.toNat * 10 < 2 ^ 31 →
        SelectsLeast cfg SCHED_FAIR_MIN_GRANULARITY st.sched) := by
  obtain ⟨hinv, hreg⟩ := run_registered h
  have hleast := selectsLeast cfg hinv
  refine ⟨accounted hinv hreg, callsReturn hinv, hleast, fun hfits job => ?_⟩
  have hle : SCHED_FAIR_MIN_GRANULARITY ≤ cfg.timeslices 10 := by
    rw [BitVec.le_def, Config.timeslices_toNat (by decide) hfits]
    show 50 ≤ cfg.timeslice.toNat * 10
    omega
  obtain ⟨s', job', hsel, hpid, hrest⟩ := hleast job
  refine ⟨s', job', hsel, hpid, fun hne => ?_⟩
  obtain ⟨task, htask, howner, hmem, hmin, hge⟩ := hrest hne
  refine ⟨task, htask, howner, hmem, hmin, ?_⟩
  split at hge
  · rw [if_pos ‹_›]
    exact hle.trans hge
  · rwa [if_neg ‹_›]

/-- Of three tasks one is rescheduled, one is unscheduled and one is out. -/
def threeTasks : List Op :=
  let first : SchedulerJob := ⟨7, 150, 4096, 0, .normal⟩
  let second : SchedulerJob := ⟨8, 50, 8192, 0, .normal⟩
  [.schedule 4096 7 .high, .schedule 8192 8 .low, .schedule 12288 9 .normal, .select .blank,
    .select .blank, .reschedule 1000 first { first with runtime := 20 },
    .unschedule second second, .select .blank]

theorem timeline_contract_threeTasks : ∃ st : Client,
    run (Client.step .defaultProfile) Client.start threeTasks = some st ∧
      (st.sched.processTree.values, st.out.map SchedulerJob.data) = ([4096], [12288]) ∧
      scheduled threeTasks = [(12288, 9), (4096, 7)] ∧ st.Accounted (scheduled threeTasks) ∧
      CallsReturn .defaultProfile st ∧
      SelectsLeast .defaultProfile SCHED_FAIR_MIN_GRANULARITY st.sched := by
  have hrun : (run (Client.step .defaultProfile) Client.start threeTasks).map (fun st =>
      (st.sched.processTree.values, st.out.map SchedulerJob.data)) =
      some ([4096], [12288]) := by decide +kernel
  obtain ⟨st, hst, hplaces⟩ := Option.map_eq_some_iff.mp hrun
  obtain ⟨haccounted, hreturn, -, hleast⟩ :=
    timeline_contract .defaultProfile (by decide) threeTasks st hst
  exact ⟨st, hst, hplaces, by decide, haccounted, hreturn, hleast (by decide)⟩

/-- Ten of these timeslices are `4` as an `int`: a lonely task gets less than the
granularity. -/
theorem overflowing_timeslice_grants_less : ∃ (cfg : Config) (st : Client),
    5 ≤ cfg.timeslice.toNat ∧ Reachable (Client.step cfg) Client.start st ∧
      ¬ SelectsLeast cfg SCHED_FAIR_MIN_GRANULARITY st.sched := by
  let cfg : Config := { Config.defaultProfile with timeslice := 429496730 }
  have hrun : ((run (Client.step cfg) Client.start [.schedule 4096 7 .normal]).bind fun st =>
      (st.sched.select cfg .blank).map fun r =>
        (rbtreeSize st.sched.processTree, r.2.runtime)) = some (1, 4) := by
    decide +kernel
  obtain ⟨st, hst, hsel⟩ := Option.bind_eq_some_iff.mp hrun
  obtain ⟨⟨s', job'⟩, hsel, hvals⟩ := Option.map_eq_some_iff.mp hsel
  obtain ⟨hsize, hruntime⟩ := Prod.mk.inj hvals
  have hne : st.sched.processTree.entries ≠ [] := by
    intro hnil
    rw [rbtreeSize, OrderedMap.size, hnil] at hsize
    cases hsize
  refine ⟨cfg, st, by decide, ⟨_, hst⟩, fun h => ?_⟩
  obtain ⟨s₁, job₁, hsel₁, -, hleast⟩ := h .blank
  rw [hsel] at hsel₁
  cases hsel₁
  obtain ⟨task, -, -, -, -, hge⟩ := hleast hne
  rw [if_pos hsize, hruntime] at hge
  exact absurd hge (by decide)

end Fair

end Yarns
