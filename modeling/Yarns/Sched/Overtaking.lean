import Mathlib.Data.Rat.Floor
import Yarns.Base.Tally
import Yarns.Sched.FairRuns

/-!
# Bounded overtaking in the fair scheduler

While a task waits in the timeline, another one is selected only with a lesser timebase, and
comes back with one that is larger by twice the granularity at least. So its timebase, to
which its next return is added in advance while it is out, is a potential: it grows by as
much with every selection, and stays below the timebase of the waiting task before it.
-/

namespace Yarns

open Base

namespace Fair

variable {cfg : Config} {s s' : Fair} {st st' : Client} {op : Op} {a b ptr pid key w : ULong}
  {task waiting : SchedulerTask} {tree : Rbtree}

/-- A key is free from `start` on, so that the search from there does not wrap around. -/
def Room (s : Fair) (start : ℕ) : Prop := ∃ key, start ≤ key.toNat ∧ key ∉ s.processTree.keys

/-- The timebase and the weighted time that was used. -/
def exactSum (task : SchedulerTask) (used : ULong) : ℕ :=
  task.timebase.toNat + ⌊used.toNat * task.inverseWeight⌋₊

/-- The product with the inverse weight is exact, and the timebase does not reach `2 ^ 64`. -/
def Op.Exact (st : Client) : Op → Prop
  | .reschedule advance granted job => ∀ task, st.sched.tasks granted.data = some task →
    advance = BitVec.ofNat 64 (exactSum task (task.runtime - job.runtime)) ∧
      st.sched.Room (exactSum task (task.runtime - job.runtime) +
        2 * SCHED_FAIR_MIN_GRANULARITY.toNat + st.sched.timebaseOffset.toNat)
  | _ => True

/-- The call selects the task at `a`. -/
def Op.selects (cfg : Config) (a : ULong) (st : Client) : Op → Bool
  | .select job => (st.sched.select cfg job).any fun r => r.2.data = a
  | _ => false

/-- The call frees the task at `a`. -/
def Op.frees (a : ULong) : Op → Bool
  | .unschedule granted _ => granted.data = a
  | _ => false

/-- How often the task at `a` is selected while it lives, before the one at `w` is. -/
def selections (cfg : Config) (w a : ULong) : Client → List Op → ℕ :=
  tally (Client.step cfg) (fun st op => op.selects cfg a st)
    fun st op => op.frees a || op.selects cfg w st

/-! ## What a call does to the timeline -/

/-- What a call does to the tasks, the timeline and the jobs out. -/
inductive Moves (cfg : Config) (s : Fair) (out : List SchedulerJob) :
    Op → Fair → List SchedulerJob → Prop
  | idle {job job'} : s.select cfg job = some (s, job') → job'.data = 0 →
    Moves cfg s out (.select job) s out
  | take {job job' key rest task runtime s'} : s.select cfg job = some (s', job') →
    s.processTree.entries = (key, job'.data) :: rest → s.tasks job'.data = some task →
    s'.processTree.entries = rest →
    s'.tasks = Function.update s.tasks job'.data (some { task with runtime }) →
    Moves cfg s out (.select job) s' (job' :: out)
  | arrive {ptr pid prio task s'} : s.tasks ptr = none →
    (∀ k b, (k, b) ∈ s'.processTree.entries ↔
      (k, b) ∈ s.processTree.entries ∨ k = task.timebase ∧ b = ptr) →
    s'.tasks = Function.update s.tasks ptr (some task) →
    Moves cfg s out (.schedule ptr pid prio) s' out
  | back {advance granted job task timebase s'} : granted ∈ out →
    s.tasks granted.data = some task →
    freeKey s.processTree (rbtreeSize s.processTree + 1) (advance + SCHED_FAIR_MIN_GRANULARITY +
      (s.timebaseOffset + SCHED_FAIR_MIN_GRANULARITY)) = some timebase →
    (∀ k b, (k, b) ∈ s'.processTree.entries ↔
      (k, b) ∈ s.processTree.entries ∨ k = timebase ∧ b = granted.data) →
    s'.tasks = Function.update s.tasks granted.data (some { task with timebase }) →
    Moves cfg s out (.reschedule advance granted job) s' (out.erase granted)
  | leave {granted job s'} : granted ∈ out →
    s'.processTree = s.processTree →
    s'.tasks = Function.update s.tasks granted.data none →
    Moves cfg s out (.unschedule granted job) s' (out.erase granted)

theorem step_moves (h : st.Inv) (hs : st.step cfg op = some st') :
    Moves cfg st.sched st.out op st'.sched st'.out := by
  cases step_calls hs with
  | @schedule ptr pid prio s' _ hsched =>
    obtain ⟨hptr0, hptr1, hptr⟩ := schedule_fresh hsched
    obtain ⟨key, hkey, hsched'⟩ := schedule_total h.owns hptr0 hptr1 hptr pid prio
    rw [hsched] at hsched'
    cases hsched'
    exact .arrive hptr (fun k b => mem_insert hkey) rfl
  | @select job job' s' hsel =>
    have hsel' := hsel
    cases hentries : st.sched.processTree.entries with
    | nil =>
      rw [select_nil cfg job hentries] at hsel
      cases hsel
      exact .idle hsel' rfl
    | cons e rest =>
      obtain ⟨key, ptr⟩ := e
      obtain ⟨task, htask⟩ := h.owns.owned.queuedLive ptr
        (mem_values.mpr ⟨key, by rw [hentries]; exact List.mem_cons_self⟩)
      obtain ⟨rt, hrt, -⟩ := slice_spec cfg (rbtreeRemove st.sched.processTree key) key
      rw [select_cons cfg job hentries htask hrt] at hsel
      cases hsel
      rw [if_neg (h.timed.pids ptr task htask)]
      exact .take hsel' hentries htask (entries_remove hentries).1 rfl
  | reschedule hg hjob hsched =>
    obtain ⟨-, hdata, -⟩ := hjob
    obtain ⟨task, htask, -, hne⟩ := task_out (h.owns.perm (List.perm_cons_erase hg))
    rw [reschedule, hdata, if_neg hne, htask] at hsched
    simp only [Option.bind_eq_bind, Option.bind_some] at hsched
    split at hsched
    · cases hsched
    · obtain ⟨t, ht, hsched⟩ := Option.bind_eq_some_iff.mp hsched
      simp only [timelineInsert, Option.bind_eq_bind, Option.bind_eq_some_iff] at ht
      obtain ⟨key, hkey, ht⟩ := ht
      cases ht
      cases hsched
      exact .back hg htask hkey (fun k b => mem_insert (freeKey_spec hkey)) rfl
  | unschedule hg hjob hsched =>
    obtain ⟨-, hdata, -⟩ := hjob
    rw [unschedule_out (h.owns.perm (List.perm_cons_erase hg)) hdata] at hsched
    cases hsched
    exact .leave hg rfl rfl

/-! ## A task that waits -/

theorem selects_eq {job job' : SchedulerJob} (hsel : st.sched.select cfg job = some (s', job')) :
    (Op.select job).selects cfg a st = decide (job'.data = a) := by
  rw [Op.selects, hsel]
  rfl

/-- A task stays in the timeline under its key until it is selected. -/
theorem step_waits (h : st.Inv) (hw : (key, w) ∈ st.sched.processTree.entries)
    (hs : st.step cfg op = some st') (hsel : op.selects cfg w st = false) :
    (key, w) ∈ st'.sched.processTree.entries := by
  have hmoves := step_moves h hs
  obtain ⟨s', out'⟩ := st'
  dsimp only at hmoves ⊢
  cases hmoves with
  | idle => exact hw
  | @take job job' _ rest _ _ _ htake hentries _ hrest _ =>
    have hne : job'.data ≠ w := of_decide_eq_false ((selects_eq htake).symm.trans hsel)
    rw [hentries] at hw
    rw [hrest]
    exact (List.mem_cons.mp hw).resolve_left fun heq => hne (Prod.mk.inj heq).2.symm
  | arrive _ hentries _ => exact (hentries key w).mpr (Or.inl hw)
  | back _ _ _ hentries _ => exact (hentries key w).mpr (Or.inl hw)
  | leave _ htree _ =>
    rw [htree]
    exact hw

theorem run_waits {ops : List Op} (h : st.Inv) (hw : (key, w) ∈ st.sched.processTree.entries)
    (hwait : Along (Client.step cfg) (fun st op _ => op.selects cfg w st = false) st ops)
    (hrun : run (Client.step cfg) st ops = some st') :
    st'.Inv ∧ (key, w) ∈ st'.sched.processTree.entries :=
  run_invariant (I := fun st => st.Inv ∧ (key, w) ∈ st.sched.processTree.entries) ⟨h, hw⟩
    (fun _ _ _ hi hsel hs => ⟨step_inv hi.1 hs, step_waits hi.1 hi.2 hs hsel⟩) hwait hrun

/-! ## The potential of a task -/

theorem Owns.not_out {out : List SchedulerJob} (h : s.Owns out) (ha : a ∈ s.processTree.values) :
    a ∉ out.map SchedulerJob.data := by
  have hnd := h.owned.nodup
  rw [List.map_map] at hnd
  exact fun hm => (List.nodup_append'.mp hnd).2.2 ha hm

/-- The timebase of the task at `a`; while it is out, with what its return adds at least. -/
def potential (a : ULong) (st : Client) : ℕ :=
  ((st.sched.tasks a).elim 0 fun task => task.timebase.toNat) +
    if a ∈ st.out.map SchedulerJob.data then 2 * SCHED_FAIR_MIN_GRANULARITY.toNat else 0

/-- The task at `w` waits under `key`, and there is one at `a`. -/
structure Races (w key a : ULong) (st : Client) : Prop where
  inv : st.Inv
  waits : (key, w) ∈ st.sched.processTree.entries
  lives : ∃ task, st.sched.tasks a = some task

theorem potential_eq (hmem : a ∈ st'.out.map SchedulerJob.data ↔ a ∈ st.out.map SchedulerJob.data)
    (htask : st'.sched.tasks a = st.sched.tasks a) : potential a st' = potential a st := by
  simp only [potential, hmem, htask]

theorem potential_of_task (htask : st.sched.tasks a = some task) : potential a st =
    task.timebase.toNat + if a ∈ st.out.map SchedulerJob.data then
      2 * SCHED_FAIR_MIN_GRANULARITY.toNat else 0 := by
  rw [potential, htask]
  rfl

theorem mem_data_erase {g : SchedulerJob} {out : List SchedulerJob} (hg : g ∈ out)
    (hne : g.data ≠ a) : a ∈ (out.erase g).map SchedulerJob.data ↔
      a ∈ out.map SchedulerJob.data := by
  have hp := (List.perm_cons_erase hg).map SchedulerJob.data
  rw [hp.mem_iff, List.map_cons, List.mem_cons]
  exact ⟨Or.inr, fun h => h.resolve_left fun heq => hne heq.symm⟩

/-- What a step says about the race. -/
def RaceStep (cfg : Config) (w key a : ULong) (st : Client) (op : Op) (st' : Client) : Prop :=
  Races w key a st' ∧ potential a st ≤ potential a st' ∧ (op.selects cfg a st →
    potential a st < key.toNat ∧
      potential a st + 2 * SCHED_FAIR_MIN_GRANULARITY.toNat ≤ potential a st')

/-- A call about other tasks leaves the potential alone. -/
theorem Races.other (h : Races w key a st) (hinv : st'.Inv)
    (hwaits : (key, w) ∈ st'.sched.processTree.entries)
    (hmem : a ∈ st'.out.map SchedulerJob.data ↔ a ∈ st.out.map SchedulerJob.data)
    (htask : st'.sched.tasks a = st.sched.tasks a) (hsel : op.selects cfg a st = false) :
    RaceStep cfg w key a st op st' := by
  refine ⟨⟨hinv, hwaits, ?_⟩, (potential_eq hmem htask).ge, fun hs => ?_⟩
  · rw [htask]
    exact h.lives
  · rw [hsel] at hs
    cases hs

theorem step_races (haw : a ≠ w) (h : Races w key a st) (hexact : op.Exact st)
    (hs : st.step cfg op = some st')
    (hends : (op.frees a || op.selects cfg w st) = false) : RaceStep cfg w key a st op st' := by
  obtain ⟨task, htask⟩ := h.lives
  obtain ⟨hfrees, hselects⟩ := Bool.or_eq_false_iff.mp hends
  have hinv := step_inv h.inv hs
  have hmoves := step_moves h.inv hs
  have hwaits := step_waits h.inv h.waits hs hselects
  obtain ⟨s', out'⟩ := st'
  dsimp only at hmoves htask hwaits
  cases hmoves with
  | idle hsel hdata =>
    refine h.other hinv hwaits Iff.rfl rfl ?_
    rw [selects_eq hsel, hdata, decide_eq_false_iff_not]
    rintro rfl
    rw [h.inv.owns.null] at htask
    cases htask
  | @take job job' least rest taken runtime s' hsel hentries htake hrest htasks =>
    by_cases ha : job'.data = a
    · -- its timebase is the least key, and it was not out
      rw [ha] at hentries htake htasks
      have hleast : taken.timebase = least :=
        h.inv.timed.keyed least a (by rw [hentries]; exact List.mem_cons_self) taken htake
      have hout : a ∉ st.out.map SchedulerJob.data := h.inv.owns.not_out
        (mem_values.mpr ⟨least, by rw [hentries]; exact List.mem_cons_self⟩)
      have hbefore : potential a st = least.toNat := by
        rw [potential_of_task htake, if_neg hout, hleast, Nat.add_zero]
      have htaken : s'.tasks a = some { taken with runtime } := by
        rw [htasks, Function.update_self]
      have hafter : potential a ⟨s', job' :: st.out⟩ =
          least.toNat + 2 * SCHED_FAIR_MIN_GRANULARITY.toNat := by
        rw [potential_of_task htaken, if_pos (by rw [← ha]; exact List.mem_cons_self), ← hleast]
      have hlt : least < key := (entries_remove hentries).2 (key, w) (hrest ▸ hwaits)
      refine ⟨⟨hinv, hwaits, _, htaken⟩, ?_, fun _ => ⟨?_, ?_⟩⟩
      · rw [hbefore, hafter]
        exact Nat.le_add_right _ _
      · rw [hbefore]
        exact hlt
      · rw [hbefore, hafter]
    · refine h.other hinv hwaits ?_ ?_ ?_
      · rw [List.map_cons, List.mem_cons]
        exact or_iff_right (Ne.symm ha)
      · rw [htasks]
        exact Function.update_of_ne (Ne.symm ha) ..
      · rw [selects_eq hsel]
        exact decide_eq_false ha
  | arrive hnone hentries htasks =>
    refine h.other hinv hwaits Iff.rfl ?_ rfl
    rw [htasks]
    apply Function.update_of_ne
    rintro rfl
    rw [hnone] at htask
    cases htask
  | @back advance granted job returned timebase s' hg hback hkey hentries htasks =>
    by_cases ha : granted.data = a
    · -- its new timebase makes up for the advance that was added to the old one
      rw [ha] at hback htasks
      obtain ⟨hadvance, free, hroom, hfree⟩ := hexact returned (ha ▸ hback)
      rw [hadvance, probe_start] at hkey
      have hle := le_freeKey hfree hroom hkey
      have hstored : s'.tasks a = some { returned with timebase } := by
        rw [htasks, Function.update_self]
      refine ⟨⟨hinv, hwaits, _, hstored⟩, ?_, fun hs => by cases hs⟩
      have hbefore : potential a st ≤
          returned.timebase.toNat + 2 * SCHED_FAIR_MIN_GRANULARITY.toNat := by
        rw [potential_of_task hback]
        split <;> omega
      have hafter : timebase.toNat ≤ potential a ⟨s', st.out.erase granted⟩ := by
        rw [potential_of_task hstored]
        exact Nat.le_add_right _ _
      unfold exactSum at hle
      omega
    · refine h.other hinv hwaits (mem_data_erase hg ha) ?_ rfl
      rw [htasks]
      exact Function.update_of_ne (Ne.symm ha) ..
  | leave hg htree htasks =>
    have hne := of_decide_eq_false hfrees
    refine h.other hinv hwaits (mem_data_erase hg hne) ?_ rfl
    rw [htasks]
    exact Function.update_of_ne (Ne.symm hne) ..

/-! ## Whole runs -/

/-- Before `waiting`, which is at `w`, the task at `a` is selected at most as often as twice
the granularity goes into the timebase it is behind, and never if it is not behind. -/
def BoundedBy (cfg : Config) (w a : ULong) (waiting task : SchedulerTask) (st : Client)
    (ops : List Op) : Prop :=
  selections cfg w a st ops ≤ (waiting.timebase.toNat - task.timebase.toNat) ⌈/⌉
      (2 * SCHED_FAIR_MIN_GRANULARITY.toNat) ∧
    (waiting.timebase < task.timebase → selections cfg w a st ops = 0)

/-- The bound for a task that lives at the start of the run. -/
theorem boundedBy {ops : List Op} (haw : a ≠ w) (hinv : st.Inv)
    (hw : (waiting.timebase, w) ∈ st.sched.processTree.entries)
    (htask : st.sched.tasks a = some task)
    (hexact : Along (Client.step cfg) (fun st op _ => op.Exact st) st ops) :
    BoundedBy cfg w a waiting task st ops := by
  have hgranularity : 0 < 2 * SCHED_FAIR_MIN_GRANULARITY.toNat := by decide
  have hle : task.timebase.toNat ≤ potential a st := by
    rw [potential_of_task htask]
    exact Nat.le_add_right _ _
  have hcount : selections cfg w a st ops ≤ (waiting.timebase.toNat - task.timebase.toNat) ⌈/⌉
      (2 * SCHED_FAIR_MIN_GRANULARITY.toNat) :=
    (tally_le hgranularity (I := Races w waiting.timebase a) ⟨hinv, hw, task, htask⟩
      (fun s op t h hgood hs hends => step_races haw h hgood hs hends) hexact).trans
      (ceilDiv_mono hgranularity (Nat.sub_le_sub_left hle _))
  refine ⟨hcount, fun hlt => ?_⟩
  rw [Nat.sub_eq_zero_of_le (BitVec.le_def.mp hlt.le), zero_ceilDiv] at hcount
  exact Nat.le_zero.mp hcount

/-- While a task waits in the timeline, every other one is selected a bounded number of
times. A task that is scheduled later starts with the timebase it is inserted with. -/
theorem bounded_overtaking (cfg : Config) (st : Client)
    (hreach : Reachable (Client.step cfg) Client.start st) (w : ULong) (waiting : SchedulerTask)
    (hw : w ∈ st.sched.processTree.values) (hwaiting : st.sched.tasks w = some waiting)
    (ops : List Op) (hexact : Along (Client.step cfg) (fun st op _ => op.Exact st) st ops) :
    (∀ a task, a ≠ w → st.sched.tasks a = some task →
      BoundedBy cfg w a waiting task st ops) ∧
    ∀ before a pid prio after mid st' task, ops = before ++ .schedule a pid prio :: after →
      Along (Client.step cfg) (fun st op _ => op.selects cfg w st = false) st before →
      run (Client.step cfg) st before = some mid →
      mid.step cfg (.schedule a pid prio) = some st' → st'.sched.tasks a = some task →
      BoundedBy cfg w a waiting task st' after := by
  have hinv := reachable_inv hreach
  have hentry : (waiting.timebase, w) ∈ st.sched.processTree.entries := by
    obtain ⟨k, hk⟩ := mem_values.mp hw
    rwa [hinv.timed.keyed k w hk waiting hwaiting]
  refine ⟨fun a task haw htask => boundedBy haw hinv hentry htask hexact, ?_⟩
  rintro before a pid prio after mid st' task rfl hwait hrun hs htask
  obtain ⟨hmid, hentry'⟩ := run_waits hinv hentry hwait hrun
  have hrest := hexact.drop hrun st' hs
  have haw : a ≠ w := by
    -- the address is fresh
    rintro rfl
    obtain ⟨r, hr⟩ := hmid.owns.owned.queuedLive a (mem_values.mpr ⟨_, hentry'⟩)
    have hmoves := step_moves hmid hs
    generalize st'.sched = s', st'.out = out' at hmoves
    cases hmoves with
    | arrive hnone =>
      rw [hnone] at hr
      cases hr
  exact boundedBy haw (step_inv hmid hs) (step_waits hmid hentry' hs rfl) htask hrest.2

/-- Two tasks of normal priority, under the timebases 100 and 250. -/
def twoQueued : List Op := [.schedule 4096 7 .normal, .schedule 8192 8 .normal]

/-- The first one runs, comes back with its whole slice left, and the second one runs. -/
def firstBack : List Op :=
  [.select .blank, .reschedule 100 ⟨7, 150, 4096, 0, .normal⟩ ⟨7, 150, 4096, 0, .normal⟩,
    .select .blank]

theorem bounded_overtaking_twoQueued : ∃ st : Client,
    run (Client.step .defaultProfile) Client.start twoQueued = some st ∧
    selections .defaultProfile 8192 4096 st firstBack = 1 ∧
    selections .defaultProfile 8192 4096 st firstBack ≤ (250 - 100 : ℕ) ⌈/⌉ (100 : ℕ) := by
  have hrun : ((run (Client.step .defaultProfile) Client.start twoQueued).map fun st =>
      (st.sched.processTree.values, (st.sched.tasks 4096).map SchedulerTask.timebase,
        (st.sched.tasks 8192).map SchedulerTask.timebase,
        selections .defaultProfile 8192 4096 st firstBack)) =
      some ([4096, 8192], some 100, some 250, 1) := by
    decide +kernel
  have hout : ((run (Client.step .defaultProfile) Client.start (twoQueued ++ [.select .blank])).map
      fun st => ((st.sched.tasks 4096).map fun t => (t.timebase, t.runtime, t.inverseWeight),
        st.sched.processTree.keys, st.sched.timebaseOffset)) =
      some (some (100, 150, 1), [250], 100) := by
    decide +kernel
  obtain ⟨st, hst, hvals⟩ := Option.map_eq_some_iff.mp hrun
  simp only [Prod.mk.injEq, Option.map_eq_some_iff] at hvals
  obtain ⟨hvalues, ⟨task, htask, htime⟩, ⟨waiting, hwaiting, hwaitTime⟩, hone⟩ := hvals
  refine ⟨st, hst, hone, ?_⟩
  have hexact : Along (Client.step .defaultProfile) (fun st op _ => op.Exact st) st firstBack := by
    intro t ht
    refine ⟨trivial, fun u _ => ⟨fun task htask => ?_, fun v _ => ⟨trivial, trivial⟩⟩⟩
    have hrun' : run (Client.step .defaultProfile) Client.start (twoQueued ++ [.select .blank]) =
        some t := by
      rw [run_append, hst, Option.bind_some, run, ht]
      rfl
    rw [hrun', Option.map_some, htask, Option.map_some] at hout
    simp only [Option.some.injEq, Prod.mk.injEq] at hout
    obtain ⟨⟨htime, hruntime, hweight⟩, hkeys, hoffset⟩ := hout
    have hsum : exactSum task (task.runtime - 150) = 100 := by
      rw [exactSum, htime, hruntime, hweight]
      decide +kernel
    refine ⟨?_, 300, ?_, ?_⟩
    · rw [hsum]
      rfl
    · rw [hsum, hoffset]
      decide
    · rw [hkeys]
      decide
  have hbound := (bounded_overtaking .defaultProfile st ⟨twoQueued, hst⟩ 8192 waiting
    (by rw [hvalues]; decide) hwaiting firstBack hexact).1 4096 task (by decide) htask |>.1
  rwa [htime, hwaitTime] at hbound

end Fair

end Yarns
