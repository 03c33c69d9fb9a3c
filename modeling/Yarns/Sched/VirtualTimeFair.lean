import Yarns.Sched.FairRuns
import Yarns.Sched.VirtualTime

/-!
# Virtual time in the fair scheduler

Until a time would reach `2 ^ 64`, a round of a timeline is what `select` and `reschedule`
of the fair scheduler do with the tasks it holds (`round_select`, `round_reschedule`):
the task that `select` finds is the least one, its runtime is the slice, and it comes back
under the same key.
-/

namespace Yarns

open Base

/-- The `float` expression of `reschedule` is exact, and truncated. -/
def Config.Exact (cfg : Config) : Prop := ∀ timebase used inverseWeight,
  cfg.fairAdvance timebase used inverseWeight =
    timebase + BitVec.ofNat 64 ⌊used.toNat * inverseWeight⌋₊

theorem defaultProfile_exact : Config.defaultProfile.Exact := fun _ _ _ => rfl

namespace Fair

variable {tree : Rbtree}

/-- The search ends at the first probe that is free. -/
theorem freeKey_eq_some {fuel n : ℕ} {timebase : ULong} (hn : n < fuel)
    (hused : ∀ m < n, timebase + BitVec.ofNat 64 m ∈ tree.keys)
    (hfree : timebase + BitVec.ofNat 64 n ∉ tree.keys) :
    freeKey tree fuel timebase = some (timebase + BitVec.ofNat 64 n) := by
  induction n generalizing fuel timebase with
  | zero =>
    obtain ⟨fuel, rfl⟩ := Nat.exists_eq_add_of_lt hn
    rw [BitVec.add_zero] at hfree ⊢
    rw [Nat.zero_add, freeKey, if_neg fun hs => hfree (isSome_search.mp hs)]
  | succ n ih =>
    obtain ⟨fuel, rfl⟩ := Nat.exists_eq_add_of_lt (Nat.lt_of_le_of_lt (Nat.zero_le _) hn)
    have hfirst := hused 0 (Nat.zero_lt_succ n)
    rw [BitVec.add_zero] at hfirst
    rw [Nat.zero_add, freeKey, if_pos (isSome_search.mpr hfirst), ← probe_succ]
    refine ih (by omega) (fun m hm => ?_) ?_
    · rw [probe_succ]
      exact hused (m + 1) (by omega)
    · rw [probe_succ]
      exact hfree

end Fair

namespace Timeline

variable {ι : Type}

/-- The scheduler has the tasks of the timeline at the addresses `ptr`, in its tree but
for those of `out`. -/
structure Represents (prio : ι → SchedulerPriority) (ptr : ι → ULong) (v : Timeline ι)
    (s : Fair) (out : ι → Prop) : Prop where
  lt : ∀ i, v.timebase i < 2 ^ 64
  offset : s.timebaseOffset = BitVec.ofNat 64 v.timebaseOffset
  entries : ∀ k a, (k, a) ∈ s.processTree.entries ↔
    ∃ i, ¬ out i ∧ k = BitVec.ofNat 64 (v.timebase i) ∧ a = ptr i
  task : ∀ i, ∃ t, s.tasks (ptr i) = some t ∧ t.timebase = BitVec.ofNat 64 (v.timebase i) ∧
    t.inverseWeight = 1 / prioToWeight (prio i)

variable {prio : ι → SchedulerPriority} {ptr : ι → ULong} {v w : Timeline ι} {s : Fair}
  {cfg : Config} {i : ι} {left : ℕ}

theorem ofNat_lt {m n : ℕ} (hm : m < 2 ^ 64) (hn : n < 2 ^ 64) :
    BitVec.ofNat 64 m < BitVec.ofNat 64 n ↔ m < n := by
  rw [BitVec.lt_def, BitVec.toNat_ofNat, BitVec.toNat_ofNat, Nat.mod_eq_of_lt hm,
    Nat.mod_eq_of_lt hn]

theorem ofNat_inj {m n : ℕ} (hm : m < 2 ^ 64) (hn : n < 2 ^ 64)
    (h : BitVec.ofNat 64 m = BitVec.ofNat 64 n) : m = n := by
  have heq := congrArg BitVec.toNat h
  rwa [BitVec.toNat_ofNat, BitVec.toNat_ofNat, Nat.mod_eq_of_lt hm, Nat.mod_eq_of_lt hn] at heq

theorem ofNat_sub {m n : ℕ} (hle : n ≤ m) (hm : m < 2 ^ 64) :
    BitVec.ofNat 64 m - BitVec.ofNat 64 n = BitVec.ofNat 64 (m - n) := by
  refine BitVec.eq_of_toNat_eq ?_
  rw [BitVec.toNat_sub_of_le]
  · simp only [BitVec.toNat_ofNat]
    rw [Nat.mod_eq_of_lt hm, Nat.mod_eq_of_lt (by omega), Nat.mod_eq_of_lt (by omega)]
  · rw [BitVec.le_def]
    simp only [BitVec.toNat_ofNat]
    rwa [Nat.mod_eq_of_lt hm, Nat.mod_eq_of_lt (by omega)]

/-- The first entry of the tree is the least task. -/
theorem Represents.head {e : ULong × ULong} {rest : List (ULong × ULong)}
    (h : Represents prio ptr v s fun _ => False) (hentries : s.processTree.entries = e :: rest)
    (hi : v.Least i) : e = (BitVec.ofNat 64 (v.timebase i), ptr i) := by
  obtain ⟨k, a⟩ := e
  obtain ⟨-, hlt⟩ := Fair.entries_remove hentries
  obtain ⟨j, -, hk, ha⟩ := (h.entries k a).mp (by rw [hentries]; exact List.mem_cons_self)
  have hmem : (BitVec.ofNat 64 (v.timebase i), ptr i) ∈ s.processTree.entries :=
    (h.entries _ _).mpr ⟨i, not_false, rfl, rfl⟩
  rw [hentries] at hmem
  rcases List.mem_cons.mp hmem with heq | hrest
  · exact heq.symm
  · -- otherwise the first entry is of a task with a lesser time
    have hless := hlt _ hrest
    rw [hk, ofNat_lt (h.lt j) (h.lt i)] at hless
    exact absurd (hi j) (not_le.mpr hless)

/-- The entries of the tree after the first one are the other tasks. -/
theorem Represents.rest {rest : List (ULong × ULong)} (h : Represents prio ptr v s fun _ => False)
    (hentries : s.processTree.entries = (BitVec.ofNat 64 (v.timebase i), ptr i) :: rest)
    (k a : ULong) : (k, a) ∈ rest ↔
      ∃ j, ¬ j = i ∧ k = BitVec.ofNat 64 (v.timebase j) ∧ a = ptr j := by
  obtain ⟨-, hlt⟩ := Fair.entries_remove hentries
  constructor
  · intro hmem
    obtain ⟨j, -, hk, ha⟩ := (h.entries k a).mp (by
      rw [hentries]
      exact List.mem_cons_of_mem _ hmem)
    refine ⟨j, fun hj => ?_, hk, ha⟩
    have hless := hlt _ hmem
    rw [hk, hj] at hless
    exact lt_irrefl _ hless
  · rintro ⟨j, hj, rfl, rfl⟩
    have hmem := (h.entries (BitVec.ofNat 64 (v.timebase j)) (ptr j)).mpr
      ⟨j, not_false, rfl, rfl⟩
    rw [hentries] at hmem
    refine (List.mem_cons.mp hmem).resolve_left fun heq => hj ?_
    exact v.injective (ofNat_inj (h.lt j) (h.lt i) (Prod.mk.inj heq).1)

variable [Fintype ι] [DecidableEq ι]

theorem Represents.mem_keys {m : ℕ} (h : Represents prio ptr v s (· = i)) (hm : m < 2 ^ 64) :
    BitVec.ofNat 64 m ∈ s.processTree.keys ↔ m ∈ v.otherKeys i := by
  rw [OrderedMap.keys, List.mem_map, otherKeys, Finset.mem_image]
  constructor
  · rintro ⟨⟨k, a⟩, hmem, heq⟩
    obtain ⟨j, hj, hk, -⟩ := (h.entries k a).mp hmem
    have hjm := ofNat_inj (h.lt j) hm (hk.symm.trans heq)
    exact ⟨j, Finset.mem_erase.mpr ⟨hj, Finset.mem_univ j⟩, hjm⟩
  · rintro ⟨j, hj, rfl⟩
    exact ⟨_, (h.entries _ _).mpr ⟨j, Finset.ne_of_mem_erase hj, rfl, rfl⟩, rfl⟩

section

variable [Nontrivial ι]

theorem slice_lt (h : Represents prio ptr v s fun _ => False) (i : ι) : v.slice i < 2 ^ 64 := by
  obtain ⟨j, -, hj⟩ := v.exists_nextTime i
  have hlt := h.lt j
  unfold slice granularity
  omega

/-- The runtime that `select` computes from the rest of the tree. -/
theorem Represents.slice {rest : List (ULong × ULong)}
    (h : Represents prio ptr v s fun _ => False) (hi : v.Least i)
    (hentries : s.processTree.entries = (BitVec.ofNat 64 (v.timebase i), ptr i) :: rest) :
    Fair.slice cfg (rbtreeRemove s.processTree (BitVec.ofNat 64 (v.timebase i)))
      (BitVec.ofNat 64 (v.timebase i)) = some (BitVec.ofNat 64 (v.slice i)) := by
  obtain ⟨hremove, -⟩ := Fair.entries_remove hentries
  have hrest := h.rest hentries
  obtain ⟨j, hj, hnext⟩ := v.exists_nextTime i
  have hmem := (hrest _ _).mpr ⟨j, hj, rfl, rfl⟩
  obtain ⟨⟨key, a⟩, rest', rfl⟩ := List.exists_cons_of_ne_nil (List.ne_nil_of_mem hmem)
  obtain ⟨-, hlt⟩ := Fair.entries_remove hremove
  have hmin : key = BitVec.ofNat 64 (v.nextTime i) := by
    obtain ⟨k, hk, hek, -⟩ := (hrest key a).mp List.mem_cons_self
    rcases List.mem_cons.mp hmem with heq | hlater
    · rw [hnext, (Prod.mk.inj heq).1]
    · -- the task of the first entry would have a lesser time than the next one
      have hless := hlt _ hlater
      rw [hek, ofNat_lt (h.lt k) (h.lt j), ← hnext] at hless
      exact absurd (nextTime_le hk) (not_le.mpr hless)
  have hnextlt : v.nextTime i < 2 ^ 64 := hnext ▸ h.lt j
  have hle := timebase_le_nextTime hi
  have hgap := ofNat_sub hle hnextlt
  have hne : ¬ rbtreeEmpty
      (rbtreeRemove s.processTree (BitVec.ofNat 64 (v.timebase i))) = true := by
    rw [Fair.rbtreeEmpty_iff, hremove]
    exact List.cons_ne_nil _ _
  have hfirst : rbtreeMin (rbtreeRemove s.processTree (BitVec.ofNat 64 (v.timebase i))) =
      some key := Fair.rbtreeMin_cons hremove
  rw [Fair.slice, if_neg hne, hfirst]
  simp only [Option.bind_eq_bind, Option.bind_some, hmin, hgap, Option.some.injEq]
  have hfifty : SCHED_FAIR_MIN_GRANULARITY = BitVec.ofNat 64 granularity := rfl
  rw [hfifty, Timeline.slice]
  split
  next hshort =>
    rw [ofNat_lt (by omega) (by decide)] at hshort
    rw [max_eq_left (by omega)]
  next hlong =>
    rw [ofNat_lt (by omega) (by decide)] at hlong
    rw [max_eq_right (by omega)]

/-- The task that `select` takes out is the least one, and it gets the slice. -/
theorem round_select (h : Represents prio ptr v s fun _ => False)
    (hptr : Function.Injective ptr) (hi : v.Least i) (cfg : Config) (job : SchedulerJob) :
    ∃ s₁ pid, s.select cfg job = some (s₁, { job with
        pid, runtime := BitVec.ofNat 64 (v.slice i), data := ptr i }) ∧
      Represents prio ptr v s₁ (· = i) ∧
      ∀ t, s₁.tasks (ptr i) = some t → t.runtime = BitVec.ofNat 64 (v.slice i) := by
  have hmem := (h.entries _ _).mpr ⟨i, not_false, rfl, rfl⟩
  obtain ⟨e, rest, hentries⟩ := List.exists_cons_of_ne_nil (List.ne_nil_of_mem hmem)
  rw [h.head hentries hi] at hentries
  obtain ⟨task, htask, htime, hweight⟩ := h.task i
  obtain ⟨hremove, -⟩ := Fair.entries_remove hentries
  refine ⟨_, _, Fair.select_cons cfg job hentries htask (h.slice hi hentries),
    ⟨h.lt, h.offset, fun k a => ?_, fun j => ?_⟩, fun t ht => ?_⟩
  · dsimp only
    rw [hremove]
    exact h.rest hentries k a
  · dsimp only
    by_cases hj : j = i
    · subst hj
      exact ⟨_, Function.update_self .., htime, hweight⟩
    · rw [Function.update_of_ne fun heq => hj (hptr heq)]
      exact h.task j
  · dsimp only at ht
    rw [Function.update_self] at ht
    rw [← Option.some.inj ht]

end

/-- The key that `timeline_insert` finds, while it is below `2 ^ 64`. -/
theorem Represents.freeKey (h : Represents prio ptr v s (· = i)) {timebase : ℕ}
    (hlt : v.freeKey i timebase < 2 ^ 64) :
    Fair.freeKey s.processTree (rbtreeSize s.processTree + 1) (BitVec.ofNat 64 timebase) =
      some (BitVec.ofNat 64 (v.freeKey i timebase)) := by
  obtain ⟨hle, hfree⟩ := Nat.find_spec (v.exists_freeKey i timebase)
  obtain ⟨n, hn⟩ := Nat.exists_eq_add_of_le hle
  have hkey : v.freeKey i timebase = timebase + n := hn
  rw [hkey] at hlt
  have hused : ∀ m < n, BitVec.ofNat 64 (timebase + m) ∈ s.processTree.keys := by
    intro m hm
    rw [h.mem_keys (by omega)]
    by_contra hnot
    have hfirst := Nat.find_min (v.exists_freeKey i timebase) (m := timebase + m) (by omega)
    exact hfirst ⟨by omega, hnot⟩
  -- the probes are distinct keys of the tree
  have hnd : ((List.range n).map fun m => BitVec.ofNat 64 (timebase + m)).Nodup := by
    refine List.Nodup.map_on (fun a ha b hb heq => ?_) List.nodup_range
    rw [List.mem_range] at ha hb
    have hab := ofNat_inj (by omega) (by omega) heq
    omega
  have hsub : ((List.range n).map fun m => BitVec.ofNat 64 (timebase + m)) ⊆
      s.processTree.keys := by
    intro k hk
    obtain ⟨m, hm, rfl⟩ := List.mem_map.mp hk
    exact hused m (List.mem_range.mp hm)
  have hsize := (hnd.subperm hsub).length_le
  rw [List.length_map, List.length_range, OrderedMap.keys, List.length_map] at hsize
  rw [hkey, BitVec.ofNat_add]
  refine Fair.freeKey_eq_some (Nat.lt_succ_of_le hsize) (fun m hm => ?_) ?_
  · rw [← BitVec.ofNat_add]
    exact hused m hm
  · rw [← BitVec.ofNat_add, h.mem_keys hlt, ← hkey]
    exact hfree

/-- The task that is out goes back under a key that is free. -/
theorem Represents.insert {task : SchedulerTask} {timebase : ℕ}
    (h : Represents prio ptr v s (· = i)) (hptr : Function.Injective ptr)
    (hweight : task.inverseWeight = 1 / prioToWeight (prio i))
    (hlt : (v.insert i timebase).timebase i < 2 ^ 64)
    (hnew : BitVec.ofNat 64 (v.insertKey i timebase) ∉ s.processTree.keys) :
    Represents prio ptr (v.insert i timebase) {
      processTree := rbtreeInsert s.processTree (BitVec.ofNat 64 (v.insertKey i timebase)) (ptr i)
      timebaseOffset := 0
      tasks := Function.update s.tasks (ptr i) (some { task with
        timebase := BitVec.ofNat 64 (v.insertKey i timebase) }) } fun _ => False where
  lt := by
    intro j
    by_cases hj : j = i
    · rw [hj]
      exact hlt
    · rw [insert_timebase, Function.update_of_ne hj]
      exact h.lt j
  offset := rfl
  entries := by
    intro k a
    dsimp only
    rw [Fair.mem_insert hnew, h.entries, insert_timebase]
    constructor
    · rintro (⟨j, hj, hk, ha⟩ | ⟨hk, ha⟩)
      · exact ⟨j, not_false, by rw [Function.update_of_ne hj, hk], ha⟩
      · exact ⟨i, not_false, by rw [Function.update_self, hk], ha⟩
    · rintro ⟨j, -, hk, ha⟩
      by_cases hj : j = i
      · rw [hj, Function.update_self] at hk
        exact Or.inr ⟨hk, by rw [ha, hj]⟩
      · rw [Function.update_of_ne hj] at hk
        exact Or.inl ⟨j, hj, hk, ha⟩
  task := by
    intro j
    dsimp only
    rw [insert_timebase]
    by_cases hj : j = i
    · rw [hj, Function.update_self, Function.update_self]
      exact ⟨_, rfl, rfl, hweight⟩
    · rw [Function.update_of_ne hj, Function.update_of_ne fun heq => hj (hptr heq)]
      exact h.task j

variable [Nontrivial ι]

/-- The task comes back with the key that the timeline gives it. -/
theorem round_reschedule (hexact : cfg.Exact) (h : Represents prio ptr v s (· = i))
    (hptr : Function.Injective ptr) (h0 : ptr i ≠ 0) (hslice : v.slice i < 2 ^ 64)
    (hgrant : ∀ t, s.tasks (ptr i) = some t → t.runtime = BitVec.ofNat 64 (v.slice i))
    (hround : round prio v (i, left) = some w) (hlt : w.timebase i < 2 ^ 64)
    (job : SchedulerJob) (hdata : job.data = ptr i) (hleft : job.runtime = BitVec.ofNat 64 left) :
    ∃ s₂, s.reschedule cfg job = some s₂ ∧ Represents prio ptr w s₂ fun _ => False := by
  unfold round at hround
  split at hround
  next hguard =>
    obtain rfl := Option.some.inj hround
    obtain ⟨task, htask, htime, hweight⟩ := h.task i
    have hleft64 : left < 2 ^ 64 := Nat.lt_of_le_of_lt hguard.2 hslice
    have hused : task.runtime - job.runtime = BitVec.ofNat 64 (v.slice i - left) := by
      rw [hgrant task htask, hleft, ofNat_sub hguard.2 hslice]
    have hnot : ¬ task.runtime < job.runtime := by
      rw [hgrant task htask, hleft, ofNat_lt hslice hleft64]
      exact not_lt.mpr hguard.2
    have hadvance : cfg.fairAdvance task.timebase (task.runtime - job.runtime)
        task.inverseWeight = BitVec.ofNat 64 (v.advance i prio (v.slice i - left)) := by
      have hsub : v.slice i - left < 2 ^ 64 := by omega
      rw [hexact, hused, htime, hweight, BitVec.toNat_ofNat, Nat.mod_eq_of_lt hsub,
        ← BitVec.ofNat_add]
      rfl
    have hlt' := hlt
    rw [insert_timebase, Function.update_self] at hlt'
    have hfree := h.freeKey hlt'
    rw [BitVec.ofNat_add, BitVec.ofNat_add, BitVec.ofNat_add] at hfree
    have hnew : BitVec.ofNat 64 (v.insertKey i (v.advance i prio (v.slice i - left))) ∉
        s.processTree.keys := Fair.freeKey_spec hfree
    have hgran : SCHED_FAIR_MIN_GRANULARITY = BitVec.ofNat 64 granularity := rfl
    have hresched : s.reschedule cfg job = some {
        processTree := rbtreeInsert s.processTree
          (BitVec.ofNat 64 (v.insertKey i (v.advance i prio (v.slice i - left)))) (ptr i)
        timebaseOffset := 0
        tasks := Function.update s.tasks (ptr i) (some { task with
          timebase :=
            BitVec.ofNat 64 (v.insertKey i (v.advance i prio (v.slice i - left))) }) } := by
      rw [Fair.reschedule, hdata, if_neg h0, htask]
      simp only [Option.bind_eq_bind, Option.bind_some, if_neg hnot, hadvance,
        Fair.timelineInsert, h.offset, hgran, hfree]
      rfl
    exact ⟨_, hresched, h.insert hptr hweight hlt hnew⟩
  · cases hround

/-- A round of the timeline, in the scheduler: until the new time reaches `2 ^ 64`, `select`
grants the least task its slice, and `reschedule` with what is left gives the timeline that
comes next. -/
theorem round_in_fair (hexact : cfg.Exact) (h : Represents prio ptr v s fun _ => False)
    (hptr : Function.Injective ptr) (h0 : ∀ i, ptr i ≠ 0)
    (hround : round prio v (i, left) = some w) (hlt : w.timebase i < 2 ^ 64)
    (job : SchedulerJob) :
    ∃ s₁ s₂ granted, s.select cfg job = some (s₁, granted) ∧ granted.data = ptr i ∧
      granted.runtime.toNat = v.slice i ∧
      s₁.reschedule cfg { granted with runtime := BitVec.ofNat 64 left } = some s₂ ∧
      Represents prio ptr w s₂ fun _ => False := by
  have hslice := slice_lt h i
  have hleast : v.Least i := by
    unfold round at hround
    split at hround
    · exact And.left ‹_›
    · cases hround
  obtain ⟨s₁, pid, hselect, h₁, hgrant⟩ := round_select h hptr hleast cfg job
  obtain ⟨s₂, hresched, h₂⟩ := round_reschedule hexact h₁ hptr (h0 i) hslice hgrant hround hlt
    { job with pid, runtime := BitVec.ofNat 64 left, data := ptr i } rfl rfl
  refine ⟨s₁, s₂, _, hselect, rfl, ?_, hresched, h₂⟩
  rw [BitVec.toNat_ofNat, Nat.mod_eq_of_lt hslice]

end Timeline

end Yarns
