import Yarns.Base.Run
import Yarns.Sys.Preempt

/-!
# Runs of the preemption timer

Calls of `preempt` and `preempt_cancel` and expiries of the timer, in any order, each with
the clock it reads. Beside the state of the code a run keeps what became of the pairs that
were armed: a pair is pending until the call cancels it or the handler is passed it.

`Sound` is what the timer is for. Each operation ends by re-arming the timer, so it leaves a
sound state under one condition on what re-arming finds (`Rearms`): the clock, the tree and
the pairs still pending.
-/

namespace Yarns.Preempt

open Base

structure Client where
  preempt : Preempt
  /-- Pairs of a timestamp and a parameter. -/
  armed : List (ULong × ULong)
  cancelled : List (ULong × ULong)
  passed : List (ULong × ULong)
  pending : List (ULong × ULong)

inductive PreemptOp
  | preempt (timestamp param now : ULong)
  | cancel (timestamp now : ULong)
  | expire (now : ULong)

namespace Client

def start : Client := ⟨preemptInit, [], [], [], []⟩

/-- The handler was passed `param` for the first entry of the tree. -/
def pass (c : Client) (param : Option ULong) (p : Preempt) : Client :=
  match param, rbtreeMin c.preempt.schedule with
  | some param, some min =>
    { c with
      preempt := p
      passed := c.passed ++ [(min, param)]
      pending := c.pending.erase (min, param) }
  | _, _ => { c with preempt := p }

/-- Only a timer that is set expires, and it is off then. -/
def step (c : Client) : PreemptOp → Option Client
  | .preempt timestamp param now =>
    (c.preempt.preempt timestamp param now).map fun p =>
      { c with
        preempt := p
        armed := (timestamp, param) :: c.armed
        pending := (timestamp, param) :: c.pending }
  | .cancel timestamp now =>
    (c.preempt.preemptCancel timestamp now).map fun p =>
      { c with
        preempt := p
        cancelled := c.pending.filter (·.1 = timestamp) ++ c.cancelled
        pending := c.pending.filter (·.1 ≠ timestamp) }
  | .expire now =>
    if c.preempt.timer.armed then
      (Preempt.preemptSignal { c.preempt with timer := ⟨0, 0⟩ } now).map fun r => c.pass r.1 r.2
    else none

/-- Each armed pair was passed once or cancelled once or is pending. The pending pairs are
in the tree, the timer is set exactly while there are some, and the first time in the tree,
which the next expiry takes, is that of one of them. -/
structure Sound (c : Client) : Prop where
  accounted : (c.passed ++ c.cancelled ++ c.pending).Perm c.armed
  nodup : c.pending.Nodup
  scheduled : ∀ p ∈ c.pending, p ∈ c.preempt.schedule.entries
  armed : c.preempt.timer.armed ↔ c.pending ≠ []
  first : c.pending ≠ [] → ∃ m ∈ c.preempt.schedule.min?, m ∈ c.pending.map Prod.fst

/-- The state after an operation is sound, and an expiry passed the pending pair with the
least timestamp. -/
def Delivers (c : Client) (op : PreemptOp) (t : Client) : Prop :=
  t.Sound ∧
    match op with
    | .expire _ => ∃ p ∈ c.pending, (∀ p' ∈ c.pending, p.1 ≤ p'.1) ∧
      t.passed = c.passed ++ [p] ∧ t.pending = c.pending.erase p
    | .preempt _ _ _ | .cancel _ _ => t.passed = c.passed

/-- Re-arming at clock `now` with `pending` left. With nothing left, the first time in the
tree must be due already. Otherwise it must lie ahead and be that of a pending pair; at
clock 0, where re-arming takes the first entry out of the tree, the second one must. -/
def Rearms (tree : Rbtree) (pending : List (ULong × ULong)) (now : ULong) : Prop :=
  match tree.min? with
  | none => pending = []
  | some m =>
    if pending = [] then m ≤ now
    else now < m ∧
      if now = 0 then
        m ∉ pending.map Prod.fst ∧ (tree.erase m).min?.any (· ∈ pending.map Prod.fst)
      else m ∈ pending.map Prod.fst

instance (tree : Rbtree) (pending : List (ULong × ULong)) (now : ULong) :
    Decidable (Rearms tree pending now) := by
  unfold Rearms
  split <;> infer_instance

/-- No other preemption is scheduled at the timestamp of `p`. -/
def Unscheduled (c : Client) (p : ULong × ULong) : Prop :=
  ∀ e ∈ c.preempt.schedule.entries, e.1 = p.1 → e = p ∧ p ∉ c.pending

/-- What an operation needs of the state before it and of the clock. -/
def Good (c : Client) : PreemptOp → Prop
  | .preempt timestamp param now =>
    c.Unscheduled (timestamp, param) ∧
      Rearms (rbtreeInsert c.preempt.schedule timestamp param)
        ((timestamp, param) :: c.pending) now
  | .cancel timestamp now =>
    Rearms (rbtreeRemove c.preempt.schedule timestamp)
      (c.pending.filter (·.1 ≠ timestamp)) now
  | .expire now =>
    ∀ p ∈ c.preempt.schedule.entries.head?, Rearms c.preempt.schedule (c.pending.erase p) now

instance (c : Client) (p : ULong × ULong) : Decidable (c.Unscheduled p) :=
  List.decidableBAll (fun e : ULong × ULong => e.1 = p.1 → e = p ∧ p ∉ c.pending) _

instance (c : Client) : ∀ op, Decidable (c.Good op)
  | .preempt _ _ _ => inferInstanceAs (Decidable (_ ∧ _))
  | .cancel _ _ => inferInstanceAs (Decidable (Rearms _ _ _))
  | .expire now => Option.decidableForallMem (p := fun q =>
    Rearms c.preempt.schedule (c.pending.erase q) now) _

variable {c t : Client} {s : Preempt} {now : ULong} {pending : List (ULong × ULong)}

theorem enabled_start : start.preempt.Enabled := ⟨rfl, rfl, rfl⟩

theorem sound_start : start.Sound where
  accounted := .refl _
  nodup := .nil
  scheduled := by simp [start]
  armed := by decide
  first := by simp [start]

/-- Where the first time of the tree lies ahead, re-arming keeps the pending pairs in the
tree and one of them first exactly where `Rearms` says so. At clock 0 it takes the first
entry out, otherwise it leaves the tree alone. -/
theorem rearmed_tree {m : ULong} (hmin : s.schedule.min? = some m) (hlt : now < m)
    (hscheduled : ∀ p ∈ pending, p ∈ s.schedule.entries) :
    ((∀ p ∈ pending, p ∈ (s.reconfigureTimer now).schedule.entries) ∧
        ∃ m ∈ (s.reconfigureTimer now).schedule.min?, m ∈ pending.map Prod.fst) ↔
      if now = 0 then
        m ∉ pending.map Prod.fst ∧
          (s.schedule.erase m).min?.any (· ∈ pending.map Prod.fst)
      else m ∈ pending.map Prod.fst := by
  have hm : m ≠ 0 := by bv_omega
  rw [(reconfigureTimer_some now hmin).2]
  by_cases hzero : now = 0
  · rw [if_pos (Or.inl hzero), if_pos hzero, Option.any_eq_true]
    refine and_congr ⟨fun h hmem => ?_, fun h p hp => ?_⟩ ?_
    · obtain ⟨p, hp, rfl⟩ := List.mem_map.mp hmem
      exact (OrderedMap.mem_entries_erase.mp (h p hp)).2 rfl
    · refine OrderedMap.mem_entries_erase.mpr ⟨hscheduled p hp, ?_⟩
      exact fun hpm => h (List.mem_map.mpr ⟨p, hp, hpm⟩)
    · simp only [Option.mem_def, decide_eq_true_eq]
  · rw [if_neg (not_or.mpr ⟨hzero, hm⟩), if_neg hzero]
    constructor
    · rintro ⟨-, m', hm', hmem⟩
      obtain rfl := Option.some.inj (hmin.symm.trans hm')
      exact hmem
    · exact fun hmem => ⟨hscheduled, m, hmin, hmem⟩

/-- Re-arming leaves a sound state exactly where `Rearms` holds. -/
theorem sound_rearm {armed cancelled passed : List (ULong × ULong)}
    (haccounted : (passed ++ cancelled ++ pending).Perm armed) (hnodup : pending.Nodup)
    (hscheduled : ∀ p ∈ pending, p ∈ s.schedule.entries) :
    Sound ⟨(s.reconfigureTimer now).lockUnlock, armed, cancelled, passed, pending⟩ ↔
      Rearms s.schedule pending now := by
  cases hmin : s.schedule.min? with
  | none =>
    have hentries := OrderedMap.min?_eq_none.mp hmin
    have hpending : pending = [] := by
      refine List.eq_nil_iff_forall_not_mem.mpr fun p hp => ?_
      have := hscheduled p hp
      rw [hentries] at this
      cases this
    subst hpending
    rw [reconfigureTimer_empty hmin, Rearms, hmin]
    refine ⟨fun _ => rfl, fun _ => ⟨haccounted, hnodup, by simp, ?_, by simp⟩⟩
    exact ⟨fun h => absurd rfl (armed_convert.mp h), fun h => absurd rfl h⟩
  | some m =>
    obtain ⟨harmed, -⟩ := reconfigureTimer_some now hmin
    by_cases hpending : pending = []
    · simp only [Rearms, hmin, if_pos hpending]
      constructor
      · intro h
        by_contra hlt
        exact (h.armed.mp (harmed.mpr (not_le.mp hlt))) hpending
      · intro h
        refine ⟨haccounted, hnodup, by simp [hpending], ?_, fun hne => absurd hpending hne⟩
        refine ⟨fun hon => ?_, fun hne => absurd hpending hne⟩
        exact absurd (harmed.mp hon) (not_lt.mpr h)
    · simp only [Rearms, hmin, if_neg hpending]
      constructor
      · intro h
        have hlt : now < m := harmed.mp (h.armed.mpr hpending)
        exact ⟨hlt, (rearmed_tree hmin hlt hscheduled).mp ⟨h.scheduled, h.first hpending⟩⟩
      · rintro ⟨hlt, hcase⟩
        obtain ⟨hkept, hfirst⟩ := (rearmed_tree hmin hlt hscheduled).mpr hcase
        exact ⟨haccounted, hnodup, hkept, ⟨fun _ => hpending, fun _ => harmed.mpr hlt⟩,
          fun _ => hfirst⟩

/-- The pair at the front of the tree is the pending one with the least timestamp. -/
theorem Sound.front (h : c.Sound) (hne : c.pending ≠ []) : ∃ p ∈ c.pending,
    (∀ p' ∈ c.pending, p.1 ≤ p'.1) ∧ c.preempt.schedule.entries.head? = some p ∧
      c.preempt.schedule.min? = some p.1 ∧ c.preempt.schedule.find? p.1 = some p.2 := by
  obtain ⟨m, hm, hmem⟩ := h.first hne
  obtain ⟨p, hp, rfl⟩ := List.mem_map.mp hmem
  obtain ⟨v, rest, hentries, -, hfind, -⟩ := OrderedMap.min?_eq_some hm
  have hfind' := OrderedMap.find?_eq_some.mpr (h.scheduled p hp)
  have hv : p.2 = v := Option.some.inj (hfind'.symm.trans hfind)
  refine ⟨p, hp, fun p' hp' => OrderedMap.min?_le hm p' (h.scheduled p' hp'), ?_, hm, hfind'⟩
  rw [hentries, List.head?_cons, ← hv]

/-- An armed pair is new to the tree exactly where nothing else was scheduled then. -/
theorem Sound.unscheduled_iff (h : c.Sound) (p : ULong × ULong) :
    (p :: c.pending).Nodup ∧
      (∀ q ∈ p :: c.pending, q ∈ (c.preempt.schedule.insert p.1 p.2).entries) ↔
    c.Unscheduled p := by
  constructor
  · rintro ⟨hnodup, hmem⟩ e he hep
    have hkey : p.1 ∈ c.preempt.schedule.keys := List.mem_map.mpr ⟨e, he, hep⟩
    have hp := hmem p List.mem_cons_self
    rw [OrderedMap.insert_of_mem _ hkey] at hp
    exact ⟨List.inj_on_of_nodup_map c.preempt.schedule.keys_nodup he hp hep,
      (List.nodup_cons.mp hnodup).1⟩
  · intro hfree
    have hp : p ∉ c.pending := fun hp => (hfree p (h.scheduled p hp) rfl).2 hp
    refine ⟨List.nodup_cons.mpr ⟨hp, h.nodup⟩, fun q hq => ?_⟩
    by_cases hkey : p.1 ∈ c.preempt.schedule.keys
    · rw [OrderedMap.insert_of_mem _ hkey]
      rcases List.mem_cons.mp hq with rfl | hq
      · obtain ⟨e, he, hep⟩ := List.mem_map.mp hkey
        exact (hfree e he hep).1 ▸ he
      · exact h.scheduled q hq
    · rw [(OrderedMap.entries_insert p.2 hkey).mem_iff]
      rcases List.mem_cons.mp hq with rfl | hq
      · exact List.mem_cons_self
      · exact List.mem_cons_of_mem _ (h.scheduled q hq)

/-- Which state an operation leaves, in terms of re-arming. -/
def After (c : Client) : PreemptOp → Client → Prop
  | .preempt timestamp param now, t =>
    t = ⟨(reconfigureTimer { c.preempt with
        lock := 1
        schedule := c.preempt.schedule.insert timestamp param } now).lockUnlock,
      (timestamp, param) :: c.armed, c.cancelled, c.passed, (timestamp, param) :: c.pending⟩
  | .cancel timestamp now, t =>
    t = ⟨(reconfigureTimer { c.preempt with
        lock := 1
        schedule := c.preempt.schedule.erase timestamp } now).lockUnlock,
      c.armed, c.pending.filter (·.1 = timestamp) ++ c.cancelled, c.passed,
      c.pending.filter (·.1 ≠ timestamp)⟩
  | .expire now, t =>
    ∃ p ∈ c.pending, (∀ p' ∈ c.pending, p.1 ≤ p'.1) ∧
      c.preempt.schedule.entries.head? = some p ∧
      t = ⟨(reconfigureTimer { c.preempt with timer := ⟨0, 0⟩, lock := 1 } now).lockUnlock,
        c.armed, c.cancelled, c.passed ++ [p], c.pending.erase p⟩

theorem step_after (hs : c.Sound) (he : c.preempt.Enabled) {op : PreemptOp}
    (h : c.step op = some t) : t.preempt.Enabled ∧ c.After op t := by
  cases op with
  | preempt timestamp param now =>
    rw [step, Preempt.preempt, he.lockLock] at h
    obtain rfl := Option.some.inj h
    exact ⟨Enabled.reconfigureTimer ⟨rfl, he.disableCount, he.handle⟩, rfl⟩
  | cancel timestamp now =>
    rw [step, preemptCancel, he.lockLock] at h
    obtain rfl := Option.some.inj h
    exact ⟨Enabled.reconfigureTimer ⟨rfl, he.disableCount, he.handle⟩, rfl⟩
  | expire now =>
    rw [step] at h
    split at h
    · rename_i hon
      obtain ⟨p, hp, hle, hhead, hmin, hfind⟩ := hs.front (hs.armed.mp hon)
      have he' : Enabled { c.preempt with timer := ⟨0, 0⟩ } :=
        ⟨he.lock, he.disableCount, he.handle⟩
      rw [he'.preemptSignal hmin hfind, Option.map_some] at h
      obtain rfl := Option.some.inj h
      simp only [pass, rbtreeMin, hmin]
      exact ⟨Enabled.reconfigureTimer ⟨rfl, he.disableCount, he.handle⟩, p, hp, hle, hhead,
        rfl⟩
    · cases h

/-- From a sound state an operation does what the timer is for exactly where the condition
holds. -/
theorem delivers_iff_good (hs : c.Sound) (he : c.preempt.Enabled) {op : PreemptOp}
    (h : c.step op = some t) : c.Delivers op t ↔ c.Good op := by
  obtain ⟨-, hafter⟩ := step_after hs he h
  cases op with
  | preempt timestamp param now =>
    obtain rfl := hafter
    have haccounted : (c.passed ++ c.cancelled ++ (timestamp, param) :: c.pending).Perm
        ((timestamp, param) :: c.armed) :=
      List.perm_middle.trans (hs.accounted.cons _)
    rw [Delivers, Good, and_iff_left rfl, ← hs.unscheduled_iff]
    constructor
    · intro ht
      have hsub := fun q hq => mem_reconfigureTimer (ht.scheduled q hq)
      exact ⟨⟨ht.nodup, hsub⟩, (sound_rearm haccounted ht.nodup hsub).mp ht⟩
    · rintro ⟨⟨hnodup, hsub⟩, hrearm⟩
      exact (sound_rearm haccounted hnodup hsub).mpr hrearm
  | cancel timestamp now =>
    obtain rfl := hafter
    rw [Delivers, Good, and_iff_left rfl]
    refine sound_rearm ?_ (hs.nodup.filter _) ?_
    · have hsplit : (c.pending.filter (·.1 = timestamp) ++
          c.pending.filter (·.1 ≠ timestamp)).Perm c.pending := by
        simpa only [ne_eq, decide_not] using List.filter_append_perm _ c.pending
      have haccounted := hs.accounted
      rw [List.perm_iff_count] at haccounted hsplit ⊢
      intro q
      have h1 := haccounted q
      have h2 := hsplit q
      simp only [List.count_append] at h1 h2 ⊢
      omega
    · intro p hp
      obtain ⟨hp, hpt⟩ := List.mem_filter.mp hp
      exact OrderedMap.mem_entries_erase.mpr ⟨hs.scheduled p hp, of_decide_eq_true hpt⟩
  | expire now =>
    obtain ⟨p, hp, hle, hhead, rfl⟩ := hafter
    have hrearm : Sound ⟨(reconfigureTimer { c.preempt with timer := ⟨0, 0⟩, lock := 1 }
          now).lockUnlock, c.armed, c.cancelled, c.passed ++ [p], c.pending.erase p⟩ ↔
        Rearms c.preempt.schedule (c.pending.erase p) now := by
      refine sound_rearm ?_ (hs.nodup.erase p) fun q hq =>
        hs.scheduled q (List.mem_of_mem_erase hq)
      have haccounted := hs.accounted
      have hsplit := List.perm_cons_erase hp
      rw [List.perm_iff_count] at haccounted hsplit ⊢
      intro q
      have h1 := haccounted q
      have h2 := hsplit q
      simp only [List.count_append, List.count_cons, List.count_nil] at h1 h2 ⊢
      omega
    rw [Delivers, Good, hrearm, hhead]
    constructor
    · rintro ⟨hr, -⟩ q hq
      obtain rfl := Option.some.inj hq
      exact hr
    · intro hr
      exact ⟨hr p rfl, p, hp, hle, rfl, rfl⟩

/-- In every run, whatever the clock reads: each armed pair that is not cancelled is passed
to the handler exactly once, in the order of the timestamps, and none is lost, exactly where
every operation of the run meets the condition. -/
theorem delivery_iff (ops : List PreemptOp) :
    Along step Delivers start ops ↔ Along step (fun c op _ => c.Good op) start ops := by
  refine along_iff_of_invariant (I := fun c => c.Sound ∧ c.preempt.Enabled)
    ⟨sound_start, enabled_start⟩ ?_ ?_
  · rintro c op t ⟨hs, he⟩ h
    exact delivers_iff_good hs he h
  · rintro c op t ⟨hs, he⟩ hgood h
    exact ⟨((delivers_iff_good hs he h).mpr hgood).1, (step_after hs he h).1⟩

/-- Two pairs, one cancelled in time and the other passed when it was due. -/
example : Along step (fun c op _ => c.Good op) start
    [.preempt 10 1 5, .preempt 20 2 6, .cancel 10 7, .expire 20] := by decide

/-- Two pairs at different times: the expiry for the first leaves it in the tree, overdue,
so the timer is off with the second pending. -/
theorem second_never_delivered : ¬ ∀ ops, Along step Delivers start ops := by
  intro h
  obtain ⟨c, t, ⟨hsound, -⟩, hobserved⟩ := along_observed
    (f := fun _ t => (t.preempt.timer.armed, t.pending))
    (h ([.preempt 10 1 5, .preempt 20 2 6] ++ [.expire 10]))
    (x := (false, [(20, 2)])) (by decide)
  obtain ⟨htimer, hpending⟩ := Prod.mk.inj hobserved
  have hon := hsound.armed.mpr (by rw [hpending]; simp)
  rw [htimer] at hon
  cases hon

end Client

end Yarns.Preempt
