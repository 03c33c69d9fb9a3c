import Yarns.Data.Rbtree

/-!
# The preemption timer of `system/preempt.c`

Pending preemptions are a tree of parameters by absolute time; an interval timer is set for
the first of them. `now` is what `yarns_time` reads in the call (the second reading, which
is only printed, is left out, and so is `preempt_param`, which nothing reads). A function
fails (`none`) where the code would spin on its lock for ever or read the first entry of an
empty tree.
-/

namespace Yarns

open Base

/-- `struct timeval`. -/
structure Timeval where
  sec : ULong
  usec : ULong
deriving DecidableEq

def convert (t : ULong) : Timeval := ⟨t / 1000, t * 1000 % 1000000⟩

/-- `setitimer` turns the timer off when both fields are zero. -/
def Timeval.armed (tv : Timeval) : Bool := tv ≠ ⟨0, 0⟩

structure Preempt where
  schedule : Rbtree
  timer : Timeval
  lock : ULong
  disableCount : ULong
  /-- `preempt_handle` is installed. -/
  handle : Bool

namespace Preempt

/-- After `preempt_init`, with the handler installed. -/
def preemptInit : Preempt := ⟨rbtreeNew, ⟨0, 0⟩, 0, 0, true⟩

variable (s : Preempt)

def lockLock : Option Preempt := if s.lock = 0 then some { s with lock := 1 } else none

def lockUnlock : Preempt := { s with lock := 0 }

def reconfigureTimer (now : ULong) : Preempt :=
  match rbtreeMin s.schedule with
  | some timestamp =>
    let t := if timestamp < now then 0 else timestamp - now
    { s with timer := convert t, schedule := rbtreeRemove s.schedule t }
  | none => { s with timer := convert 0 }

def preempt (timestamp param now : ULong) : Option Preempt :=
  s.lockLock.map fun s =>
    let s := { s with schedule := rbtreeInsert s.schedule timestamp param }
    (s.reconfigureTimer now).lockUnlock

def preemptCancel (timestamp now : ULong) : Option Preempt :=
  s.lockLock.map fun s =>
    let s := { s with schedule := rbtreeRemove s.schedule timestamp }
    (s.reconfigureTimer now).lockUnlock

/-- The signal handler, with the parameter it passes to `preempt_handle` if it does. -/
def preemptSignal (now : ULong) : Option (Option ULong × Preempt) :=
  let lockOK := s.lock = 0
  let s := if lockOK then { s with lock := 1 } else s
  if lockOK ∧ s.handle ∧ s.disableCount = 0 then do
    let min ← rbtreeMin s.schedule
    let param ← rbtreeSearch s.schedule min
    some (some param, (s.reconfigureTimer now).lockUnlock)
  else
    -- locked, or told not to preempt: again in 5 ms
    let s := { s with timer := convert 5 }
    some (none, if lockOK then s.lockUnlock else s)

/-! ## What re-arming does -/

theorem armed_convert {t : ULong} : (convert t).armed ↔ t ≠ 0 := by
  rw [Timeval.armed, decide_eq_true_iff, not_iff_not]
  constructor
  · intro h
    have hsec : t.toNat / 1000 = 0 := congrArg (fun tv => tv.sec.toNat) h
    have hlt : t.toNat < 1000 := by omega
    have hmul : t.toNat * 1000 < 1000000 := by omega
    have hmod : t.toNat * 1000 % 2 ^ 64 % 1000000 = t.toNat * 1000 := by
      rw [Nat.mod_eq_of_lt (Nat.lt_trans hmul (by decide)), Nat.mod_eq_of_lt hmul]
    have husec : t.toNat * 1000 = 0 :=
      hmod.symm.trans (congrArg (fun tv => tv.usec.toNat) h)
    have hzero : t.toNat = 0 := by omega
    exact BitVec.eq_of_toNat_eq hzero
  · rintro rfl
    decide

variable {s : Preempt} {now m : ULong}

theorem reconfigureTimer_empty (h : s.schedule.min? = none) :
    s.reconfigureTimer now = { s with timer := convert 0 } := by
  rw [reconfigureTimer, rbtreeMin, h]

/-- The timer is left off when the first preemption is due. What is taken out of the tree
is the key `t`, a time left to run, which no key is unless the clock or the first key
is 0. -/
theorem reconfigureTimer_some (now : ULong) (h : s.schedule.min? = some m) :
    ((s.reconfigureTimer now).timer.armed ↔ now < m) ∧
      (s.reconfigureTimer now).schedule =
        if now = 0 ∨ m = 0 then s.schedule.erase m else s.schedule := by
  have hmin := OrderedMap.min?_le h
  have hbelow : ∀ k, k < m → s.schedule.erase k = s.schedule := by
    intro k hk
    refine OrderedMap.erase_of_not_mem fun hmem => ?_
    obtain ⟨e, he, rfl⟩ := List.mem_map.mp hmem
    exact absurd (hmin e he) (not_le.mpr hk)
  rw [reconfigureTimer, rbtreeMin, h]
  simp only [armed_convert, rbtreeRemove]
  by_cases hlt : m < now
  · rw [if_pos hlt]
    refine ⟨by simp [le_of_lt hlt], ?_⟩
    have hnow : now ≠ 0 := by bv_omega
    by_cases hm : m = 0
    · rw [if_pos (Or.inr hm), hm]
    · rw [if_neg (not_or.mpr ⟨hnow, hm⟩)]
      exact hbelow 0 (ulong_pos hm)
  · rw [if_neg hlt]
    have hle : now ≤ m := not_lt.mp hlt
    constructor
    · bv_omega
    · by_cases hnow : now = 0
      · rw [if_pos (Or.inl hnow), hnow]
        simp
      · have hm : m ≠ 0 := by bv_omega
        rw [if_neg (not_or.mpr ⟨hnow, hm⟩)]
        exact hbelow (m - now) (by bv_omega)

theorem mem_reconfigureTimer {e : ULong × ULong}
    (he : e ∈ (s.reconfigureTimer now).schedule.entries) : e ∈ s.schedule.entries := by
  cases hmin : s.schedule.min? with
  | none => rwa [reconfigureTimer_empty hmin] at he
  | some m =>
    rw [(reconfigureTimer_some now hmin).2] at he
    split at he
    · exact (OrderedMap.mem_entries_erase.mp he).1
    · exact he

/-- Between the calls the lock is free; the handler is installed and preemption enabled. -/
structure Enabled (s : Preempt) : Prop where
  lock : s.lock = 0
  disableCount : s.disableCount = 0
  handle : s.handle = true

theorem Enabled.reconfigureTimer (h : Enabled s.lockUnlock) :
    Enabled (s.reconfigureTimer now).lockUnlock := by
  rw [Preempt.reconfigureTimer]
  split
  · exact ⟨rfl, h.disableCount, h.handle⟩
  · exact ⟨rfl, h.disableCount, h.handle⟩

theorem Enabled.lockLock (h : Enabled s) : s.lockLock = some { s with lock := 1 } :=
  if_pos h.lock

/-- An enabled handler is passed the first entry of the tree. -/
theorem Enabled.preemptSignal (h : Enabled s) (hmin : s.schedule.min? = some m)
    {param : ULong} (hparam : s.schedule.find? m = some param) :
    s.preemptSignal now =
      some (some param, (Preempt.reconfigureTimer { s with lock := 1 } now).lockUnlock) := by
  rw [Preempt.preemptSignal]
  simp only [h.lock, h.handle, h.disableCount, and_self, if_true, rbtreeMin, rbtreeSearch,
    hmin, hparam, Option.bind_eq_bind, Option.bind_some]

end Preempt

end Yarns
