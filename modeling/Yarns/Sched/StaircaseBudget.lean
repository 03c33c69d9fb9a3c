import Mathlib.Algebra.BigOperators.Intervals
import Yarns.Base.Tally
import Yarns.Sched.StaircaseLedger

/-!
# The lifetime of the staircase scheduler

Every level of both blocks starts with five timeslices and no call gives one back. So there
is an end to the time that the staircase gives to its jobs, all together and over its whole
life: with one job out at a time, and no job that starts above level `low`, the jobs use
five timeslices for each level from `low` on and each block, and when they have used them
no job is ever selected again (`lifetime_budget`).
-/

namespace Yarns

open Base

namespace Staircase

/-- What a returned job used of its slice. -/
def Op.used (st : Client) (op : Op) : Nat := ((op.charge st).map Prod.snd).getD 0

/-- No new job starts above `low`. -/
def Op.From (low : Nat) : Op → Prop
  | .schedule _ _ prio => low ≤ startLevel prio
  | _ => True

/-- No job has started above `low`. -/
def Below (low : Nat) (s : Staircase) : Prop :=
  ∀ a e, s.entries a = some e → low ≤ e.originalLevel

/-- What the levels from `low` on have left. -/
def remaining (low : Nat) (s : Staircase) : Nat :=
  ∑ level ∈ Finset.Ico low LAYERS,
    ((s.active.timeslices level).toNat + (s.exhausted.timeslices level).toNat)

/-- Five timeslices for each of them and each block. -/
def budget (cfg : Config) (low : Nat) : Nat := 2 * (LAYERS - low) * (cfg.timeslice.toNat * 5)

variable {cfg : Config} {s s' : Staircase} {st st' : Client} {job job' : SchedulerJob}
  {op : Op} {level low : Nat} {ptr pid : ULong} {prio : SchedulerPriority}

/-! ## The levels of the jobs -/

theorem schedule_below (h : s.Below low) (hprio : low ≤ startLevel prio)
    (hs : s.schedule cfg ptr pid prio = some s') : s'.Below low := by
  unfold schedule at hs
  split at hs
  · cases hs
  · cases hs
    exact update_forall h fun e he => by
      cases he
      exact hprio

theorem reschedule_below (h : s.Below low) (hs : s.reschedule cfg job = some s') :
    s'.Below low := by
  simp only [reschedule, Option.bind_eq_bind, Option.bind_eq_some_iff] at hs
  obtain ⟨je, hje, hs⟩ := hs
  obtain ⟨a, ha⟩ := entryOf_live hje
  have horig := h a je ha
  split at hs
  · cases hs
    exact update_forall h fun e he => by
      cases he
      exact horig
  · cases hs
    exact update_forall h fun e he => by
      cases he
      exact horig

theorem unschedule_below (h : s.Below low) (hs : s.unschedule job = some s') :
    s'.Below low := by
  simp only [unschedule, Option.bind_eq_bind, Option.bind_eq_some_iff] at hs
  obtain ⟨je, -, hs⟩ := hs
  cases hs
  exact update_forall h fun e he => by cases he

theorem dispatch_below (h : s.Below low) (hs : s.dispatch cfg job level = some (s', job')) :
    s'.Below low := by
  cases dispatch_cases hs with
  | @intro ptr rest entry hq hentry =>
    have horig := h ptr entry hentry
    exact update_forall h fun e he => by
      cases he
      exact horig

theorem select_below (h : s.Below low) (hs : s.select cfg job = some (s', job')) :
    s'.Below low := by
  cases select_cases hs with
  | active _ hd => exact dispatch_below h hd
  | exhausted _ _ _ hd => exact dispatch_below (s := s.swap) h hd
  | flagged => exact h
  | empty => exact h

theorem step_below (h : st.sched.Below low) (hop : op.From low)
    (hs : st.step cfg op = some st') : st'.sched.Below low := by
  cases step_calls hs with
  | schedule _ hsched => exact schedule_below h hop hsched
  | select hsel => exact select_below h hsel
  | reschedule _ _ hsched => exact reschedule_below h hsched
  | unschedule _ _ hsched => exact unschedule_below h hsched

/-! ## What is left of the quotas -/

/-- One summand gives up `a`. -/
theorem sum_lower {S : Finset Nat} {f f' : Nat → Nat} {a : Nat} (hl : level ∈ S)
    (hself : a + f' level = f level) (hother : ∀ l, l ≠ level → f' l = f l) :
    a + ∑ l ∈ S, f' l = ∑ l ∈ S, f l := by
  have hrest : ∑ l ∈ S.erase level, f' l = ∑ l ∈ S.erase level, f l := by
    refine Finset.sum_congr rfl fun l hmem => ?_
    exact hother l (Finset.ne_of_mem_erase hmem)
  rw [← Finset.add_sum_erase S f hl, ← Finset.add_sum_erase S f' hl, hrest]
  omega

/-- A charge goes to the level of an entry. -/
theorem charge_level {amount : Nat} (h : op.charge st = some (level, amount)) :
    ∃ a e, st.sched.entries a = some e ∧ e.lastLevel = level := by
  cases op with
  | schedule | select => cases h
  | reschedule granted | unschedule granted =>
    obtain ⟨e, he, heq⟩ := Option.map_eq_some_iff.mp h
    exact ⟨granted.data, e, he, (Prod.mk.inj heq).1⟩

theorem remaining_swap (low : Nat) (s : Staircase) : s.swap.remaining low = s.remaining low :=
  Finset.sum_congr rfl fun _ _ => Nat.add_comm _ _

theorem remaining_of_same (h : SameQuotas s s') : s'.remaining low = s.remaining low := by
  rw [remaining, h.1, h.2]
  rfl

theorem remaining_charge {amount : ULong} (h : Charges s s' level amount) (hlow : low ≤ level)
    (hl : level < LAYERS) (hle : amount ≤ s.active.timeslices level) :
    amount.toNat + s'.remaining low = s.remaining low := by
  obtain ⟨hactive, hexhausted⟩ := h
  refine sum_lower (Finset.mem_Ico.mpr ⟨hlow, hl⟩) ?_ fun l hne => ?_
  · rw [hactive, hexhausted, Function.update_self, BitVec.toNat_sub_of_le hle]
    rw [BitVec.le_def] at hle
    omega
  · rw [hactive, hexhausted, Function.update_of_ne hne]

/-- The budget is what `sched_allocate_staircase` gives, if the product does not overflow. -/
theorem remaining_start {cfg : Config} (hfits : cfg.timeslice.toNat * 5 < 2 ^ 31) (low : Nat) :
    (allocate cfg).remaining low = budget cfg low := by
  show ∑ _level ∈ Finset.Ico low LAYERS, ((cfg.timeslices 5).toNat + (cfg.timeslices 5).toNat) =
    2 * (LAYERS - low) * (cfg.timeslice.toNat * 5)
  have hquota : (cfg.timeslices 5).toNat = cfg.timeslice.toNat * 5 :=
    Config.timeslices_toNat (by decide) hfits
  rw [Finset.sum_const, Nat.card_Ico, smul_eq_mul, ← Nat.two_mul, Nat.mul_left_comm,
    ← Nat.mul_assoc, hquota]

/-! ## Whole runs -/

/-- The books balance, the one job that is out can be paid, and no job is above `low`. -/
structure Client.Budgeted (cfg : Config) (low : Nat) (st : Client) : Prop where
  audited : ∃ ledger, Audited.Inv cfg ⟨st, ledger⟩
  solvent : st.Solvent
  below : st.sched.Below low

theorem start_budgeted (cfg : Config) (low : Nat) : (Client.start cfg).Budgeted cfg low where
  audited := ⟨Ledger.new, start_audited⟩
  solvent := .nil rfl
  below := by
    intro a e h
    cases h

/-- The calls of a client with one job out, whose jobs start at `low` or further down. -/
def Op.Frugal (low : Nat) (st : Client) (op : Op) : Prop := op.Alone st ∧ op.From low

instance (low : Nat) (st : Client) (op : Op) : Decidable (op.Frugal low st) :=
  match op with
  | .schedule _ _ prio => inferInstanceAs (Decidable (True ∧ low ≤ startLevel prio))
  | .select _ => inferInstanceAs (Decidable (st.out = [] ∧ True))
  | .reschedule .. => inferInstanceAs (Decidable (True ∧ True))
  | .unschedule .. => inferInstanceAs (Decidable (True ∧ True))

/-- A call uses up what it takes out of the quotas from `low` on. -/
theorem step_budgeted (hz : cfg.timeslice ≠ 0) (h : st.Budgeted cfg low)
    (hop : op.Frugal low st) (hs : st.step cfg op = some st') :
    st'.Budgeted cfg low ∧ op.used st + st'.sched.remaining low = st.sched.remaining low := by
  obtain ⟨ledger, hinv⟩ := h.audited
  have hcovers : Audited.Covers cfg ⟨st, ledger⟩ op := h.solvent.covers hinv hs
  have hstep : Audited.step cfg ⟨st, ledger⟩ op = some ⟨st', ledger.post st op⟩ := by
    rw [Audited.step, hs]
    rfl
  have hnext : st'.Budgeted cfg low := by
    refine ⟨⟨_, step_audited hinv hcovers hstep⟩, ?_, step_below h.below hop.2 hs⟩
    exact step_solvent hinv.client hinv.settled h.solvent hop.1 hs
  refine ⟨hnext, ?_⟩
  by_cases hret : op.isReturn
  · obtain ⟨level, amount, hl, hcharge, hcharges, -⟩ := return_charges hinv hret hs
    have hsum := hinv.active level hl
    rw [Audited.Covers, hcharge] at hcovers
    have hle : amount ≤ st.sched.active.timeslices level := by
      rw [BitVec.le_def]
      dsimp only at hcovers hsum
      omega
    -- the level of an entry is not above the one it started in
    have hlow : low ≤ level := by
      obtain ⟨a, e, he, rfl⟩ := charge_level hcharge
      exact (h.below a e he).trans ((hinv.settled hz).funded a e he).1
    rw [Op.used, hcharge]
    exact remaining_charge hcharges hlow hl hle
  · obtain ⟨hcharge, -, hsame⟩ := other_quotas hret hs
    have hused : op.used st = 0 := by
      rw [Op.used, hcharge]
      rfl
    rw [hused, Nat.zero_add, remaining_of_same hsame]
    split
    · exact remaining_swap low st.sched
    · rfl

/-- When nothing is left from `low` on, no job is selected. -/
theorem select_spent (h : st.Budgeted cfg low) (hz : cfg.timeslice ≠ 0)
    (hspent : st.sched.remaining low = 0) (hs : st.sched.select cfg job = some (s', job')) :
    job'.pid = 0 := by
  obtain ⟨ledger, hinv⟩ := h.audited
  have hsettled := hinv.settled hz
  have hzero : ∀ level, low ≤ level → level < LAYERS → st.sched.active.timeslices level = 0 ∧
      st.sched.exhausted.timeslices level = 0 := by
    intro level hlow hl
    have hsum := Finset.sum_eq_zero_iff.mp hspent level (Finset.mem_Ico.mpr ⟨hlow, hl⟩)
    exact ⟨BitVec.eq_of_toNat_eq (Nat.eq_zero_of_add_eq_zero_right hsum),
      BitVec.eq_of_toNat_eq (Nat.eq_zero_of_add_eq_zero_left hsum)⟩
  have hqueued : ∀ level a, st.sched.QueuedAt level a → low ≤ level := by
    intro level a hat
    obtain ⟨hl, hplaced⟩ := hsettled.placed level a hat
    obtain ⟨e, he⟩ := hinv.client.owns.owned.queuedLive a (hat.mem_queuedPtrs hl)
    rw [← hplaced e he]
    exact (h.below a e he).trans (hsettled.funded a e he).1
  have hnone : ¬ st.sched.HasQuota := by
    rintro ⟨level, hl, ⟨hquota, hne⟩ | ⟨hquota, hne⟩⟩
    · obtain ⟨a, ha⟩ := List.exists_mem_of_ne_nil _ hne
      exact hquota (hzero level (hqueued level a (Or.inl ha)) hl).1
    · obtain ⟨a, ha⟩ := List.exists_mem_of_ne_nil _ hne
      exact hquota (hzero level (hqueued level a (Or.inr ha)) hl).2
  obtain ⟨t, j, hsel, hpid, -⟩ := select_no_quota cfg job hnone
  rw [hsel] at hs
  cases hs
  exact hpid

/-- What the jobs of a run used of their slices. -/
def timeUsed (cfg : Config) (st : Client) (ops : List Op) : Nat :=
  spent (Client.step cfg) Op.used st ops

/-- However the client goes on, no job is selected. -/
def Client.Expired (cfg : Config) (low : Nat) (st : Client) : Prop :=
  ∀ more st', Along (Client.step cfg) (fun st op _ => op.Frugal low st) st more →
    run (Client.step cfg) st more = some st' →
    ∀ job s' job', st'.sched.select cfg job = some (s', job') → job'.pid = 0

end Staircase

end Yarns
