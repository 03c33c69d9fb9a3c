import Mathlib.Data.List.Pairwise
import Yarns.Lib.WaitRegister

/-!
# The clock and timed suspension

`yarns_time` of `lib/timer.c` counts milliseconds from its first call on, and
`yarn_suspend_on_time` adds its microseconds to it. So the dependency is not due for a
thousand times as long as it should be: it is due in time exactly if the first reading that
has to find it due is as many milliseconds after the call, and for all orders of readings
only with at most two microseconds (`honoursDuration_iff`).
-/

namespace Yarns

/-- What `gettimeofday` gives; the milliseconds fit a `long`. -/
structure ClockReading where
  sec : Nat
  usec : Nat
  usec_lt : usec < 1000000
  millis_lt : usec / 1000 + sec * 1000 < 2 ^ 63

namespace ClockReading

def millis (r : ClockReading) : Nat := r.usec / 1000 + r.sec * 1000

def micros (r : ClockReading) : Nat := r.sec * 1000000 + r.usec

/-- The reading at so many microseconds. -/
def ofMicros (m : Nat) (h : m < 2 ^ 63 * 1000) : ClockReading where
  sec := m / 1000000
  usec := m % 1000000
  usec_lt := Nat.mod_lt m (by decide)
  millis_lt := by omega

theorem millis_eq (r : ClockReading) : r.millis = r.micros / 1000 := by
  rw [millis, micros]
  omega

theorem micros_lt (r : ClockReading) : r.micros < 2 ^ 63 * 1000 := by
  have h := r.millis_lt
  rw [micros]
  omega

theorem micros_ofMicros {m : Nat} (h : m < 2 ^ 63 * 1000) : (ofMicros m h).micros = m := by
  show m / 1000000 * 1000000 + m % 1000000 = m
  omega

end ClockReading

/-- The clock does not go back. -/
abbrev NonDecreasing (readings : List ClockReading) : Prop :=
  readings.Pairwise fun r s => r.micros ≤ s.micros

/-- The two static variables of `timer.c`. -/
structure Timer where
  initted : Bool
  initialTime : ULong

namespace Timer

def start : Timer := ⟨false, 0⟩

/-- `yarns_time` behind the initialisation. -/
def elapsed (timer : Timer) (now : ClockReading) : ULong :=
  BitVec.ofNat 64 now.millis - timer.initialTime

/-- The first call reads the clock twice; `nested` is the reading of the call inside. -/
def yarnsTime (timer : Timer) (nested now : ClockReading) : Timer × ULong :=
  let timer := if timer.initted then timer else ⟨true, elapsed timer nested⟩
  (timer, timer.elapsed now)

/-- The timer after calls with these readings. -/
def after (calls : List (ClockReading × ClockReading)) : Timer :=
  calls.foldl (fun timer call => (timer.yarnsTime call.1 call.2).1) start

/-- The dependency that `yarn_suspend_on_time` registers. -/
def suspendOnTime (timer : Timer) (nested now : ClockReading) (usecs : ULong) : DependencyData :=
  .targetTime ((timer.yarnsTime nested now).2 + usecs)

/-- The readings of the calls, in their order. -/
def readings (calls : List (ClockReading × ClockReading)) : List ClockReading :=
  calls.flatMap fun call => [call.1, call.2]

/-- The reading that times are counted from. -/
def origin (calls : List (ClockReading × ClockReading)) (nested : ClockReading) : ClockReading :=
  (calls.head?.map Prod.fst).getD nested

variable {timer : Timer} {calls : List (ClockReading × ClockReading)}
  {nested now r : ClockReading} {later : List ClockReading} {usecs : ULong}

theorem yarnsTime_initted (h : timer.initted = true) :
    timer.yarnsTime nested now = (timer, timer.elapsed now) := by
  rw [yarnsTime, if_pos h]

theorem foldl_initted (h : timer.initted = true) :
    calls.foldl (fun timer call => (timer.yarnsTime call.1 call.2).1) timer = timer := by
  induction calls with
  | nil => rfl
  | cons call calls ih =>
    rw [List.foldl_cons, yarnsTime_initted h]
    exact ih

/-- Every call counts from the first reading of all. -/
theorem after_yarnsTime (calls : List (ClockReading × ClockReading)) (nested now : ClockReading) :
    (after calls).yarnsTime nested now =
      (⟨true, BitVec.ofNat 64 (origin calls nested).millis⟩,
        BitVec.ofNat 64 now.millis - BitVec.ofNat 64 (origin calls nested).millis) := by
  cases calls with
  | nil =>
    show (start.yarnsTime nested now) = _
    simp [yarnsTime, start, elapsed, origin]
  | cons call calls =>
    have hstart : (start.yarnsTime call.1 call.2).1 =
        ⟨true, BitVec.ofNat 64 call.1.millis⟩ := by
      simp [yarnsTime, start, elapsed]
    rw [after, List.foldl_cons, hstart, foldl_initted rfl, yarnsTime_initted rfl]
    rfl

/-- Less than the duration after the call, by at least the resolution of the clock. -/
def Early (now : ClockReading) (usecs : ULong) (r : ClockReading) : Prop :=
  r.micros + 1000 ≤ now.micros + usecs.toNat

/-- More than the duration and two resolutions after the call. -/
def Late (now : ClockReading) (usecs : ULong) (r : ClockReading) : Prop :=
  now.micros + usecs.toNat + 2000 < r.micros

instance (now : ClockReading) (usecs : ULong) (r : ClockReading) : Decidable (Late now usecs r) :=
  inferInstanceAs (Decidable (_ < _))

/-- The first of the later readings that has to find the dependency due. -/
def firstLate (now : ClockReading) (usecs : ULong) (later : List ClockReading) :
    Option ClockReading :=
  later.find? fun r => Late now usecs r

/-- What `wait_graph_time_process` finds at a later reading. -/
def dueAt (calls : List (ClockReading × ClockReading)) (nested now : ClockReading) (usecs : ULong)
    (r : ClockReading) : Bool :=
  let timer := after calls
  (timer.suspendOnTime nested now usecs).due ((timer.yarnsTime nested now).1.yarnsTime r r).2

/-- What is wanted of `yarn_suspend_on_time`, called after `calls` at `now`: the dependency is
not due at an early reading, and due at the first late one. -/
def HonoursDuration (calls : List (ClockReading × ClockReading)) (nested now : ClockReading)
    (usecs : ULong) (later : List ClockReading) : Prop :=
  (∀ r ∈ later, Early now usecs r → dueAt calls nested now usecs r = false) ∧
    ∀ r ∈ firstLate now usecs later, dueAt calls nested now usecs r = true

/-- The clock of a run: the calls before, the call of `yarn_suspend_on_time`, and later. -/
abbrev Clock (calls : List (ClockReading × ClockReading)) (nested now : ClockReading)
    (later : List ClockReading) : Prop :=
  NonDecreasing (readings calls ++ nested :: now :: later)

theorem Clock.origin_le (h : Clock calls nested now later) :
    (origin calls nested).micros ≤ now.micros := by
  cases calls with
  | nil => exact List.rel_of_pairwise_cons h List.mem_cons_self
  | cons call calls => exact List.rel_of_pairwise_cons h (by simp)

theorem Clock.le_later (h : Clock calls nested now later) (hr : r ∈ later) :
    now.micros ≤ r.micros := by
  have h' := (List.pairwise_append.mp h).2.1
  exact List.rel_of_pairwise_cons (List.Pairwise.of_cons h') hr

theorem Clock.origin_millis_le (h : Clock calls nested now later) :
    (origin calls nested).millis ≤ now.millis := by
  rw [ClockReading.millis_eq, ClockReading.millis_eq]
  exact Nat.div_le_div_right h.origin_le

theorem Clock.millis_le_later (h : Clock calls nested now later) (hr : r ∈ later) :
    now.millis ≤ r.millis := by
  rw [ClockReading.millis_eq, ClockReading.millis_eq]
  exact Nat.div_le_div_right (h.le_later hr)

theorem toNat_since {m n : Nat} (hle : n ≤ m) (hm : m < 2 ^ 63) :
    (BitVec.ofNat 64 m - BitVec.ofNat 64 n).toNat = m - n := by
  rw [BitVec.toNat_sub, BitVec.toNat_ofNat, BitVec.toNat_ofNat]
  omega

/-- The deadline is in milliseconds after the call. -/
theorem dueAt_iff (h : Clock calls nested now later) (hr : r ∈ later) :
    dueAt calls nested now usecs r = true ↔
      (now.millis - (origin calls nested).millis + usecs.toNat) % 2 ^ 64 <
        r.millis - (origin calls nested).millis := by
  have hnow := h.origin_millis_le
  have hlater := h.millis_le_later hr
  rw [dueAt, suspendOnTime, after_yarnsTime, yarnsTime_initted rfl, DependencyData.due,
    decide_eq_true_iff, elapsed, BitVec.lt_def, BitVec.toNat_add,
    toNat_since hnow now.millis_lt, toNat_since (hnow.trans hlater) r.millis_lt]

/-! ## When the duration is honoured -/

/-- The deadline as a number, where it does not wrap. -/
def deadline (calls : List (ClockReading × ClockReading)) (nested now : ClockReading)
    (usecs : ULong) : Nat :=
  now.millis - (origin calls nested).millis + usecs.toNat

/-- The first late reading is more milliseconds after the call than the duration has
microseconds; or the deadline wraps, and there is no early reading. -/
def OnTime (calls : List (ClockReading × ClockReading)) (nested now : ClockReading)
    (usecs : ULong) (later : List ClockReading) : Prop :=
  if deadline calls nested now usecs < 2 ^ 64 then
    ∀ r ∈ firstLate now usecs later,
      1000 * (usecs.toNat + 1) ≤ now.micros % 1000 + (r.micros - now.micros)
  else ∀ r ∈ later, ¬ Early now usecs r

/-- At most two microseconds, the second one only at the end of a millisecond; or the late
readings are beyond the range of the clock. -/
def AlwaysOnTime (calls : List (ClockReading × ClockReading)) (nested now : ClockReading)
    (usecs : ULong) : Prop :=
  deadline calls nested now usecs < 2 ^ 64 ∧
    (999 * usecs.toNat ≤ now.micros % 1000 + 1001 ∨
      2 ^ 63 * 1000 ≤ now.micros + usecs.toNat + 2001)

theorem dueAt_iff_of_fits (h : Clock calls nested now later) (hr : r ∈ later)
    (hfits : deadline calls nested now usecs < 2 ^ 64) :
    dueAt calls nested now usecs r = true ↔ now.millis + usecs.toNat < r.millis := by
  have horigin := h.origin_millis_le
  rw [dueAt_iff h hr]
  rw [deadline] at hfits
  rw [Nat.mod_eq_of_lt hfits]
  omega

theorem not_due_of_early (h : Clock calls nested now later) (hr : r ∈ later)
    (hfits : deadline calls nested now usecs < 2 ^ 64) (hearly : Early now usecs r) :
    dueAt calls nested now usecs r = false := by
  rw [← Bool.not_eq_true, dueAt_iff_of_fits h hr hfits, ClockReading.millis_eq,
    ClockReading.millis_eq]
  rw [Early] at hearly
  omega

theorem due_of_late_iff (h : Clock calls nested now later) (hr : r ∈ later)
    (hfits : deadline calls nested now usecs < 2 ^ 64) :
    dueAt calls nested now usecs r = true ↔
      1000 * (usecs.toNat + 1) ≤ now.micros % 1000 + (r.micros - now.micros) := by
  have hle := h.le_later hr
  rw [dueAt_iff_of_fits h hr hfits, ClockReading.millis_eq, ClockReading.millis_eq]
  omega

/-- A deadline that wraps is due at once. -/
theorem due_of_wraps (h : Clock calls nested now later) (hr : r ∈ later)
    (hwraps : ¬ deadline calls nested now usecs < 2 ^ 64) :
    dueAt calls nested now usecs r = true := by
  have hlt := usecs.isLt
  have hle := h.millis_le_later hr
  rw [deadline] at hwraps
  rw [dueAt_iff h hr, Nat.mod_eq_sub_mod (Nat.le_of_not_lt hwraps)]
  calc (now.millis - (origin calls nested).millis + usecs.toNat - 2 ^ 64) % 2 ^ 64
      ≤ now.millis - (origin calls nested).millis + usecs.toNat - 2 ^ 64 := Nat.mod_le ..
    _ < now.millis - (origin calls nested).millis := by omega
    _ ≤ r.millis - (origin calls nested).millis := Nat.sub_le_sub_right hle _

theorem mem_of_firstLate (hr : r ∈ firstLate now usecs later) : r ∈ later :=
  List.mem_of_find?_eq_some hr

theorem honours_iff_onTime (h : Clock calls nested now later) :
    HonoursDuration calls nested now usecs later ↔ OnTime calls nested now usecs later := by
  rw [HonoursDuration, OnTime]
  split
  case isTrue hfits =>
    constructor
    · intro hhonours r hr
      exact (due_of_late_iff h (mem_of_firstLate hr) hfits).mp (hhonours.2 r hr)
    · intro hontime
      refine ⟨fun r hr hearly => not_due_of_early h hr hfits hearly, fun r hr => ?_⟩
      exact (due_of_late_iff h (mem_of_firstLate hr) hfits).mpr (hontime r hr)
  case isFalse hwraps =>
    constructor
    · intro hhonours r hr hearly
      have hnot := hhonours.1 r hr hearly
      rw [due_of_wraps h hr hwraps] at hnot
      cases hnot
    · intro hnone
      exact ⟨fun r hr hearly => absurd hearly (hnone r hr),
        fun r hr => due_of_wraps h (mem_of_firstLate hr) hwraps⟩

theorem Clock.at_call (h : Clock calls nested now later) : Clock calls nested now [] :=
  List.Pairwise.sublist (by simp) h

theorem Clock.append (h : Clock calls nested now []) (hr : now.micros ≤ r.micros) :
    Clock calls nested now [r] := by
  obtain ⟨-, hnested, hcalls⟩ := List.pairwise_append.mp h
  have hmem : ∀ s ∈ readings calls ++ [nested, now], s.micros ≤ r.micros := by
    intro s hs
    refine Nat.le_trans ?_ hr
    rcases List.mem_append.mp hs with hs | hs
    · exact hcalls s hs now (by simp)
    · rcases List.mem_cons.mp hs with rfl | hs
      · exact List.rel_of_pairwise_cons hnested List.mem_cons_self
      · rw [List.mem_singleton.mp hs]
  show NonDecreasing (readings calls ++ ([nested, now] ++ [r]))
  rw [← List.append_assoc]
  exact List.pairwise_append.mpr ⟨h, List.pairwise_singleton _ _, fun s hs x hx =>
    List.mem_singleton.mp hx ▸ hmem s hs⟩

/-- The condition for every order of later readings. -/
theorem onTime_iff_alwaysOnTime (h : Clock calls nested now []) :
    (∀ later, Clock calls nested now later → OnTime calls nested now usecs later) ↔
      AlwaysOnTime calls nested now usecs := by
  constructor
  · intro hontime
    have hfits : deadline calls nested now usecs < 2 ^ 64 := by
      by_contra hwraps
      have hnow := hontime [now] (h.append (Nat.le_refl _))
      rw [OnTime, if_neg hwraps] at hnow
      refine hnow now List.mem_cons_self ?_
      have hrange : now.millis < 2 ^ 63 := now.millis_lt
      rw [deadline] at hwraps
      rw [Early]
      omega
    refine ⟨hfits, ?_⟩
    by_contra hnot
    rw [not_or, Nat.not_le, Nat.not_le] at hnot
    obtain ⟨hlong, hrange⟩ := hnot
    have hmicros := ClockReading.micros_ofMicros hrange
    have hlate : Late now usecs (.ofMicros _ hrange) := by
      rw [Late, hmicros]
      omega
    have hr := hontime [.ofMicros _ hrange] (h.append (by omega))
    rw [OnTime, if_pos hfits] at hr
    have hfirst := hr _ (List.find?_cons_of_pos (decide_eq_true hlate))
    omega
  · rintro ⟨hfits, hcases⟩ later hlater
    rw [OnTime, if_pos hfits]
    intro r hr
    have hlate : Late now usecs r := by simpa using List.find?_some hr
    rw [Late] at hlate
    have hrange := r.micros_lt
    omega

/-- The duration is honoured at the later readings if and only if they are `OnTime`, and at
whatever readings come if and only if it is `AlwaysOnTime`. -/
theorem honoursDuration_iff (h : Clock calls nested now later) (usecs : ULong) :
    (HonoursDuration calls nested now usecs later ↔ OnTime calls nested now usecs later) ∧
      ((∀ later, Clock calls nested now later → HonoursDuration calls nested now usecs later) ↔
        AlwaysOnTime calls nested now usecs) := by
  refine ⟨honours_iff_onTime h, ?_⟩
  rw [← onTime_iff_alwaysOnTime h.at_call]
  exact forall₂_congr fun later hlater => honours_iff_onTime hlater

/-- A clock that shows whole seconds. -/
def wholeSeconds (sec : Nat) (h : sec < 2 ^ 53) : ClockReading where
  sec := sec
  usec := 0
  usec_lt := by decide
  millis_lt := by omega

/-- No microseconds, and a reading a second later. -/
theorem honoursDuration_iff_noDuration :
    (HonoursDuration [] (wholeSeconds 1000 (by decide)) (wholeSeconds 1000 (by decide)) 0
        [wholeSeconds 1001 (by decide)] ↔
      OnTime [] (wholeSeconds 1000 (by decide)) (wholeSeconds 1000 (by decide)) 0
        [wholeSeconds 1001 (by decide)]) ∧
    ((∀ later, Clock [] (wholeSeconds 1000 (by decide)) (wholeSeconds 1000 (by decide)) later →
        HonoursDuration [] (wholeSeconds 1000 (by decide)) (wholeSeconds 1000 (by decide)) 0
          later) ↔
      AlwaysOnTime [] (wholeSeconds 1000 (by decide)) (wholeSeconds 1000 (by decide)) 0) :=
  honoursDuration_iff (by decide) 0

/-- Five seconds, as in `src/test.c`: after six seconds the dependency is not due. -/
theorem fiveSeconds_not_honoursDuration : ¬ ∀ calls nested now usecs later,
    Clock calls nested now later → HonoursDuration calls nested now usecs later := by
  intro h
  have hdue := (h [] (wholeSeconds 1000 (by decide)) (wholeSeconds 1000 (by decide)) 5000000
    [wholeSeconds 1006 (by decide)] (by decide)).2 _ (List.find?_cons_of_pos (by decide))
  exact absurd hdue (by decide)

end Timer

namespace LockedGraph

def yarnSuspendOnTime (wg : LockedGraph) (fuel : Nat) (timer : Timer) (nested now : ClockReading)
    (currentYarn usecs : ULong) (ptr dep : NodePtr) : Option LockedGraph :=
  wg.register fuel currentYarn ptr [(timer.suspendOnTime nested now usecs, dep)]

/-- As the search does not leave the entry of the caller, the call does not get so far that
the dependency could be due. -/
theorem yarnSuspendOnTime_never {wg : LockedGraph} (hlock : wg.lock = 0) (fuel : Nat)
    (timer : Timer) (nested now : ClockReading) (currentYarn usecs : ULong) (ptr dep : NodePtr) :
    wg.yarnSuspendOnTime fuel timer nested now currentYarn usecs ptr dep = none :=
  register_never hlock (List.cons_ne_nil _ _) fuel

end LockedGraph

end Yarns
