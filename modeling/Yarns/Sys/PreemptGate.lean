import Mathlib.Algebra.Order.BigOperators.Group.Finset
import Yarns.Base.Parties
import Yarns.Sys.Preempt

/-!
# Who may be preempted

The handler of the preemption timer asks a thread to give up its yarn only while
`preempt_disable_count` is zero. The main thread counts once for every thread it creates, and
every loop counts down before it switches to a yarn and up after it. The thread that is
asked is sent a second signal, which takes it back to the place after its switch, wherever
it is: a loop that has no yarn then counts up once too often.

So the gate is open when all threads but one have a yarn, and each of these stray signals
raises the number by one (`gate_exact`).
-/

namespace Yarns

open Base

namespace Gate

/-- Where a thread is. The first two are places of `yarn_process`, the others of the loop. -/
inductive Pc where
  | test
  | create
  | absent
  | loop
  | armed
  | enabled
  | yarn
  | back
  deriving DecidableEq

/-- The thread has counted down. -/
def Pc.inside : Pc → Bool
  | enabled | yarn | back => true
  | _ => false

/-- The main thread is still creating threads. -/
def Pc.creating : Pc → Bool
  | test | create => true
  | _ => false

/-- A thread; `switched` once it has a context to go back to. -/
structure Thread where
  pc : Pc
  switched : Bool
  deriving DecidableEq

/-- `threads` is the array of `lib/yarn.c`, `pending` are the threads with a signal on its
way, and `strays` is how many signals have found a loop without a yarn. -/
structure Memory where
  timer : Preempt
  created : Nat
  threads : Nat → Option Nat
  pending : Nat → Bool
  strays : Nat

inductive Act where
  /-- the thread goes on; `timestamp` and `now` are what it reads of the clock -/
  | step (timestamp now : ULong)
  /-- the timer's signal, on any thread -/
  | timer (now : ULong)
  /-- the signal of `yarn_preempt_handle` -/
  | signal

def preemptDisable (m : Memory) : Memory :=
  { m with timer := { m.timer with disableCount := m.timer.disableCount + 1 } }

def preemptEnable (m : Memory) : Memory :=
  { m with timer := { m.timer with disableCount := m.timer.disableCount - 1 } }

def step (n i : Nat) (m : Memory) (t : Thread) (timestamp now : ULong) :
    Option (Memory × Thread) :=
  match t.pc with
  | .test =>
    if m.created + 1 < n then some (preemptDisable m, { t with pc := .create })
    else
      -- the main thread is entered behind the others, not as thread 0
      some ({ m with threads := Function.update m.threads n (some i) }, { t with pc := .loop })
  | .create =>
    let k := m.created + 1
    some ({ m with created := k, threads := Function.update m.threads k (some k) },
      { t with pc := .test })
  | .absent => if i ≤ m.created then some (m, { t with pc := .loop }) else none
  | .loop =>
    (m.timer.preempt timestamp (BitVec.ofNat 64 i) now).map fun timer =>
      ({ m with timer }, { t with pc := .armed })
  | .armed => some (preemptEnable m, { t with pc := .enabled })
  | .enabled => some (m, ⟨.yarn, true⟩)
  | .yarn => some (m, { t with pc := .back })
  | .back => some (preemptDisable m, { t with pc := .loop })

/-- `preempt_signal`, with `yarn_preempt_handle` installed. -/
def timerSignal (m : Memory) (now : ULong) : Option Memory := do
  let (param, timer) ← m.timer.preemptSignal now
  match param with
  | some param => do
    let k ← m.threads param.toNat
    some { m with timer, pending := Function.update m.pending k true }
  | none => some { m with timer }

/-- `preempt_signal_handler`; without a context to go back to it fails. -/
def signalHandler (i : Nat) (m : Memory) (t : Thread) : Option (Memory × Thread) :=
  if m.pending i ∧ t.switched then
    some ({ m with
      pending := Function.update m.pending i false
      strays := if t.pc.inside then m.strays else m.strays + 1 }, { t with pc := .back })
  else none

def act {n : Nat} (i : Fin n) (m : Memory) (t : Thread) : Act → Option (Memory × Thread)
  | .step timestamp now => step n i m t timestamp now
  | .timer now => (timerSignal m now).map fun m => (m, t)
  | .signal => signalHandler i m t

/-- `yarn_process` after `preempt_init`; thread 0 is the main thread. -/
def start (n : Nat) : Parties Memory Thread (Fin n) :=
  ⟨⟨.preemptInit, 0, fun _ => none, fun _ => false, 0⟩,
    fun i => ⟨if i.val = 0 then .test else .absent, false⟩⟩

/-- How many threads have counted down and not up again. -/
def inside {n : Nat} (s : Parties Memory Thread (Fin n)) : Nat :=
  ∑ i, (s.locals i).pc.inside.toNat

def creating {n : Nat} (s : Parties Memory Thread (Fin n)) : Nat :=
  ∑ i, if (s.locals i).pc = .create then 1 else 0

/-- When the gate is open. -/
structure Exact {n : Nat} (s : Parties Memory Thread (Fin n)) : Prop where
  opens : s.memory.timer.disableCount = 0 ↔ inside s = n - 1 + s.memory.strays
  busy : s.memory.strays = 0 → inside s = n → s.memory.timer.disableCount ≠ 0
  dead : 2 ≤ s.memory.strays → s.memory.timer.disableCount ≠ 0

/-- The count, and how far the main thread is. -/
structure Inv {n : Nat} (s : Parties Memory Thread (Fin n)) : Prop where
  count : (s.memory.timer.disableCount.toNat + inside s) % 2 ^ 64 =
    (s.memory.created + creating s + s.memory.strays) % 2 ^ 64
  main : ∀ i : Fin n, i.val = 0 → (s.locals i).pc ≠ .absent ∧ s.memory.created < n ∧
    ((s.locals i).pc = .create → s.memory.created + 1 < n) ∧
    ((s.locals i).pc.creating = false → s.memory.created + 1 = n)
  others : ∀ i : Fin n, i.val ≠ 0 → (s.locals i).pc.creating = false
  switched : ∀ i, (s.locals i).switched → (s.locals i).pc.creating = false

variable {n : Nat} {s s' : Parties Memory Thread (Fin n)} {m m' : Memory} {t t' : Thread}
  {i : Fin n} {timestamp now : ULong}

/-! ## One step -/

theorem reconfigureTimer_disableCount (p : Preempt) (now : ULong) :
    (p.reconfigureTimer now).disableCount = p.disableCount := by
  rw [Preempt.reconfigureTimer]
  split <;> rfl

theorem preempt_disableCount {p p' : Preempt} {param : ULong}
    (h : p.preempt timestamp param now = some p') : p'.disableCount = p.disableCount := by
  rw [Preempt.preempt, Preempt.lockLock] at h
  split at h
  · cases h
    exact reconfigureTimer_disableCount _ now
  · cases h

theorem preemptSignal_disableCount {p : Preempt} {r : Option ULong × Preempt}
    (h : p.preemptSignal now = some r) : r.2.disableCount = p.disableCount := by
  have hq : (if p.lock = 0 then { p with lock := 1 } else p).disableCount = p.disableCount := by
    split <;> rfl
  simp only [Preempt.preemptSignal] at h
  generalize (if p.lock = 0 then { p with lock := 1 } else p) = q at h hq
  rw [← hq]
  split at h
  · simp only [Option.bind_eq_bind, Option.bind_eq_some_iff] at h
    obtain ⟨min, -, param, -, h⟩ := h
    cases h
    exact reconfigureTimer_disableCount q now
  · cases h
    dsimp only
    split <;> rfl

/-- What one thread does, as far as the others see it. -/
structure Moves (n : Nat) (m : Memory) (t : Thread) (m' : Memory) (t' : Thread) : Prop where
  count : (m'.timer.disableCount.toNat + t'.pc.inside.toNat + m.created + m.strays +
      if t.pc = .create then 1 else 0) % 2 ^ 64 =
    (m.timer.disableCount.toNat + t.pc.inside.toNat + m'.created + m'.strays +
      if t'.pc = .create then 1 else 0) % 2 ^ 64
  created : t.pc.creating = false → m'.created = m.created ∧ t'.pc.creating = false
  main : m.created < n → (t.pc = .create → m.created + 1 < n) → t.pc.creating = true →
    m'.created < n ∧ (t'.pc = .create → m'.created + 1 < n) ∧
      (t'.pc.creating = false → m'.created + 1 = n)
  absent : t.pc ≠ .absent → t'.pc ≠ .absent
  switched : (t.switched → t.pc.creating = false) → t'.switched → t'.pc.creating = false

theorem disable_toNat (m : Memory) : (preemptDisable m).timer.disableCount.toNat =
    (m.timer.disableCount.toNat + 1) % 2 ^ 64 := by
  rw [preemptDisable, BitVec.toNat_add]
  rfl

theorem enable_toNat (m : Memory) : (preemptEnable m).timer.disableCount.toNat =
    (m.timer.disableCount.toNat + (2 ^ 64 - 1)) % 2 ^ 64 := by
  rw [preemptEnable, BitVec.toNat_sub, Nat.add_comm]
  rfl

/-- A thread that is not the main thread at work on the others. -/
theorem moves_of_loop (hold : t.pc.creating = false) (hnew : t'.pc.creating = false)
    (hcreated : m'.created = m.created) (habsent : t'.pc ≠ .absent)
    (hcount : (m'.timer.disableCount.toNat + t'.pc.inside.toNat + m.strays) % 2 ^ 64 =
      (m.timer.disableCount.toNat + t.pc.inside.toNat + m'.strays) % 2 ^ 64) :
    Moves n m t m' t' := by
  refine ⟨?_, fun _ => ⟨hcreated, hnew⟩, fun _ _ h => ?_, fun _ => habsent, fun _ _ => hnew⟩
  · have hcreate : t.pc ≠ .create := by
      intro h
      rw [h] at hold
      cases hold
    have hcreate' : t'.pc ≠ .create := by
      intro h
      rw [h] at hnew
      cases hnew
    rw [if_neg hcreate, if_neg hcreate', hcreated]
    omega
  · rw [hold] at h
    cases h

theorem step_moves {k : Nat} (h : step n k m t timestamp now = some (m', t')) :
    Moves n m t m' t' := by
  have hdisable := disable_toNat m
  have henable := enable_toNat m
  obtain ⟨pc, switched⟩ := t
  cases pc with
  | test =>
    simp only [step] at h
    split at h
    next hlt =>
      cases h
      refine ⟨?_, fun h => (by cases h),
        fun hlt' _ _ => ⟨hlt', fun _ => hlt, fun h => (by cases h)⟩,
        fun _ => Pc.noConfusion, fun h hs => ?_⟩
      · show (_ + 0 + m.created + m.strays + 0) % _ = (_ + 0 + m.created + m.strays + 1) % _
        omega
      · cases h hs
    next hge =>
      cases h
      refine ⟨rfl, fun h => (by cases h), fun hlt _ _ => ⟨hlt, fun h => (by cases h), fun _ => ?_⟩,
        fun _ => Pc.noConfusion, fun _ _ => rfl⟩
      show m.created + 1 = n
      omega
  | create =>
    cases h
    refine ⟨?_, fun h => (by cases h), fun _ hlt _ => ⟨hlt rfl, fun h => (by cases h),
      fun h => (by cases h)⟩, fun _ => Pc.noConfusion, fun h hs => ?_⟩
    · show (m.timer.disableCount.toNat + 0 + m.created + m.strays + 1) % _ =
        (m.timer.disableCount.toNat + 0 + (m.created + 1) + m.strays + 0) % _
      omega
    · cases h hs
  | absent =>
    simp only [step] at h
    split at h
    · cases h
      exact moves_of_loop rfl rfl rfl Pc.noConfusion rfl
    · cases h
  | loop =>
    obtain ⟨timer, htimer, heq⟩ := Option.map_eq_some_iff.mp h
    cases heq
    refine moves_of_loop rfl rfl rfl Pc.noConfusion ?_
    dsimp only
    rw [preempt_disableCount htimer]
    rfl
  | armed =>
    cases h
    refine moves_of_loop rfl rfl rfl Pc.noConfusion ?_
    show (_ + 1 + m.strays) % _ = (_ + 0 + m.strays) % _
    omega
  | enabled =>
    cases h
    exact moves_of_loop rfl rfl rfl Pc.noConfusion rfl
  | yarn =>
    cases h
    exact moves_of_loop rfl rfl rfl Pc.noConfusion rfl
  | back =>
    cases h
    refine moves_of_loop rfl rfl rfl Pc.noConfusion ?_
    show (_ + 0 + m.strays) % _ = (_ + 1 + m.strays) % _
    omega

theorem timerSignal_frame (h : timerSignal m now = some m') :
    m'.timer.disableCount = m.timer.disableCount ∧ m'.created = m.created ∧
      m'.strays = m.strays := by
  simp only [timerSignal, Option.bind_eq_bind, Option.bind_eq_some_iff] at h
  obtain ⟨⟨param, timer⟩, htimer, h⟩ := h
  have hcount := preemptSignal_disableCount htimer
  cases param with
  | none =>
    cases h
    exact ⟨hcount, rfl, rfl⟩
  | some param =>
    simp only [Option.bind_eq_some_iff] at h
    obtain ⟨k, -, h⟩ := h
    cases h
    exact ⟨hcount, rfl, rfl⟩

theorem act_moves {a : Act} (hs : t.switched → t.pc.creating = false)
    (h : act i m t a = some (m', t')) : Moves n m t m' t' := by
  cases a with
  | step timestamp now => exact step_moves h
  | timer now =>
    obtain ⟨m₁, hm, heq⟩ := Option.map_eq_some_iff.mp h
    cases heq
    obtain ⟨hcount, hcreated, hstrays⟩ := timerSignal_frame hm
    refine ⟨by rw [hcount, hcreated, hstrays], fun h => ⟨hcreated, h⟩, fun hlt hcreate h => ?_,
      id, fun h => h⟩
    rw [hcreated]
    exact ⟨hlt, hcreate, fun hnot => absurd (h.symm.trans hnot) Bool.noConfusion⟩
  | signal =>
    simp only [act, signalHandler] at h
    split at h
    next hsig =>
      cases h
      refine moves_of_loop (hs hsig.2) rfl rfl Pc.noConfusion ?_
      dsimp only
      cases t.pc.inside with
      | false =>
        show (_ + 1 + m.strays) % _ = (_ + 0 + (m.strays + 1)) % _
        omega
      | true => rfl
    next => cases h

theorem step_inv {p : Fin n × Act} (h : Inv s) (hs : Parties.step act s p = some s') : Inv s' := by
  obtain ⟨i, a⟩ := p
  obtain ⟨m', t', hact, rfl⟩ := Parties.step_cases hs
  have hmoves := act_moves (h.switched i) hact
  have hinside : inside ⟨m', Function.update s.locals i t'⟩ + (s.locals i).pc.inside.toNat =
      inside s + t'.pc.inside.toNat :=
    sum_update s.locals i t' fun t => t.pc.inside.toNat
  have hcreating : creating ⟨m', Function.update s.locals i t'⟩ +
      (if (s.locals i).pc = .create then 1 else 0) =
        creating s + if t'.pc = .create then 1 else 0 :=
    sum_update s.locals i t' fun t => if t.pc = .create then 1 else 0
  refine ⟨?_, fun j hj => ?_, ?_, ?_⟩
  · have hold := h.count
    have hnew := hmoves.count
    dsimp only
    omega
  · obtain ⟨habsent, hlt, hcreate, hdone⟩ := h.main j hj
    dsimp only
    by_cases hji : j = i
    · subst hji
      rw [Function.update_self]
      refine ⟨hmoves.absent habsent, ?_⟩
      cases hpc : (s.locals j).pc.creating with
      | false =>
        obtain ⟨hsame, hpc'⟩ := hmoves.created hpc
        rw [hsame]
        refine ⟨hlt, fun hc => ?_, fun _ => hdone hpc⟩
        rw [hc] at hpc'
        cases hpc'
      | true => exact hmoves.main hlt hcreate hpc
    · -- only the main thread creates threads
      have hi : i.val ≠ 0 := fun hi => hji (Fin.ext (hj.trans hi.symm))
      rw [Function.update_of_ne hji, (hmoves.created (h.others i hi)).1]
      exact ⟨habsent, hlt, hcreate, hdone⟩
  · exact forall_update (P := fun j (t : Thread) => j.val ≠ 0 → t.pc.creating = false)
      (fun j _ => h.others j) fun hi => (hmoves.created (h.others i hi)).2
  · exact forall_update (P := fun _ (t : Thread) => t.switched → t.pc.creating = false)
      (fun j _ => h.switched j) (hmoves.switched (h.switched i))

theorem start_inv (hn : 0 < n) : Inv (start n) := by
  have hpc : ∀ i, ((start n).locals i).pc = .test ∨ ((start n).locals i).pc = .absent := by
    intro i
    show (if i.val = 0 then Pc.test else .absent) = _ ∨ (if i.val = 0 then Pc.test else .absent) = _
    split
    · exact Or.inl rfl
    · exact Or.inr rfl
  refine ⟨?_, fun i hi => ?_, fun i hi => ?_, fun i hs => (by cases hs)⟩
  · have hinside : inside (start n) = 0 := by
      refine Finset.sum_eq_zero fun i _ => ?_
      rcases hpc i with h | h <;> rw [h] <;> rfl
    have hcreating : creating (start n) = 0 := by
      refine Finset.sum_eq_zero fun i _ => ?_
      rcases hpc i with h | h <;> rw [h] <;> rfl
    rw [hinside, hcreating]
    rfl
  · have htest : ((start n).locals i).pc = .test := if_pos hi
    rw [htest]
    exact ⟨Pc.noConfusion, hn, fun h => (by cases h), fun h => (by cases h)⟩
  · have habsent : ((start n).locals i).pc = .absent := if_neg hi
    rw [habsent]
    rfl

theorem inside_le (s : Parties Memory Thread (Fin n)) : inside s ≤ n := by
  have h := Finset.sum_le_card_nsmul Finset.univ (fun i => (s.locals i).pc.inside.toNat) 1
    fun i _ => Bool.toNat_le _
  refine Nat.le_trans h ?_
  simp

/-- Once the main thread is in its loop, the gate is open exactly when all but one of the
threads, and one more for each stray signal, are inside: it is never open while every thread
has a yarn unless a signal has gone astray, and never again after a second one. -/
theorem gate_exact (s : Parties Memory Thread (Fin n))
    (hr : Reachable (Parties.step act) (start n) s) (main : Fin n) (h0 : main.val = 0)
    (hmain : (s.locals main).pc.creating = false) (hsmall : n + s.memory.strays < 2 ^ 64) :
    Exact s := by
  have hinv : Inv s := reachable_invariant (start_inv main.pos) (fun _ _ _ => step_inv) hr
  have hcreated := (hinv.main main h0).2.2.2 hmain
  have hcreating : creating s = 0 := by
    refine Finset.sum_eq_zero fun i _ => if_neg fun hc => ?_
    have hnot : (s.locals i).pc.creating = false := by
      by_cases hi : i.val = 0
      · rw [Fin.ext (hi.trans h0.symm)]
        exact hmain
      · exact hinv.others i hi
    rw [hc] at hnot
    cases hnot
  have hcount := hinv.count
  rw [hcreating] at hcount
  have hle := inside_le s
  have hlt := s.memory.timer.disableCount.isLt
  have hzero : s.memory.timer.disableCount = 0 ↔ inside s = n - 1 + s.memory.strays := by
    rw [← BitVec.toNat_inj]
    show s.memory.timer.disableCount.toNat = 0 ↔ _
    omega
  refine ⟨hzero, fun hstrays hall hopen => ?_, fun hstrays hopen => ?_⟩
  · have hone := hzero.mp hopen
    omega
  · have htwo := hzero.mp hopen
    omega

/-- A thread is asked while it has a yarn, and the signal finds it in its loop; then both
threads have a yarn. -/
def oneStray (main other : Fin n) : List (Fin n × Act) :=
  List.replicate 3 (main, .step 0 0) ++
  [(other, .step 0 0), (other, .step 100 1), (other, .step 0 0), (other, .step 0 0),
    (other, .timer 2), (other, .step 0 0), (other, .step 0 0), (other, .signal),
    (other, .step 0 0), (other, .step 200 3), (other, .step 0 0), (other, .step 0 0),
    (main, .step 300 4), (main, .step 0 0)]

theorem gate_exact_oneStray : ∃ s : Parties Memory Thread (Fin 2),
    run (Parties.step act) (start 2) (oneStray 0 1) = some s ∧ s.memory.strays = 1 ∧
      Exact s := by
  have hrun : (run (Parties.step act) (start 2) (oneStray 0 1)).map
      (fun s => (s.memory.strays, (s.locals 0).pc.creating)) = some (1, false) := by
    decide +kernel
  obtain ⟨s, hs, hseen⟩ := Option.map_eq_some_iff.mp hrun
  obtain ⟨hstrays, hpc⟩ := Prod.mk.inj hseen
  exact ⟨s, hs, hstrays, gate_exact s ⟨_, hs⟩ 0 rfl hpc (by rw [hstrays]; decide)⟩

end Gate

end Yarns
