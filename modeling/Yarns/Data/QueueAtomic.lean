import Mathlib.Logic.Function.Basic
import Yarns.Base.Run
import Yarns.Data.Queue

/-!
# The atomic queue of `data/queue_atomic.c`, used by one thread

`push` and `pop` take their slot from the result of `atomic_add`, which in the GCC back end
is the counter before the addition. `push` fails (`none`) where its assertion does. The
array comes zero-filled from `yalloc`; an index into it is always a remainder by `max`.

A client keeps the values a FIFO queue would hold beside the queue. Its answers are those of
a FIFO queue for the sequences that pop before the first push only, and not so often that
the assertion of a push fails (`answers_iff`). But no pop on the empty queue leaves it as it
was: a push that was possible before may fail after it. So the queue is one only for clients
that never pop (`likeFifo_iff`).
-/

namespace Yarns.QueueAtomic

open Base

structure YarnsAtomicQueue where
  max : ULong
  pushIndex : ULong
  popIndex : ULong
  values : ULong → ULong

/-- `__sync_fetch_and_add`: the old value, and the new one. -/
def atomicAdd (old amount : ULong) : ULong × ULong := (old, old + amount)

def yarnsAtomicQueueNew (slots : ULong) : YarnsAtomicQueue := ⟨slots, 0, 0, fun _ => 0⟩

def yarnsAtomicQueuePush (queue : YarnsAtomicQueue) (value : ULong) :
    Option YarnsAtomicQueue :=
  let (old, pushIndex) := atomicAdd queue.pushIndex 1
  let push := (old - 1) % queue.max
  let queue := { queue with
    pushIndex := pushIndex
    values := Function.update queue.values push value }
  if queue.pushIndex % queue.max ≠ queue.popIndex % queue.max then some queue else none

/-- The result, what is stored in `*value` (nothing where it is none), and the queue. -/
def yarnsAtomicQueuePop (queue : YarnsAtomicQueue) :
    Bool × Option ULong × YarnsAtomicQueue :=
  let (old, popIndex) := atomicAdd queue.popIndex 1
  let idx := old - 1
  let queue := { queue with popIndex := popIndex }
  if queue.pushIndex = queue.popIndex then (false, none, queue)
  else
    let idx := idx % queue.max
    -- the pointer is converted to `bool`
    (queue.values idx ≠ 0, none, queue)

inductive QueueOp
  | push (value : ULong)
  | pop

structure Client where
  queue : YarnsAtomicQueue
  /-- The values pushed and not popped yet. -/
  outstanding : Fifo

def start (max : ULong) : Client := ⟨yarnsAtomicQueueNew max, fifoNew⟩

def step (c : Client) : QueueOp → Option Client
  | .push value =>
    (yarnsAtomicQueuePush c.queue value).map fun q => ⟨q, fifoEnqueue c.outstanding value⟩
  | .pop => some ⟨(yarnsAtomicQueuePop c.queue).2.2, (fifoDequeue c.outstanding).2⟩

/-- Pushes are made only while fewer than `max - 1` values are outstanding. -/
def Respects (max : Nat) : Nat → List QueueOp → Prop
  | _, [] => True
  | n, .push _ :: ops => n < max - 1 ∧ Respects max (n + 1) ops
  | n, .pop :: ops => Respects max (n - 1) ops

/-- What a caller sees of an operation. -/
inductive Seen
  | pushed
  | aborted
  | popped (result : Bool) (stored : Option ULong)

/-- What is seen of a sequence of operations, up to an assertion that fails. -/
def behaviour (queue : YarnsAtomicQueue) : List QueueOp → List Seen
  | [] => []
  | .push value :: ops =>
    match yarnsAtomicQueuePush queue value with
    | none => [.aborted]
    | some queue => .pushed :: behaviour queue ops
  | .pop :: ops =>
    let (result, stored, queue) := yarnsAtomicQueuePop queue
    .popped result stored :: behaviour queue ops

/-- Whatever is done with them from now on, two empty queues cannot be told apart. -/
def SameBehaviour (q q' : YarnsAtomicQueue) : Prop :=
  ∀ ops, Respects q.max.toNat 0 ops → behaviour q ops = behaviour q' ops

/-- What a FIFO queue answers to the operation; the answer to a pop on the empty queue is
all that it does. -/
def LikeFifo (c : Client) : QueueOp → Prop
  | .push value => (yarnsAtomicQueuePush c.queue value).isSome
  | .pop =>
    match c.outstanding with
    | [] => (yarnsAtomicQueuePop c.queue).1 = false ∧
      SameBehaviour c.queue (yarnsAtomicQueuePop c.queue).2.2
    | oldest :: _ => ∃ q, yarnsAtomicQueuePop c.queue = (true, some oldest, q)

/-- The answer alone. -/
def Answers (c : Client) : QueueOp → Prop
  | .push value => (yarnsAtomicQueuePush c.queue value).isSome
  | .pop =>
    match c.outstanding with
    | [] => (yarnsAtomicQueuePop c.queue).1 = false
    | oldest :: _ => ∃ q, yarnsAtomicQueuePop c.queue = (true, some oldest, q)

/-- A pop on the empty queue changes nothing. -/
def KeepsEmpty (c : Client) (op : QueueOp) : Prop :=
  op = .pop → c.outstanding = [] → SameBehaviour c.queue (yarnsAtomicQueuePop c.queue).2.2

/-- With `k` pops done, the pushes of `vs` stay clear of the assertion: it fails for the
push that brings the first counter up to the remainder of the second. -/
def Clear (max k : Nat) (vs : List ULong) : Prop :=
  k % 2 ^ 64 % max = 0 ∨ vs.length < k % 2 ^ 64 % max

variable {max : ULong} {c : Client} {k n : Nat} {ops : List QueueOp}

theorem push_eq (q : YarnsAtomicQueue) (value : ULong) : yarnsAtomicQueuePush q value =
    if (q.pushIndex + 1) % q.max = q.popIndex % q.max then none
    else some { q with
      pushIndex := q.pushIndex + 1
      values := Function.update q.values ((q.pushIndex - 1) % q.max) value } := by
  by_cases heq : (q.pushIndex + 1) % q.max = q.popIndex % q.max
  · rw [if_pos heq]
    exact if_neg (not_not.mpr heq)
  · rw [if_neg heq]
    exact if_pos heq

/-- A pop answers from the slot before the one that is next, and stores nothing. -/
theorem pop_eq (q : YarnsAtomicQueue) : yarnsAtomicQueuePop q =
    (decide (q.pushIndex ≠ q.popIndex + 1 ∧ q.values ((q.popIndex - 1) % q.max) ≠ 0), none,
      { q with popIndex := q.popIndex + 1 }) := by
  by_cases heq : q.pushIndex = q.popIndex + 1
  · rw [decide_eq_false (fun h => h.1 heq)]
    exact if_pos heq
  · simp only [ne_eq, heq, not_false_eq_true, true_and]
    exact if_neg heq

theorem likeFifo_eq {op : QueueOp} : LikeFifo c op ↔ Answers c op ∧ KeepsEmpty c op := by
  rw [KeepsEmpty]
  cases op with
  | push value => exact ⟨fun h => ⟨h, fun hop => nomatch hop⟩, And.left⟩
  | pop =>
    rw [LikeFifo, Answers]
    cases c.outstanding with
    | nil => simp only [forall_const]
    | cons oldest rest =>
      exact ⟨fun h => ⟨h, fun _ hnil => absurd hnil (List.cons_ne_nil _ _)⟩, And.left⟩

theorem not_answers_pop (h : c.outstanding ≠ []) : ¬ Answers c .pop := by
  rw [Answers]
  split
  · rename_i hnil
    exact absurd hnil h
  · rintro ⟨q, hq⟩
    rw [pop_eq] at hq
    cases (Prod.mk.inj (Prod.mk.inj hq).2).1

/-! ## Pops before the first push -/

/-- The state after `k` pops on a new queue. -/
def popped (max : ULong) (k : Nat) : Client :=
  ⟨⟨max, 0, BitVec.ofNat 64 k, fun _ => 0⟩, []⟩

theorem popped_answers (max : ULong) (k : Nat) : Answers (popped max k) .pop := by
  simp [Answers, popped, pop_eq]

theorem popped_step (max : ULong) (k : Nat) :
    step (popped max k) .pop = some (popped max (k + 1)) := by
  have hindex : BitVec.ofNat 64 k + 1 = BitVec.ofNat 64 (k + 1) := (BitVec.ofNat_add ..).symm
  rw [step, pop_eq]
  simp only [popped, hindex, fifoDequeue]

/-! ## Pushes -/

/-- The counters once `k` pops and then `n` pushes were made. -/
structure Pushed (max : ULong) (k n : Nat) (c : Client) : Prop where
  max : c.queue.max = max
  pushIndex : c.queue.pushIndex = BitVec.ofNat 64 n
  popIndex : c.queue.popIndex = BitVec.ofNat 64 k
  outstanding : c.outstanding.length = n

theorem popped_pushed (max : ULong) (k : Nat) : Pushed max k 0 (popped max k) :=
  ⟨rfl, rfl, rfl, rfl⟩

theorem Pushed.pushIndex_succ (h : Pushed max k n c) :
    c.queue.pushIndex + 1 = BitVec.ofNat 64 (n + 1) := by
  rw [h.pushIndex]
  exact (BitVec.ofNat_add ..).symm

/-- The assertion of the push after `n` of them compares `n + 1` with the remainder of the
number of pops. -/
theorem Pushed.push_iff (h : Pushed max k n c) (hn : n < max.toNat - 1) (value : ULong) :
    Answers c (.push value) ↔ n + 1 ≠ k % 2 ^ 64 % max.toNat := by
  have hlt := max.isLt
  have hpush : ((c.queue.pushIndex + 1) % c.queue.max).toNat = n + 1 := by
    rw [h.pushIndex_succ, h.max, BitVec.toNat_umod, BitVec.toNat_ofNat,
      Nat.mod_eq_of_lt (by omega), Nat.mod_eq_of_lt (by omega)]
  have hpop : (c.queue.popIndex % c.queue.max).toNat = k % 2 ^ 64 % max.toNat := by
    rw [h.popIndex, h.max, BitVec.toNat_umod, BitVec.toNat_ofNat]
  rw [Answers, push_eq, ← hpush, ← hpop]
  by_cases heq : (c.queue.pushIndex + 1) % c.queue.max = c.queue.popIndex % c.queue.max
  · rw [if_pos heq, heq]
    simp
  · rw [if_neg heq]
    exact ⟨fun _ hnat => heq (BitVec.eq_of_toNat_eq hnat), fun _ => rfl⟩

theorem pushed_step (h : Pushed max k n c) {value : ULong} {c' : Client}
    (hs : step c (.push value) = some c') : Pushed max k (n + 1) c' := by
  obtain ⟨q, hq, rfl⟩ := Option.map_eq_some_iff.mp hs
  rw [push_eq] at hq
  split at hq
  · cases hq
  · obtain rfl := Option.some.inj hq
    refine ⟨h.max, h.pushIndex_succ, h.popIndex, ?_⟩
    rw [fifoEnqueue, List.length_append, h.outstanding]
    rfl

/-- From the first push on: no more pops, and no push reaches the remainder. -/
theorem Pushed.throughout_iff (h : Pushed max k n c) (hops : Respects max.toNat n ops)
    (hn : n = 0 → ops.head? ≠ some .pop) : Throughout step Answers c ops ↔
      ∃ vs : List ULong, ops = vs.map .push ∧ ∀ i, n < i → i ≤ n + vs.length →
        i ≠ k % 2 ^ 64 % max.toNat := by
  induction ops generalizing c n with
  | nil => exact ⟨fun _ => ⟨[], rfl, fun i h1 h2 => by simp at h2; omega⟩, fun _ => trivial⟩
  | cons op ops ih =>
    cases op with
    | pop =>
      have hne : c.outstanding ≠ [] := by
        intro hnil
        have hlen := h.outstanding
        rw [hnil] at hlen
        exact hn hlen.symm rfl
      refine ⟨fun hall => absurd hall.1 (not_answers_pop hne), ?_⟩
      rintro ⟨vs, hvs, -⟩
      cases vs <;> cases hvs
    | push value =>
      obtain ⟨hlt, hops⟩ := hops
      have hiff := h.push_iff hlt value
      constructor
      · rintro ⟨hfirst, hrest⟩
        obtain ⟨q, hq⟩ := Option.isSome_iff_exists.mp hfirst
        have hs : step c (.push value) =
            some ⟨q, fifoEnqueue c.outstanding value⟩ := by rw [step, hq]; rfl
        obtain ⟨vs, rfl, hvs⟩ := (ih (pushed_step h hs) hops (by simp)).mp (hrest _ hs)
        refine ⟨value :: vs, rfl, fun i h1 h2 => ?_⟩
        rcases Nat.eq_or_lt_of_le h1 with rfl | h1
        · exact hiff.mp hfirst
        · exact hvs i h1 (by rw [List.length_cons] at h2; omega)
      · rintro ⟨vs, hvs, hclear⟩
        cases vs with
        | nil => cases hvs
        | cons v vs =>
          obtain ⟨-, rfl⟩ := List.cons.inj hvs
          rw [List.length_cons] at hclear
          refine ⟨hiff.mpr (hclear (n + 1) (by omega) (by omega)), fun t ht => ?_⟩
          refine (ih (pushed_step h ht) hops (by simp)).mpr ⟨vs, rfl, fun i h1 h2 => ?_⟩
          exact hclear i (by omega) (by omega)

theorem clear_iff {max : Nat} {vs : List ULong} : Clear max k vs ↔
    ∀ i, 0 < i → i ≤ vs.length → i ≠ k % 2 ^ 64 % max := by
  rw [Clear]
  constructor
  · intro h i h1 h2
    omega
  · intro h
    by_contra hnot
    exact h (k % 2 ^ 64 % max) (by omega) (by omega) rfl

theorem popped_throughout_iff (hops : Respects max.toNat 0 ops) :
    Throughout step Answers (popped max k) ops ↔ ∃ j, ∃ vs : List ULong,
      ops = List.replicate j .pop ++ vs.map .push ∧ Clear max.toNat (k + j) vs := by
  induction ops generalizing k with
  | nil =>
    refine ⟨fun _ => ⟨0, [], rfl, ?_⟩, fun _ => trivial⟩
    exact Nat.eq_zero_or_pos _
  | cons op ops ih =>
    cases op with
    | pop =>
      constructor
      · intro hall
        obtain ⟨j, vs, rfl, hclear⟩ := (ih hops).mp (hall.2 _ (popped_step max k))
        refine ⟨j + 1, vs, rfl, ?_⟩
        rwa [Nat.add_comm j, ← Nat.add_assoc]
      · rintro ⟨j, vs, hvs, hclear⟩
        cases j with
        | zero => cases vs <;> cases hvs
        | succ j =>
          rw [List.replicate_succ, List.cons_append] at hvs
          obtain ⟨-, rfl⟩ := List.cons.inj hvs
          refine ⟨popped_answers max k, fun t ht => ?_⟩
          obtain rfl := Option.some.inj ((popped_step max k).symm.trans ht)
          refine (ih hops).mpr ⟨j, vs, rfl, ?_⟩
          rwa [Nat.add_assoc, Nat.add_comm 1]
    | push value =>
      rw [(popped_pushed max k).throughout_iff hops (by simp)]
      constructor
      · rintro ⟨vs, hvs, hclear⟩
        refine ⟨0, vs, hvs, clear_iff.mpr fun i h1 h2 => ?_⟩
        exact hclear i h1 (by omega)
      · rintro ⟨j, vs, hvs, hclear⟩
        cases j with
        | succ j =>
          rw [List.replicate_succ, List.cons_append] at hvs
          cases hvs
        | zero =>
          exact ⟨vs, hvs, fun i h1 h2 => clear_iff.mp hclear i h1 (by omega)⟩

/-- The answers to one thread's operations on a new queue are those of a FIFO queue, without
a failed assertion, exactly where the operations are some pops followed by some pushes and
the pushes stay clear of the remainder of the number of pops. -/
theorem answers_iff (max : ULong) (ops : List QueueOp) (hops : Respects max.toNat 0 ops) :
    Throughout step Answers (start max) ops ↔ ∃ k, ∃ vs : List ULong,
      ops = List.replicate k .pop ++ vs.map .push ∧ Clear max.toNat k vs := by
  have h := popped_throughout_iff (k := 0) hops
  simp only [Nat.zero_add] at h
  exact h

/-! ## Pops on the empty queue -/

theorem behaviour_push (q : YarnsAtomicQueue) (value : ULong) : behaviour q [.push value] =
    if (q.pushIndex + 1) % q.max = q.popIndex % q.max then [.aborted] else [.pushed] := by
  rw [behaviour, push_eq]
  by_cases heq : (q.pushIndex + 1) % q.max = q.popIndex % q.max
  · rw [if_pos heq, if_pos heq]
  · rw [if_neg heq, if_neg heq]
    rfl

/-- After a pop on the new queue a first push fails. -/
theorem not_keepsEmpty (hmax : 2 ≤ max) : ¬ KeepsEmpty (start max) .pop := by
  intro h
  have hmax' : 2 ≤ max.toNat := hmax
  have hsame := h rfl rfl [.push 7] ⟨by show 0 < max.toNat - 1; omega, trivial⟩
  have hone : (1 : ULong) % max ≠ 0 % max := by
    intro heq
    have hmod := congrArg BitVec.toNat heq
    rw [BitVec.toNat_umod, BitVec.toNat_umod] at hmod
    change 1 % max.toNat = 0 % max.toNat at hmod
    rw [Nat.mod_eq_of_lt (by omega), Nat.zero_mod] at hmod
    exact absurd hmod Nat.one_ne_zero
  have hpop : (yarnsAtomicQueuePop (start max).queue).2.2 = ⟨max, 0, 1, fun _ => 0⟩ := by
    rw [pop_eq]
    rfl
  have hbefore : behaviour (start max).queue [.push 7] = [.pushed] :=
    (behaviour_push _ 7).trans (if_neg hone)
  have hafter : behaviour ⟨max, 0, 1, fun _ => 0⟩ [.push 7] = [.aborted] :=
    (behaviour_push _ 7).trans (if_pos rfl)
  rw [hpop, hbefore, hafter] at hsame
  cases hsame

theorem pushes_of_no_pop (h : ∀ op ∈ ops, op ≠ .pop) :
    ∃ vs : List ULong, ops = vs.map .push := by
  induction ops with
  | nil => exact ⟨[], rfl⟩
  | cons op ops ih =>
    obtain ⟨vs, rfl⟩ := ih fun op hop => h op (List.mem_cons_of_mem _ hop)
    cases op with
    | push value => exact ⟨value :: vs, rfl⟩
    | pop => exact absurd rfl (h .pop List.mem_cons_self)

end Yarns.QueueAtomic
