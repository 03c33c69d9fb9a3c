import Yarns.Base.Blocks
import Yarns.Data.Queue

/-!
# The segmented queue of `data/queue.c`

The queue as the code keeps it: a chain of segments with room for 61 values each, taken
from `yalloc` one by one and given back one by one. A segment pointer is the number of the
block it points to, none where it is null; the addresses `yalloc` chooses are arguments.
An operation fails (`none`) where the code would read or write through a null pointer or a
released segment, use an element index outside the segment, or release a segment twice.
-/

namespace Yarns.Segmented

open Base

/-- `FIFO_ELEMENTS_PER_SEGMENT`. -/
def fifoElementsPerSegment : Nat := 61

structure FifoSegment where
  index : Nat
  count : Nat
  next : Option Nat
  elements : Vector ULong fifoElementsPerSegment

/-- `sizeof(fifo_segment)`: three words and the elements. -/
def sizeofFifoSegment : Nat := 8 * (3 + fifoElementsPerSegment)

structure Fifo where
  length : ULong
  head : Option Nat
  tail : Option Nat

abbrev Heap := Blocks FifoSegment

/-- What `yalloc` puts in a block. -/
def FifoSegment.zero : FifoSegment := ⟨0, 0, none, .replicate _ 0⟩

def FifoSegment.load (s : FifoSegment) (i : Nat) : Option ULong := s.elements[i]?

def FifoSegment.store (s : FifoSegment) (i : Nat) (val : ULong) : Option FifoSegment :=
  if h : i < fifoElementsPerSegment then
    some { s with elements := s.elements.set i val h }
  else none

def deref (heap : Heap) (p : Option Nat) : Option FifoSegment := p.bind heap.read

def modify (heap : Heap) (p : Option Nat) (f : FifoSegment → Option FifoSegment) :
    Option Heap := p.bind fun n => heap.update n f

def yfree (heap : Heap) (p : Option Nat) : Option Heap := p.bind heap.free

def fifoNew : Fifo := ⟨0, none, none⟩

def fifoLength (q : Fifo) : ULong := q.length

def fifoEnqueue (q : Fifo) (heap : Heap) (val : ULong) (address : Nat) :
    Option (Fifo × Heap) := do
  let (q, heap) ←
    match q.head with
    | none => do
      let seg := some heap.allocated
      let heap := heap.alloc address .zero
      let q := { q with head := seg, tail := seg }
      let heap ← modify heap q.head fun s => FifoSegment.store { s with count := 1 } 0 val
      pure (q, heap)
    | some _ => do
      let tail ← deref heap q.tail
      if tail.count = fifoElementsPerSegment then do
        let seg := some heap.allocated
        let heap := heap.alloc address .zero
        let heap ← modify heap q.tail fun s => some { s with next := seg }
        let tail ← deref heap q.tail
        let q := { q with tail := tail.next }
        let heap ← modify heap q.tail fun s => FifoSegment.store { s with count := 1 } 0 val
        pure (q, heap)
      else do
        let heap ← modify heap q.tail fun s =>
          FifoSegment.store { s with count := s.count + 1 } s.count val
        pure (q, heap)
  pure ({ q with length := q.length + 1 }, heap)

def fifoDequeue (q : Fifo) (heap : Heap) : Option (ULong × Fifo × Heap) :=
  if q.length = 0 then some (0, q, heap)
  else do
    let head ← deref heap q.head
    let val ← head.load head.index
    let heap ← modify heap q.head fun s => some { s with index := s.index + 1 }
    let head ← deref heap q.head
    let (q, heap) ←
      if head.index = fifoElementsPerSegment then do
        let seg := q.head
        let q := { q with head := head.next }
        let heap ← yfree heap seg
        pure (if q.head.isNone then { q with tail := none } else q, heap)
      else pure (q, heap)
    pure (val, { q with length := q.length - 1 }, heap)

/-- The loop of `fifo_free`. Every round releases another block. -/
def freeSegments (heap : Heap) : Nat → Option Nat → Option Heap
  | _, none => some heap
  | 0, some _ => none
  | rounds + 1, some seg => do
    let s ← heap.read seg
    let heap ← heap.free seg
    freeSegments heap rounds s.next

def fifoFree (q : Fifo) (heap : Heap) : Option Heap :=
  freeSegments heap heap.allocated q.head

/-! ## What the segments hold -/

/-- The values of a segment that are still queued. -/
def FifoSegment.values (s : FifoSegment) : List ULong :=
  (s.elements.toList.take s.count).drop s.index

def contents (segs : List (Nat × FifoSegment)) : Yarns.Fifo :=
  segs.flatMap fun c => c.2.values

/-- Each segment is live at its number and points to the next one. -/
def Linked (heap : Heap) : List (Nat × FifoSegment) → Prop
  | [] => True
  | (n, s) :: rest =>
    heap.read n = some s ∧ s.next = rest.head?.map Prod.fst ∧ Linked heap rest

/-- The queue is the chain `segs`, and the chain is all that is live. Only the last segment
may have room, only the first may have been read from; a drained segment is the first and
the last. -/
structure Holds (q : Fifo) (heap : Heap) (segs : List (Nat × FifoSegment)) : Prop where
  linked : Linked heap segs
  nodup : (segs.map Prod.fst).Nodup
  live : ∀ n, (heap.read n).isSome → n ∈ segs.map Prod.fst
  head : q.head = segs.head?.map Prod.fst
  tail : q.tail = segs.getLast?.map Prod.fst
  within : ∀ c ∈ segs, c.2.index ≤ c.2.count ∧ c.2.index < fifoElementsPerSegment ∧
    c.2.count ≤ fifoElementsPerSegment
  full : ∀ c ∈ segs.dropLast, c.2.count = fifoElementsPerSegment
  fresh : ∀ c ∈ segs.tail, c.2.index = 0
  apart : heap.Apart sizeofFifoSegment (2 ^ 64)
  length : q.length = BitVec.ofNat 64 (contents segs).length

theorem FifoSegment.values_length_le (s : FifoSegment) :
    s.values.length ≤ fifoElementsPerSegment := by
  rw [values, List.length_drop, List.length_take, Vector.length_toList]
  omega

theorem FifoSegment.values_cons {s : FifoSegment} (h : s.index < s.count)
    (hi : s.index < fifoElementsPerSegment) :
    s.values = s.elements[s.index] :: { s with index := s.index + 1 }.values := by
  rw [values, values, List.drop_eq_getElem_cons (by simp; omega)]
  simp

theorem FifoSegment.values_drained {s : FifoSegment} (h : s.count ≤ s.index) :
    s.values = [] := by
  simp [values]
  omega

/-- Storing behind the last value appends it. -/
theorem FifoSegment.store_values {s : FifoSegment} (hi : s.index ≤ s.count)
    (hc : s.count < fifoElementsPerSegment) (val : ULong) :
    ∃ s', FifoSegment.store { s with count := s.count + 1 } s.count val = some s' ∧
      s'.index = s.index ∧ s'.count = s.count + 1 ∧ s'.next = s.next ∧
      s'.values = s.values ++ [val] := by
  refine ⟨_, dif_pos hc, rfl, rfl, rfl, ?_⟩
  have htake : (s.elements.set s.count val hc).toList.take (s.count + 1) =
      s.elements.toList.take s.count ++ [val] := by
    rw [List.take_add_one, Vector.toList_set, List.take_set_of_le (Nat.le_refl _)]
    simp [hc]
  rw [values, values, htake, List.drop_append_of_le_length]
  simp
  omega

end Yarns.Segmented
