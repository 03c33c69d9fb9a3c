import Yarns.Data.Word

/-!
# The queue of `data/queue.c`

The interface of the segmented queue: values come out in the order they went in.
-/

namespace Yarns

abbrev Fifo := List ULong

def fifoNew : Fifo := []

def fifoLength (q : Fifo) : Nat := q.length

def fifoEnqueue (q : Fifo) (val : ULong) : Fifo := q ++ [val]

/-- The oldest value and the rest; `0` and no change on an empty queue. -/
def fifoDequeue : Fifo → ULong × Fifo
  | [] => (0, [])
  | val :: rest => (val, rest)

end Yarns
