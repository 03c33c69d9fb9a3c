import Yarns.Base.Parties
import Yarns.Base.WaitFor
import Yarns.Lib.AllocRuns

/-!
# The allocator under its locks

Threads that call `yalloc` and `yfree`. One step of a thread is one system call, taking or
giving back one of the two locks, or one visit to the data that a lock protects; between
two visits the thread keeps what the code keeps in its variables (the page it looks at, how
far it has walked along a chain). `bigbook_insert` and `bigbook_eatlen` call the little
allocator while they hold `big_lock`.

The blocks that callers have are kept in `live`, a big one with the length of its pages.
The first `yalloc` has been made: `isReady` is set.
-/

namespace Yarns

open Base Alloc

/-- `big_lock` and `little_lock`. -/
inductive AllocLock
  | big
  | little
  deriving DecidableEq, Repr

structure AllocShared where
  alloc : Alloc
  locks : AllocLock → Bool
  live : List Block

/-- Where `little_alloc` returns to. -/
inductive AllocCaller
  | yalloc
  /-- `bigbook_insert`, which has walked past `n` records -/
  | insert (b : Block) (n : Nat)
  deriving DecidableEq

/-- Where `little_free` returns to. -/
inductive FreeCaller
  | yfree
  /-- `bigbook_eatlen`, which has read `len` -/
  | eat (b : Block) (len : ULong)
  deriving DecidableEq

/-- What a thread does next. -/
inductive AllocPc
  | idle
  | insertLock (b : Block)
  | insertHead (b : Block)
  | insertInline (b : Block)
  | insertLink (b : Block) (n : Nat) (addr : ULong)
  | insertUnlock (b : Block)
  | allocLock (len : ULong) (k : AllocCaller)
  | allocPage (len : ULong) (k : AllocCaller)
  | allocRoom (lpi len : ULong) (k : AllocCaller)
  | allocCarve (lpi len : ULong) (k : AllocCaller)
  | allocUnlock (c : Block) (k : AllocCaller)
  | eatLock (b : Block)
  | eatFind (b : Block)
  | eatUnlink (b : Block) (n : Nat) (r : BigallocBook)
  | eatUnlock (b : Block) (len : ULong)
  | freeLock (c : Block) (k : FreeCaller)
  | freeDrop (c : Block) (k : FreeCaller)
  | freeEmpty (lpi : ULong) (k : FreeCaller)
  | freeUnlock (k : FreeCaller)
  | unmap (b : Block) (len : ULong)
  deriving DecidableEq

inductive AllocAct
  | yalloc (len addr : ULong)
  | yfree (ptr : ULong)
  /-- a caller writes into one of its blocks -/
  | write (x : ULong) (v : BitVec 8)
  /-- the call goes on; `page` is what the system gives for a little page, if it is asked -/
  | go (page : ULong)

namespace AllocAct

def goes : AllocAct → Bool
  | .go _ => true
  | _ => false

def calls : AllocAct → Bool
  | .yalloc .. | .yfree _ => true
  | _ => false

end AllocAct

namespace AllocShared

def lock (l : AllocLock) (pc : AllocPc) (m : AllocShared) : Option (AllocShared × AllocPc) :=
  if m.locks l then none else some ({ m with locks := Function.update m.locks l true }, pc)

def unlock (l : AllocLock) (m : AllocShared) : AllocShared :=
  { m with locks := Function.update m.locks l false }

def setBook (i : Fin 256) (v : Bucket) (m : AllocShared) : AllocShared :=
  { m with alloc := { m.alloc with books := Function.update m.alloc.books i v } }

def setPage (lpi : ULong) (h : LittlePageInfo) (m : AllocShared) : AllocShared :=
  { m with alloc := { m.alloc with pages := Function.update m.alloc.pages lpi (some h) } }

/-- `little_alloc` returns the block `c`. -/
def allocReturn (c : Block) (m : AllocShared) : AllocCaller → AllocShared × AllocPc
  | .yalloc => ({ m with live := c :: m.live }, .idle)
  | .insert b n => (m, .insertLink b n c.ptr)

def freeReturn : FreeCaller → AllocPc
  | .yfree => .idle
  | .eat b len => .eatUnlock b len

/-- A thread goes on with its call. -/
def access (page : ULong) (m : AllocShared) : AllocPc → Option (AllocShared × AllocPc)
  | .idle => none
  | .insertLock b => m.lock .big (.insertHead b)
  | .insertHead b =>
    let book := m.alloc.books (bookIndex b.ptr)
    some (m, if book.lptr = 0 then .insertInline b
      else .allocLock recordSize (.insert b book.next.length))
  | .insertInline b =>
    let book := m.alloc.books (bookIndex b.ptr)
    some (m.setBook (bookIndex b.ptr) { book with lptr := b.ptr, len := b.len },
      .insertUnlock b)
  | .insertLink b n addr =>
    -- what the last record seen pointed to is lost
    let book := m.alloc.books (bookIndex b.ptr)
    some (m.setBook (bookIndex b.ptr)
      { book with next := book.next.take n ++ [⟨addr, b.ptr, b.len⟩] }, .insertUnlock b)
  | .insertUnlock b => some ({ m.unlock .big with live := b :: m.live }, .idle)
  | .allocLock len k => m.lock .little (.allocPage len k)
  | .allocPage len k =>
    (getLittlePage page m.alloc).map fun a =>
      ({ m with alloc := a }, .allocRoom a.littlePageActive len k)
  | .allocRoom lpi len k => do
    let h ← m.alloc.pages lpi
    if h.remainingLen < len then
      let a ← littlePageAllocate page m.alloc
      let a ← getLittlePage page a
      some ({ m with alloc := a }, .allocCarve a.littlePageActive len k)
    else
      some (m, .allocCarve lpi len k)
  | .allocCarve lpi len k =>
    (m.alloc.pages lpi).map fun h =>
      (m.setPage lpi ⟨h.nalloc + 1, h.remainingLen - len, h.nextbase + len⟩,
        .allocUnlock ⟨h.nextbase, len⟩ k)
  | .allocUnlock c k => some ((m.unlock .little).allocReturn c k)
  | .eatLock b => m.lock .big (.eatFind b)
  | .eatFind b =>
    let book := m.alloc.books (bookIndex b.ptr)
    if book.lptr = b.ptr then
      some (m, .eatUnlock b book.len)
    else
      let n := book.next.findIdx (·.lptr = b.ptr)
      book.next[n]?.map fun r => (m, .eatUnlink b n r)
  | .eatUnlink b n r =>
    let book := m.alloc.books (bookIndex b.ptr)
    some (m.setBook (bookIndex b.ptr) { book with next := book.next.eraseIdx n },
      .freeLock ⟨r.addr, recordSize⟩ (.eat b r.len))
  | .eatUnlock b len => some (m.unlock .big, .unmap b len)
  | .freeLock c k => m.lock .little (.freeDrop c k)
  | .freeDrop c k =>
    (m.alloc.pages (pageOf c.ptr)).map fun h =>
      (m.setPage (pageOf c.ptr) { h with nalloc := h.nalloc - 1 },
        if h.nalloc - 1 = 0 then .freeEmpty (pageOf c.ptr) k else .freeUnlock k)
  | .freeEmpty lpi k =>
    if lpi = m.alloc.littlePageActive then
      some ({ m with alloc := { m.alloc with
        pages := Function.update m.alloc.pages lpi (some (emptyPage lpi))
        bytes := memset (lpi + headerSize) (littlePagesSize - headerSize) m.alloc.bytes } },
        .freeUnlock k)
    else
      (pageDeallocate lpi littlePagesSize m.alloc).map fun a =>
        ({ m with alloc := a }, .freeUnlock k)
  | .freeUnlock k => some (m.unlock .little, freeReturn k)
  | .unmap b len =>
    (pageDeallocate b.ptr len m.alloc).map fun a => ({ m with alloc := a }, .idle)

/-- A thread that is not in a call makes one, or writes; one that is in a call goes on. -/
def act (m : AllocShared) : AllocPc → AllocAct → Option (AllocShared × AllocPc)
  | .idle, .yalloc len addr =>
    if 2048 < len then
      (pageAllocate addr (roundUp len) m.alloc).map fun a =>
        ({ m with alloc := a }, .insertLock ⟨addr, roundUp len⟩)
    else
      some (m, .allocLock len .yalloc)
  | .idle, .yfree ptr =>
    (m.live.find? (·.ptr = ptr)).map fun b =>
      ({ m with live := m.live.eraseP (·.ptr = ptr) },
      if ptr % bigPageThreshold ≠ 0 then .freeLock b .yfree else .eatLock b)
  | .idle, .write x v =>
    if ∃ b ∈ m.live, b.Mem x then
      some ({ m with alloc := { m.alloc with
        bytes := Function.update m.alloc.bytes x v } }, .idle)
    else
      none
  | pc, .go page => m.access page pc
  | _, _ => none

end AllocShared

namespace AllocCaller

def big : AllocCaller → List Block
  | .yalloc => []
  | .insert b _ => [b]

def holdsBig : AllocCaller → Bool
  | .yalloc => false
  | .insert _ _ => true

def work : AllocCaller → Nat
  | .yalloc => 0
  | .insert _ _ => 2

end AllocCaller

namespace FreeCaller

def big : FreeCaller → List Block
  | .yfree => []
  | .eat b _ => [b]

def holdsBig : FreeCaller → Bool
  | .yfree => false
  | .eat _ _ => true

def work : FreeCaller → Nat
  | .yfree => 0
  | .eat _ _ => 2

end FreeCaller

namespace AllocPc

/-- The little blocks of the call: carved and not handed out, or given back and not yet
taken off their page. -/
def little : AllocPc → List Block
  | .insertLink _ _ addr => [⟨addr, recordSize⟩]
  | .allocUnlock c _ => [c]
  | .freeLock c _ | .freeDrop c _ => [c]
  | _ => []

/-- The pages of the call. -/
def big : AllocPc → List Block
  | .insertLock b | .insertHead b | .insertInline b | .insertLink b _ _ | .insertUnlock b => [b]
  | .allocLock _ k | .allocPage _ k | .allocRoom _ _ k | .allocCarve _ _ k | .allocUnlock _ k =>
    k.big
  | .eatLock b | .eatFind b | .eatUnlink b _ _ | .eatUnlock b _ => [b]
  | .freeLock _ k | .freeDrop _ k | .freeEmpty _ k | .freeUnlock k => k.big
  | .unmap b _ => [b]
  | .idle => []

def holds : AllocPc → AllocLock → Bool
  | .insertHead _, .big | .insertInline _, .big | .insertLink .., .big => true
  | .insertUnlock _, .big => true
  | .allocLock _ k, .big | .allocPage _ k, .big | .allocRoom _ _ k, .big => k.holdsBig
  | .allocCarve _ _ k, .big | .allocUnlock _ k, .big => k.holdsBig
  | .eatFind _, .big | .eatUnlink .., .big | .eatUnlock .., .big => true
  | .freeLock _ k, .big | .freeDrop _ k, .big | .freeEmpty _ k, .big => k.holdsBig
  | .freeUnlock k, .big => k.holdsBig
  | .allocPage .., .little | .allocRoom .., .little | .allocCarve .., .little => true
  | .allocUnlock .., .little => true
  | .freeDrop .., .little | .freeEmpty .., .little | .freeUnlock _, .little => true
  | _, _ => false

/-- The block that the next step hands out. -/
def returns : AllocPc → List Block
  | .insertUnlock b => [b]
  | .allocUnlock c .yalloc => [c]
  | _ => []

/-- The lock that the next step takes. -/
def waits : AllocPc → Option AllocLock
  | .insertLock _ | .eatLock _ => some .big
  | .allocLock .. | .freeLock .. => some .little
  | _ => none

/-- How many steps the call makes at most. -/
def work : AllocPc → Nat
  | .idle => 0
  | .insertLock _ => 9
  | .insertHead _ => 8
  | .insertInline _ | .insertLink .. => 2
  | .insertUnlock _ => 1
  | .allocLock _ k => k.work + 5
  | .allocPage _ k => k.work + 4
  | .allocRoom _ _ k => k.work + 3
  | .allocCarve _ _ k => k.work + 2
  | .allocUnlock _ k => k.work + 1
  | .eatLock _ => 9
  | .eatFind _ => 8
  | .eatUnlink .. => 7
  | .eatUnlock .. => 2
  | .freeLock _ k => k.work + 4
  | .freeDrop _ k => k.work + 3
  | .freeEmpty _ k => k.work + 2
  | .freeUnlock k => k.work + 1
  | .unmap .. => 1

end AllocPc

end Yarns
