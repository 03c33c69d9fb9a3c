import Yarns.Base.FirstMatch
import Yarns.Data.Word

/-!
# Pools

`lib/pool.c` on LP64, run by one thread: the chain of pools that a `pool*` heads is a
list, and a pool keeps the address of its block. The address `yalloc` returns is an
argument; it must be a block that is free (`yallocFree`).

`1 << n` shifts the `int` 1: x86 takes the count modulo 32, and the result is
sign-extended where it is stored in an `unsigned long`.
-/

namespace Yarns

open Base

def SLOTS_PER_SUBPOOL : Nat := 64

structure Subpool where
  availFlags : ULong
  data : ULong
  deriving DecidableEq, Repr

structure Pool where
  base : ULong
  size : ULong
  slots : ULong
  subpools : List Subpool
  deriving DecidableEq, Repr

/-- `1 << n`, converted to `unsigned long`. -/
def intShift (n : Nat) : ULong := ((1 : BitVec 32) <<< (n % 32)).signExtend 64

def clz (i : ULong) : Nat := i.clz.toNat

def nsubpools (slots : ULong) : ULong := (slots + 64 - 1) / 64

/-- `sizeof(pool)` is 40 and `sizeof(subpool)` is 16. -/
def sizeTotal (size slots : ULong) : ULong :=
  40 + 16 * nsubpools slots + size * 64 * nsubpools slots

/-- The block of `sizeTotal` bytes at `base` overlaps no pool of the list. -/
def yallocFree (pools : List Pool) (size slots base : ULong) : Prop :=
  base ≠ 0 ∧ base.toNat + (sizeTotal size slots).toNat ≤ 2 ^ 64 ∧
    ∀ p ∈ pools, base.toNat + (sizeTotal size slots).toNat ≤ p.base.toNat ∨
      p.base.toNat + (sizeTotal p.size p.slots).toNat ≤ base.toNat

instance (pools : List Pool) (size slots base : ULong) :
    Decidable (yallocFree pools size slots base) :=
  inferInstanceAs (Decidable (base ≠ 0 ∧ base.toNat + (sizeTotal size slots).toNat ≤ 2 ^ 64 ∧
    ∀ p ∈ pools, base.toNat + (sizeTotal size slots).toNat ≤ p.base.toNat ∨
      p.base.toNat + (sizeTotal p.size p.slots).toNat ≤ base.toNat))

/-- `none` where an `assert` fails, where `yalloc` does not return `base`, and where the
`int` counter of the loop overflows. -/
def poolCreate (pools : List Pool) (size slots base : ULong) : Option Pool :=
  let n := (nsubpools slots).toNat
  if size = 0 ∨ slots = 0 ∨ ¬ yallocFree pools size slots base ∨ 2 ^ 31 ≤ n then none else
    let data := base + 40 + 16 * nsubpools slots
    some ⟨base, size, slots,
      (List.range n).map fun i => ⟨ulongMax, data + BitVec.ofNat 64 i * (64 * size)⟩⟩

/-- The loop over the subpools of a pool. -/
def Pool.updateSubpool {β : Type} (f : ULong → Subpool → Option (Subpool × β)) (p : Pool) :
    Option (Pool × β) :=
  (updateFirst (f p.size) p.subpools).map fun r => ({ p with subpools := r.1 }, r.2)

def Subpool.allocate (size : ULong) (s : Subpool) : Option (Subpool × ULong) :=
  if s.availFlags ≠ 0 then
    let bitPosition := SLOTS_PER_SUBPOOL - clz s.availFlags - 1
    let mask := intShift bitPosition
    some ({ s with availFlags := s.availFlags &&& ~~~mask },
      s.data + size * BitVec.ofNat 64 bitPosition)
  else none

def Pool.allocate (p : Pool) : Option (Pool × ULong) := p.updateSubpool Subpool.allocate

/-- A pool chained to `pools`, and the first allocation from it. -/
def allocateChained (pools : List Pool) (base : ULong) : Option (List Pool × ULong) := do
  let p ← pools.getLast?
  let chained ← poolCreate pools p.size p.slots base
  let (chained, ptr) ← chained.allocate
  some (pools ++ [chained], ptr)

def poolAllocate (pools : List Pool) (base : ULong) : Option (List Pool × ULong) :=
  match updateFirst Pool.allocate pools with
  | some r => some r
  | none => allocateChained pools base

def Subpool.free (ptr size : ULong) (s : Subpool) : Option (Subpool × Unit) :=
  let diff := ptr - s.data
  if ptr > s.data ∧ diff < 64 * size then
    let mask := intShift (SLOTS_PER_SUBPOOL - (diff / size).toNat)
    some ({ s with availFlags := s.availFlags ||| mask }, ())
  else none

def Pool.free (ptr : ULong) (p : Pool) : Option (Pool × Unit) :=
  p.updateSubpool (Subpool.free ptr)

def poolFree (pools : List Pool) (ptr : ULong) : List Pool :=
  if ptr = 0 then pools else
    match updateFirst (Pool.free ptr) pools with
    | some (pools, _) => pools
    | none => pools

end Yarns
