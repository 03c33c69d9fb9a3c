import Mathlib.Logic.Function.Basic
import Yarns.Data.Word

/-!
# The allocator

`yalloc` and `yfree` of `src/lib/alloc.c` over `page_allocate` and `page_deallocate` of
`src/system/pages.c` (the variant that unmaps exactly what it is told). Requests up to
2048 bytes are carved from little pages, larger ones are whole page ranges that the book
of big allocations records by address.

The address that the system gives `page_allocate` is an argument. A fault (a header or a
record read through a bad pointer, a failed assertion, an address the system cannot give)
is `none`. Headers of little pages and records of the book are kept as records under their
addresses, the bytes of everything else in `bytes`. The two locks and the debug output are
left out.
-/

namespace Yarns

/-- `little_page_info`, the header of a little page. -/
structure LittlePageInfo where
  nalloc : ULong
  remainingLen : ULong
  nextbase : ULong

/-- A `bigalloc_book` that was allocated, with its own address. -/
structure BigallocBook where
  addr : ULong
  lptr : ULong
  len : ULong
  deriving DecidableEq

/-- One entry of `books`: its inline record and the records that hang off its `next`. -/
structure Bucket where
  lptr : ULong
  len : ULong
  next : List BigallocBook

structure Alloc where
  bytes : ULong → BitVec 8
  /-- by page number -/
  mapped : Nat → Bool
  pages : ULong → Option LittlePageInfo
  littlePageActive : ULong
  books : Fin 256 → Bucket
  isReady : Bool

namespace Alloc

def littlePagesCount : ULong := 1

def bigPageThreshold : ULong := 4096

def littlePagesSize : ULong := 4096 * littlePagesCount

/-- `sizeof(little_page_info)`. -/
def headerSize : ULong := 24

/-- `sizeof(bigalloc_book)`. -/
def recordSize : ULong := 24

/-- Nothing is mapped and the statics are zero. -/
def init : Alloc where
  bytes := fun _ => 0
  mapped := fun _ => false
  pages := fun _ => none
  littlePageActive := 0
  books := fun _ => ⟨0, 0, []⟩
  isReady := false

/-! ## Pages -/

/-- `memset(ptr, 0, len)`. -/
def memset (ptr len : ULong) (bytes : ULong → BitVec 8) : ULong → BitVec 8 :=
  fun x => if x - ptr < len then 0 else bytes x

/-- The system can give `[addr, addr + bytes)`: whole pages, none of them mapped. -/
def Fresh (a : Alloc) (addr bytes : ULong) : Prop :=
  addr ≠ 0 ∧ addr.toNat % 4096 = 0 ∧ 0 < bytes.toNat ∧ addr.toNat + bytes.toNat ≤ 2 ^ 64 ∧
    ∀ k < bytes.toNat / 4096, a.mapped (addr.toNat / 4096 + k) = false

instance (a : Alloc) (addr bytes : ULong) : Decidable (a.Fresh addr bytes) :=
  inferInstanceAs (Decidable (_ ∧ _))

/-- The pages of `[addr, addr + bytes)`. -/
def InRange (addr bytes : ULong) (k : Nat) : Prop :=
  addr.toNat / 4096 ≤ k ∧ k < addr.toNat / 4096 + bytes.toNat / 4096

instance (addr bytes : ULong) (k : Nat) : Decidable (InRange addr bytes k) :=
  inferInstanceAs (Decidable (_ ∧ _))

/-- The system gives `addr`; every caller asks for zeroed pages. -/
def pageAllocate (addr bytes : ULong) (a : Alloc) : Option Alloc :=
  if bytes.toNat % 4096 = 0 ∧ a.Fresh addr bytes then
    some { a with
      mapped := fun k => decide (InRange addr bytes k) || a.mapped k
      bytes := memset addr bytes a.bytes }
  else
    none

def pageDeallocate (ptr bytes : ULong) (a : Alloc) : Option Alloc :=
  if ptr ≠ 0 ∧ bytes.toNat % 4096 = 0 then
    some { a with
      mapped := fun k => !decide (InRange ptr bytes k) && a.mapped k
      pages := fun p => if InRange ptr bytes (p.toNat / 4096) then none else a.pages p }
  else
    none

/-! ## The little allocator -/

/-- The header of a little page with nothing on it. -/
def emptyPage (page : ULong) : LittlePageInfo :=
  ⟨0, littlePagesSize - headerSize, page + headerSize⟩

def littlePageAllocate (page : ULong) (a : Alloc) : Option Alloc :=
  (pageAllocate page littlePagesSize a).map fun a =>
    { a with
      littlePageActive := page
      pages := Function.update a.pages page (some (emptyPage page)) }

/-- The page it returns is the active one. -/
def getLittlePage (page : ULong) (a : Alloc) : Option Alloc := do
  let a ← if a.littlePageActive = 0 then littlePageAllocate page a else some a
  let lpi ← a.pages a.littlePageActive
  if lpi.nextbase = 0 then littlePageAllocate page a else some a

/-- Carve `len` bytes from the active page, which has the header `lpi`. -/
def carve (lpi : LittlePageInfo) (len : ULong) (a : Alloc) : ULong × Alloc :=
  (lpi.nextbase, { a with
    pages := Function.update a.pages a.littlePageActive
      (some ⟨lpi.nalloc + 1, lpi.remainingLen - len, lpi.nextbase + len⟩) })

def littleAlloc (len page : ULong) (a : Alloc) : Option (ULong × Alloc) := do
  let a ← getLittlePage page a
  let lpi ← a.pages a.littlePageActive
  let a ← if lpi.remainingLen < len then
      (littlePageAllocate page a).bind (getLittlePage page)
    else
      some a
  let lpi ← a.pages a.littlePageActive
  some (carve lpi len a)

/-- The little page that `ptr` lies on. -/
def pageOf (ptr : ULong) : ULong := ptr - ptr % littlePagesSize

def littleFree (ptr : ULong) (a : Alloc) : Option Alloc := do
  let lptr := pageOf ptr
  let lpi ← a.pages lptr
  if lpi.nalloc - 1 = 0 then
    if lptr = a.littlePageActive then
      some { a with
        pages := Function.update a.pages lptr (some (emptyPage lptr))
        bytes := memset (lptr + headerSize) (littlePagesSize - headerSize) a.bytes }
    else
      pageDeallocate lptr littlePagesSize a
  else
    some { a with
      pages := Function.update a.pages lptr (some { lpi with nalloc := lpi.nalloc - 1 }) }

/-! ## The book of big allocations -/

/-- `unsigned idx` keeps the low 32 bits of the address. -/
def bookIndex (lptr : ULong) : Fin 256 := Fin.ofNat 256 (lptr.toNat % 2 ^ 32 / 4096)

def yallocinit (a : Alloc) : Alloc := { a with books := fun _ => ⟨0, 0, []⟩, isReady := true }

/-- A record goes inline if the entry has none, and else to the end of the chain, in a
block of the little allocator. -/
def bigbookInsert (lptr len page : ULong) (a : Alloc) : Option Alloc :=
  let book := a.books (bookIndex lptr)
  if book.lptr = 0 then
    some { a with
      books := Function.update a.books (bookIndex lptr) { book with lptr := lptr, len := len } }
  else
    (littleAlloc recordSize page a).map fun r =>
      { r.2 with
        books := Function.update a.books (bookIndex lptr)
          { book with next := book.next ++ [⟨r.1, lptr, len⟩] } }

/-- The first record under `lptr`; one that was allocated is unlinked and freed. Without
a record the search ends with a null `book`, which the next line reads. -/
def bigbookEatlen (lptr : ULong) (a : Alloc) : Option (ULong × Alloc) :=
  let book := a.books (bookIndex lptr)
  if book.lptr = lptr then
    some (book.len, a)
  else do
    let r ← book.next.find? (·.lptr = lptr)
    let a ← littleFree r.addr { a with
      books := Function.update a.books (bookIndex lptr)
        { book with next := book.next.eraseP (·.lptr = lptr) } }
    some (r.len, a)

/-! ## The interface -/

/-- The length of the pages for a big block. -/
def roundUp (len : ULong) : ULong := (len + 4095) &&& ~~~(4095 : ULong)

/-- `addr` and `page` are the addresses that the system gives for a big block and for a
little page, if the call asks for them. -/
def yalloc (len addr page : ULong) (a : Alloc) : Option (ULong × Alloc) := do
  let a := if a.isReady then a else yallocinit a
  if 2048 < len then
    let a ← pageAllocate addr (roundUp len) a
    let a ← bigbookInsert addr (roundUp len) page a
    some (addr, a)
  else
    littleAlloc len page a

def yfree (ptr : ULong) (a : Alloc) : Option Alloc := do
  if ptr % bigPageThreshold ≠ 0 then
    littleFree ptr a
  else
    let (len, a) ← bigbookEatlen ptr a
    if len = 0 ∧ 1 < littlePagesCount then
      littleFree ptr a
    else
      pageDeallocate ptr len a

end Alloc

end Yarns
