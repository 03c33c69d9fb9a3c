import Mathlib.Data.List.Basic
import Yarns.Data.Rbtree

/-!
# The process table

`_ptable` of `lib/yarn.c`: a tree of blocks of 64 slots, by `pid / 64`, and the slot
`pid % 64` in the block. A block is made at the first access, a read or a write, to one of
its pids. Memory is a word at each address; two slots never overlap, so a write to a slot
is a write to its word. For every run of accesses the table is a map from pids to pointers,
and the slot of a pid stays where it is (`table_is_map`).
-/

namespace Yarns

open Base

/-- `PROCESSES_PER_BLOCK` -/
abbrev processesPerBlock : ULong := 64

/-- `sizeof(process_block)` -/
abbrev processBlockSize : Nat := 512

/-- The tree of blocks, null at first, and the words in memory. -/
structure ProcessTable where
  processBlockTree : Option Rbtree
  memory : ULong → ULong

/-- A read or a write through `PTABLE`. `block` is what `yalloc` returns if it is called. -/
inductive Access where
  | read (pid block : ULong)
  | write (pid value block : ULong)

namespace Access

def pid : Access → ULong
  | .read pid _ => pid
  | .write pid _ _ => pid

def block : Access → ULong
  | .read _ block => block
  | .write _ _ block => block

/-- What the access does to a map. -/
def apply (m : ULong → ULong) : Access → ULong → ULong
  | .read _ _ => m
  | .write pid value _ => Function.update m pid value

end Access

/-- The value written last at each pid, or null. -/
def lastWritten (accesses : List Access) : ULong → ULong :=
  accesses.foldl Access.apply fun _ => 0

namespace ProcessTable

/-- The tree is made at the first access. -/
def tree (t : ProcessTable) : Rbtree := t.processBlockTree.getD rbtreeNew

/-- The block at `block`, filled with zeros. -/
def zeroFill (memory : ULong → ULong) (block : ULong) : ULong → ULong := fun a =>
  if block ≤ a ∧ a.toNat < block.toNat + processBlockSize then 0 else memory a

def slotOf (block pid : ULong) : ULong := block + 8 * (pid % processesPerBlock)

/-- The address of the slot. -/
def ptable (t : ProcessTable) (pid block : ULong) : ProcessTable × ULong :=
  let major := pid / processesPerBlock
  match rbtreeSearch t.tree major with
  | some found => ({ t with processBlockTree := some t.tree }, slotOf found pid)
  | none =>
    ({ processBlockTree := some (rbtreeInsert t.tree major block)
       memory := zeroFill t.memory block }, slotOf block pid)

/-- A store through the address of a slot. -/
def store (t : ProcessTable) (slot value : ULong) : ProcessTable :=
  { t with memory := Function.update t.memory slot value }

/-- The table after an access. -/
def access (t : ProcessTable) (a : Access) : ProcessTable :=
  let (t, slot) := t.ptable a.pid a.block
  match a with
  | .read _ _ => t
  | .write _ value _ => t.store slot value

/-- The slot that an access hands out. -/
def slot (t : ProcessTable) (a : Access) : ULong := (t.ptable a.pid a.block).2

/-- What a read at `pid` returns. -/
def readAt (t : ProcessTable) (pid block : ULong) : ULong :=
  let (t, slot) := t.ptable pid block
  t.memory slot

def run (t : ProcessTable) (accesses : List Access) : ProcessTable := accesses.foldl access t

/-- What `yalloc` promises: a block in the address space, apart from the blocks there are. -/
def Allocatable (t : ProcessTable) (block : ULong) : Prop :=
  block.toNat + processBlockSize ≤ 2 ^ 64 ∧ ∀ major found, rbtreeSearch t.tree major = some found →
    found.toNat + processBlockSize ≤ block.toNat ∨ block.toNat + processBlockSize ≤ found.toNat

/-- The access has a block where it needs one. -/
def Provides (t : ProcessTable) (pid block : ULong) : Prop :=
  rbtreeSearch t.tree (pid / processesPerBlock) = none → t.Allocatable block

/-- Every access of a run has. -/
def Supplied (t : ProcessTable) : List Access → Prop
  | [] => True
  | a :: accesses => t.Provides a.pid a.block ∧ Supplied (t.access a) accesses

/-! ## Blocks and slots -/

/-- The blocks are in the address space and apart. -/
structure Inv (t : ProcessTable) : Prop where
  range : ∀ major block, rbtreeSearch t.tree major = some block →
    block.toNat + processBlockSize ≤ 2 ^ 64
  apart : ∀ major block major' block', rbtreeSearch t.tree major = some block →
    rbtreeSearch t.tree major' = some block' → major ≠ major' →
      block.toNat + processBlockSize ≤ block'.toNat ∨
        block'.toNat + processBlockSize ≤ block.toNat

variable {t : ProcessTable} {pid pid' block found value : ULong} {a b : Access}
  {accesses : List Access}

theorem slotOf_toNat (h : block.toNat + processBlockSize ≤ 2 ^ 64) (pid : ULong) :
    (slotOf block pid).toNat = block.toNat + 8 * (pid.toNat % 64) := by
  have hmod : (pid % processesPerBlock).toNat = pid.toNat % 64 := BitVec.toNat_umod
  rw [processBlockSize] at h
  rw [slotOf, BitVec.toNat_add, BitVec.toNat_mul, hmod]
  show (block.toNat + 8 * (pid.toNat % 64) % 2 ^ 64) % 2 ^ 64 = _
  omega

/-- Slots of different pids do not overlap. -/
theorem slots_apart (h : t.Inv) (hne : pid ≠ pid')
    (hblock : rbtreeSearch t.tree (pid / processesPerBlock) = some block)
    (hfound : rbtreeSearch t.tree (pid' / processesPerBlock) = some found) :
    (slotOf block pid).toNat + 8 ≤ (slotOf found pid').toNat ∨
      (slotOf found pid').toNat + 8 ≤ (slotOf block pid).toNat := by
  rw [slotOf_toNat (h.range _ _ hblock), slotOf_toNat (h.range _ _ hfound)]
  by_cases hmajor : pid / processesPerBlock = pid' / processesPerBlock
  · rw [hmajor, hfound] at hblock
    obtain rfl := Option.some.inj hblock
    have hdiv : pid.toNat / 64 = pid'.toNat / 64 := by
      simpa [BitVec.toNat_udiv] using congrArg BitVec.toNat hmajor
    have hnat : pid.toNat ≠ pid'.toNat := fun heq => hne (BitVec.eq_of_toNat_eq heq)
    omega
  · have happart := h.apart _ _ _ _ hblock hfound hmajor
    rw [processBlockSize] at happart
    omega

/-- What the slot of a pid holds, if there is one. -/
def content (t : ProcessTable) (pid : ULong) : ULong :=
  match rbtreeSearch t.tree (pid / processesPerBlock) with
  | some found => t.memory (slotOf found pid)
  | none => 0

theorem content_of_search
    (h : rbtreeSearch t.tree (pid / processesPerBlock) = some found) :
    t.content pid = t.memory (slotOf found pid) := by
  rw [content, h]

theorem content_of_none (h : rbtreeSearch t.tree (pid / processesPerBlock) = none) :
    t.content pid = 0 := by
  rw [content, h]

/-- A new block is zero, and the slots in other blocks are as they were. -/
theorem zeroFill_new (memory : ULong → ULong) (h : block.toNat + processBlockSize ≤ 2 ^ 64) :
    zeroFill memory block (slotOf block pid) = 0 := by
  have hslot := slotOf_toNat h pid
  refine if_pos ⟨?_, ?_⟩
  · rw [BitVec.le_def]
    omega
  · rw [processBlockSize]
    omega

theorem zeroFill_old (memory : ULong → ULong) (h : found.toNat + processBlockSize ≤ 2 ^ 64)
    (happart : found.toNat + processBlockSize ≤ block.toNat ∨
      block.toNat + processBlockSize ≤ found.toNat) :
    zeroFill memory block (slotOf found pid) = memory (slotOf found pid) := by
  have hslot := slotOf_toNat h pid
  refine if_neg fun hin => ?_
  obtain ⟨hle, hlt⟩ := hin
  rw [BitVec.le_def] at hle
  rw [processBlockSize] at happart hlt
  omega

/-! ## One access -/

/-- The blocks that there are stay. -/
def Keeps (t t' : ProcessTable) : Prop :=
  ∀ major found, rbtreeSearch t.tree major = some found → rbtreeSearch t'.tree major = some found

/-- The table with a new block. -/
def addBlock (t : ProcessTable) (major block : ULong) : ProcessTable where
  processBlockTree := some (rbtreeInsert t.tree major block)
  memory := zeroFill t.memory block

theorem search_addBlock {major major' : ULong} (h : rbtreeSearch t.tree major = none) :
    rbtreeSearch (t.addBlock major block).tree major' = some found ↔
      major' = major ∧ found = block ∨ rbtreeSearch t.tree major' = some found :=
  OrderedMap.find?_insert h

theorem inv_addBlock {major : ULong} (h : t.Inv) (hnone : rbtreeSearch t.tree major = none)
    (hblock : t.Allocatable block) : (t.addBlock major block).Inv where
  range := by
    intro m b hb
    rcases (search_addBlock hnone).mp hb with ⟨-, rfl⟩ | hb
    · exact hblock.1
    · exact h.range _ _ hb
  apart := by
    intro m b m' b' hb hb' hne
    rcases (search_addBlock hnone).mp hb with ⟨rfl, rfl⟩ | hold
    · rcases (search_addBlock hnone).mp hb' with ⟨rfl, -⟩ | hold'
      · exact absurd rfl hne
      · exact (hblock.2 _ _ hold').symm
    · rcases (search_addBlock hnone).mp hb' with ⟨rfl, rfl⟩ | hold'
      · exact hblock.2 _ _ hold
      · exact h.apart _ _ _ _ hold hold' hne

theorem content_addBlock {major : ULong} (h : t.Inv) (hnone : rbtreeSearch t.tree major = none)
    (hblock : t.Allocatable block) : (t.addBlock major block).content = t.content := by
  funext pid
  cases hpid : rbtreeSearch t.tree (pid / processesPerBlock) with
  | some found =>
    rw [content_of_search hpid, content_of_search ((search_addBlock hnone).mpr (.inr hpid))]
    exact zeroFill_old _ (h.range _ _ hpid) (hblock.2 _ _ hpid)
  | none =>
    rw [content_of_none hpid]
    cases hnew : rbtreeSearch (t.addBlock major block).tree (pid / processesPerBlock) with
    | none => exact content_of_none hnew
    | some found =>
      rw [content_of_search hnew]
      rcases (search_addBlock hnone).mp hnew with ⟨-, rfl⟩ | hold
      · exact zeroFill_new _ hblock.1
      · rw [hpid] at hold
        cases hold

theorem ptable_found (h : rbtreeSearch t.tree (pid / processesPerBlock) = some found)
    (block : ULong) : t.ptable pid block =
      ({ t with processBlockTree := some t.tree }, slotOf found pid) := by
  rw [ptable, h]

theorem ptable_new (h : rbtreeSearch t.tree (pid / processesPerBlock) = none) (block : ULong) :
    t.ptable pid block = (t.addBlock (pid / processesPerBlock) block, slotOf block pid) := by
  rw [ptable, h]
  rfl

/-- A slot is handed out, and nothing that a pid has changes. -/
theorem ptable_spec (h : t.Inv) (hprov : t.Provides pid block) :
    (t.ptable pid block).1.Inv ∧ t.Keeps (t.ptable pid block).1 ∧
      (t.ptable pid block).1.content = t.content ∧
      ∃ found, rbtreeSearch (t.ptable pid block).1.tree (pid / processesPerBlock) = some found ∧
        (t.ptable pid block).2 = slotOf found pid := by
  cases hsearch : rbtreeSearch t.tree (pid / processesPerBlock) with
  | some found =>
    rw [ptable_found hsearch]
    exact ⟨⟨h.range, h.apart⟩, fun _ _ hfound => hfound, rfl, found, hsearch, rfl⟩
  | none =>
    rw [ptable_new hsearch]
    have hblock := hprov hsearch
    exact ⟨inv_addBlock h hsearch hblock,
      fun _ _ hfound => (search_addBlock hsearch).mpr (.inr hfound),
      content_addBlock h hsearch hblock, block,
      (search_addBlock hsearch).mpr (.inl ⟨rfl, rfl⟩), rfl⟩

theorem readAt_eq (h : t.Inv) (hprov : t.Provides pid block) :
    t.readAt pid block = t.content pid := by
  obtain ⟨-, -, hcontent, found, hfound, hslot⟩ := ptable_spec h hprov
  rw [← hcontent, content_of_search hfound, ← hslot]
  rfl

/-- A write to the slot of a pid. -/
theorem content_store (h : t.Inv)
    (hfound : rbtreeSearch t.tree (pid / processesPerBlock) = some found) (value : ULong) :
    (t.store (slotOf found pid) value).content = Function.update t.content pid value := by
  funext q
  by_cases hq : q = pid
  · subst hq
    rw [Function.update_self]
    exact (content_of_search (t := t.store _ value) hfound).trans (Function.update_self ..)
  · rw [Function.update_of_ne hq]
    cases hsearch : rbtreeSearch t.tree (q / processesPerBlock) with
    | none =>
      rw [content_of_none hsearch]
      exact content_of_none hsearch
    | some b =>
      rw [content_of_search hsearch]
      refine (content_of_search (t := t.store _ value) hsearch).trans
        (Function.update_of_ne (fun heq => ?_) ..)
      have happart := slots_apart h hq hsearch hfound
      rw [heq] at happart
      omega

/-- An access does to the contents what it does to a map. -/
theorem access_spec (h : t.Inv) (hprov : t.Provides a.pid a.block) :
    (t.access a).Inv ∧ t.Keeps (t.access a) ∧ (t.access a).content = a.apply t.content ∧
      ∃ found, rbtreeSearch (t.access a).tree (a.pid / processesPerBlock) = some found ∧
        t.slot a = slotOf found a.pid := by
  obtain ⟨hinv, hkeeps, hcontent, found, hfound, hslot⟩ := ptable_spec h hprov
  cases a with
  | read pid block => exact ⟨hinv, hkeeps, hcontent, found, hfound, hslot⟩
  | write pid value block =>
    refine ⟨⟨hinv.range, hinv.apart⟩, hkeeps, ?_, found, hfound, hslot⟩
    have hupdate := content_store hinv hfound value
    rw [hcontent, ← hslot] at hupdate
    exact hupdate

/-! ## Runs -/

theorem run_spec (h : t.Inv) (hs : t.Supplied accesses) :
    (t.run accesses).Inv ∧ t.Keeps (t.run accesses) ∧
      (t.run accesses).content = accesses.foldl Access.apply t.content := by
  induction accesses generalizing t with
  | nil => exact ⟨h, fun _ _ hfound => hfound, rfl⟩
  | cons a accesses ih =>
    obtain ⟨hinv, hkeeps, hcontent, -⟩ := access_spec h hs.1
    obtain ⟨hinv', hkeeps', hcontent'⟩ := ih hinv hs.2
    refine ⟨hinv', fun _ _ hfound => hkeeps' _ _ (hkeeps _ _ hfound), ?_⟩
    rw [List.foldl_cons, ← hcontent]
    exact hcontent'

theorem supplied_append {accesses' : List Access} :
    t.Supplied (accesses ++ accesses') ↔
      t.Supplied accesses ∧ (t.run accesses).Supplied accesses' := by
  induction accesses generalizing t with
  | nil => exact ⟨fun h => ⟨trivial, h⟩, fun h => h.2⟩
  | cons a accesses ih =>
    rw [List.cons_append, Supplied, Supplied, ih, and_assoc]
    rfl

/-- No table yet. -/
def noTable (memory : ULong → ULong) : ProcessTable := ⟨none, memory⟩

theorem inv_noTable (memory : ULong → ULong) : (noTable memory).Inv where
  range := by
    intro major block h
    cases h
  apart := by
    intro major block major' block' h
    cases h

/-- In every run a read returns the value written last at its pid, a write changes no read
at another pid, and every later access to a pid has the same slot, apart from the slots of
the other pids. -/
theorem table_is_map {memory : ULong → ULong} {pre post : List Access}
    (h : (noTable memory).Supplied (pre ++ a :: post)) :
    ((noTable memory).run pre).readAt a.pid a.block = lastWritten pre a.pid ∧
    (∀ pid block block', pid ≠ a.pid → ((noTable memory).run pre).Provides pid block →
      (((noTable memory).run pre).access a).Provides pid block' →
        (((noTable memory).run pre).access a).readAt pid block' =
          ((noTable memory).run pre).readAt pid block) ∧
    ∀ mid b rest, post = mid ++ b :: rest →
      if b.pid = a.pid then
        ((noTable memory).run (pre ++ a :: mid)).slot b = ((noTable memory).run pre).slot a
      else
        (((noTable memory).run (pre ++ a :: mid)).slot b).toNat + 8 ≤
            (((noTable memory).run pre).slot a).toNat ∨
          (((noTable memory).run pre).slot a).toNat + 8 ≤
            (((noTable memory).run (pre ++ a :: mid)).slot b).toNat := by
  obtain ⟨hpre, hprov, hpost⟩ := supplied_append.mp h
  obtain ⟨hinv, -, hcontent⟩ := run_spec (inv_noTable memory) hpre
  obtain ⟨hinv', -, hcontent', found, hfound, hslot⟩ := access_spec hinv hprov
  refine ⟨?_, ?_, ?_⟩
  · rw [readAt_eq hinv hprov, hcontent]
    rfl
  · intro pid block block' hne hprovides hprovides'
    rw [readAt_eq hinv hprovides, readAt_eq hinv' hprovides', hcontent']
    cases a with
    | read q b => rfl
    | write q value b => exact Function.update_of_ne hne ..
  · rintro mid b rest rfl
    obtain ⟨hmid, hprovb, -⟩ := supplied_append.mp hpost
    have hrun : (noTable memory).run (pre ++ a :: mid) =
        (((noTable memory).run pre).access a).run mid := by
      rw [run, List.foldl_append]
      rfl
    obtain ⟨hinvmid, hkeepsmid, -⟩ := run_spec hinv' hmid
    obtain ⟨hinvb, hkeepsb, -, foundb, hfoundb, hslotb⟩ := access_spec hinvmid hprovb
    have hfounda := hkeepsb _ _ (hkeepsmid _ _ hfound)
    rw [hrun, hslot, hslotb]
    split
    case isTrue hsame =>
      rw [hsame, hfounda] at hfoundb
      rw [hsame, Option.some.inj hfoundb]
    case isFalse hother => exact slots_apart hinvb hother hfoundb hfounda

/-- Pid 1 is written and read; a second block is made for pid 65, and the slot of pid 1 is still
where it was. -/
theorem table_is_map_newBlock :
    ((noTable fun _ => 3).run [.write 1 5 4096]).readAt 1 0 = lastWritten [.write 1 5 4096] 1 ∧
      ((noTable fun _ => 3).run [.write 1 5 4096, .read 1 0, .write 65 7 8192]).slot (.read 1 0) =
        ((noTable fun _ => 3).run [.write 1 5 4096]).slot (.read 1 0) := by
  have hsupplied : (noTable fun _ => 3).Supplied
      ([.write 1 5 4096] ++ .read 1 0 :: [.write 65 7 8192, .read 1 0]) := by
    refine ⟨fun _ => ⟨by decide, fun _ _ h => nomatch h⟩, fun h => absurd h (by decide),
      fun _ => ⟨by decide, fun major found h => ?_⟩, fun h => absurd h (by decide), trivial⟩
    have hfound : rbtreeSearch ((noTable fun _ => 3).addBlock 0 4096).tree major = some found := h
    obtain ⟨-, rfl⟩ | hnone := (search_addBlock rfl).mp hfound
    · exact Or.inl (by decide)
    · cases hnone
  obtain ⟨hread, -, hslot⟩ := table_is_map hsupplied
  exact ⟨hread, hslot [.write 65 7 8192] (.read 1 0) [] rfl⟩

end ProcessTable

end Yarns
