import Mathlib.Data.List.Nodup
import Mathlib.Data.List.Perm.Subperm

/-!
# Heaps of numbered blocks

A heap hands out blocks of one kind and numbers them in the order of the allocations.
A number is never used again, so a pointer to a released block stays stale even where the
allocator gives the address to a later block. `read` and `free` of a released block fail.
`freed` is the log of the releases; by its two fields it holds each released number once.
-/

namespace Yarns.Base

structure Blocks (β : Type) where
  /-- The address and the content of each block handed out, none once it is released. -/
  cells : List (Option (Nat × β))
  freed : List Nat
  freed_nodup : freed.Nodup
  mem_freed : ∀ n, n ∈ freed ↔ cells[n]? = some none

namespace Blocks

variable {β : Type} {h h' : Blocks β} {n m : Nat} {a : Nat} {b b' : β}

def empty : Blocks β := ⟨[], [], .nil, by simp⟩

/-- How many blocks were handed out. -/
def allocated (h : Blocks β) : Nat := h.cells.length

def cell (h : Blocks β) (n : Nat) : Option (Nat × β) := h.cells[n]?.join

def read (h : Blocks β) (n : Nat) : Option β := (h.cell n).map Prod.snd

def address (h : Blocks β) (n : Nat) : Option Nat := (h.cell n).map Prod.fst

/-- A new block at the address `a`; its number is `h.allocated`. -/
def alloc (h : Blocks β) (a : Nat) (b : β) : Blocks β where
  cells := h.cells ++ [some (a, b)]
  freed := h.freed
  freed_nodup := h.freed_nodup
  mem_freed n := by
    rw [h.mem_freed, List.getElem?_append]
    split
    · rfl
    · rename_i hn
      have h1 : h.cells[n]? = none := List.getElem?_eq_none (Nat.le_of_not_lt hn)
      rw [h1, List.getElem?_singleton]
      split <;> simp

/-- The content of a block is replaced. -/
def write (h : Blocks β) (n : Nat) (b : β) : Blocks β where
  cells := h.cells.modify n (Option.map fun c => (c.1, b))
  freed := h.freed
  freed_nodup := h.freed_nodup
  mem_freed m := by
    rw [h.mem_freed, List.getElem?_modify]
    cases h.cells[m]? with
    | none => simp
    | some c => by_cases hm : n = m <;> cases c <;> simp [hm]

/-- The block is read, changed by `f` and written back. -/
def update (h : Blocks β) (n : Nat) (f : β → Option β) : Option (Blocks β) :=
  ((h.read n).bind f).map (h.write n)

/-- The block is released; a block that is not live cannot be. -/
def free (h : Blocks β) (n : Nat) : Option (Blocks β) :=
  match hc : h.cell n with
  | none => none
  | some _ => some
    { cells := h.cells.set n none
      freed := h.freed ++ [n]
      freed_nodup := by
        refine List.nodup_append.mpr ⟨h.freed_nodup, List.nodup_singleton n, ?_⟩
        intro m hm k hk
        obtain rfl := List.mem_singleton.mp hk
        rintro rfl
        have hfreed := (h.mem_freed m).mp hm
        simp [cell, hfreed] at hc
      mem_freed := by
        intro m
        have hn : n < h.cells.length := by
          by_contra hlt
          have h1 : h.cells[n]? = none := List.getElem?_eq_none (Nat.le_of_not_lt hlt)
          simp [cell, h1] at hc
        rw [List.mem_append, List.mem_singleton, h.mem_freed, List.getElem?_set]
        by_cases hm : n = m
        · simp [hm, hm ▸ hn]
        · simp [hm, Ne.symm hm] }

theorem cell_eq_none_of_le (hn : h.allocated ≤ n) : h.cell n = none := by
  rw [cell, List.getElem?_eq_none hn]
  rfl

theorem lt_allocated (hb : h.read n = some b) : n < h.allocated := by
  by_contra hn
  rw [read, cell_eq_none_of_le (Nat.le_of_not_lt hn)] at hb
  cases hb

theorem cell_alloc : (h.alloc a b).cell n =
    if n = h.allocated then some (a, b) else h.cell n := by
  rw [cell, alloc, cell, List.getElem?_append, allocated]
  split
  · rename_i hn
    rw [if_neg (Nat.ne_of_lt hn)]
  · rename_i hn
    split
    · rename_i heq
      simp [heq]
    · rename_i hne
      have h1 : h.cells.length < n := by omega
      rw [List.getElem?_eq_none (Nat.le_of_lt h1), List.getElem?_eq_none (by simp; omega)]

theorem cell_write : (h.write n b).cell m =
    if m = n then (h.cell m).map fun c => (c.1, b) else h.cell m := by
  simp only [cell, write, List.getElem?_modify]
  by_cases hm : m = n
  · subst hm
    cases h.cells[m]? with
    | none => simp
    | some c => simp
  · simp [hm, Ne.symm hm]

theorem read_alloc_self : (h.alloc a b).read h.allocated = some b := by
  rw [read, cell_alloc, if_pos rfl]
  rfl

theorem read_alloc_of_ne (hn : n ≠ h.allocated) : (h.alloc a b).read n = h.read n := by
  rw [read, cell_alloc, if_neg hn, read]

theorem read_write_self (hb : h.read n = some b') : (h.write n b).read n = some b := by
  obtain ⟨c, hc, rfl⟩ := Option.map_eq_some_iff.mp hb
  rw [read, cell_write, if_pos rfl, hc]
  rfl

theorem read_write_of_ne (hm : m ≠ n) : (h.write n b).read m = h.read m := by
  rw [read, cell_write, if_neg hm, read]

theorem address_write : (h.write n b).address m = h.address m := by
  rw [address, cell_write, address]
  split
  · rw [Option.map_map]
    rfl
  · rfl

theorem update_eq_some {f : β → Option β} (hb : h.read n = some b) (hf : f b = some b') :
    h.update n f = some (h.write n b') := by
  rw [update, hb, Option.bind_some, hf, Option.map_some]

/-- Releasing a live block. -/
theorem free_eq_some (hb : h.read n = some b) : ∃ h', h.free n = some h' ∧
    h'.freed = h.freed ++ [n] ∧ h'.allocated = h.allocated ∧
    ∀ m, h'.cell m = if m = n then none else h.cell m := by
  obtain ⟨c, hc, -⟩ := Option.map_eq_some_iff.mp hb
  rw [free]
  split
  · rename_i hn
    rw [hc] at hn
    cases hn
  · refine ⟨_, rfl, rfl, by simp [allocated], ?_⟩
    intro m
    simp only [cell, List.getElem?_set]
    by_cases hm : n = m
    · subst hm
      rw [if_pos rfl, if_pos rfl]
      split <;> rfl
    · rw [if_neg hm, if_neg (Ne.symm hm)]

/-- Once no block is live, every block was released exactly once. -/
theorem freed_perm (hnone : ∀ n, h.cell n = none) :
    h.freed.Perm (List.range h.allocated) := by
  refine (List.perm_ext_iff_of_nodup h.freed_nodup List.nodup_range).mpr fun n => ?_
  rw [h.mem_freed, List.mem_range]
  have hn := hnone n
  constructor
  · intro hf
    exact (List.getElem?_eq_some_iff.mp hf).1
  · intro hlt
    rw [cell, List.getElem?_eq_getElem hlt, Option.join_some] at hn
    rw [List.getElem?_eq_getElem hlt, hn]

/-- The blocks of `size` bytes at `a` and `a'` do not overlap. -/
def Disjoint (size a a' : Nat) : Prop := a + size ≤ a' ∨ a' + size ≤ a

instance (size a a' : Nat) : Decidable (Disjoint size a a') := by
  unfold Disjoint
  infer_instance

/-- An address at which `size` bytes below `limit` are free of live blocks. -/
def Room (size limit : Nat) (h : Blocks β) (a : Nat) : Prop :=
  0 < a ∧ a + size ≤ limit ∧ ∀ n < h.allocated, ∀ a' ∈ h.address n, Disjoint size a a'

instance (size limit : Nat) (h : Blocks β) (a : Nat) : Decidable (Room size limit h a) := by
  unfold Room
  infer_instance

/-- The live blocks lie below `limit` and do not overlap. -/
structure Apart (size limit : Nat) (h : Blocks β) : Prop where
  below : ∀ n a, h.address n = some a → a + size ≤ limit
  disjoint : ∀ n m a a', n ≠ m → h.address n = some a → h.address m = some a' →
    Disjoint size a a'

theorem Apart.empty (size limit : Nat) : Apart size limit (empty : Blocks β) :=
  ⟨fun _ _ h => by simp [Blocks.empty, address, cell] at h,
    fun _ _ _ _ _ h => by simp [Blocks.empty, address, cell] at h⟩

section

variable {size limit : Nat}

/-- Only the addresses of the live blocks matter. -/
theorem Apart.of_address (hh : Apart size limit h)
    (haddr : ∀ n a, h'.address n = some a → h.address n = some a) : Apart size limit h' :=
  ⟨fun n a ha => hh.below n a (haddr n a ha),
    fun n m a a' hne ha ha' => hh.disjoint n m a a' hne (haddr n a ha) (haddr m a' ha')⟩

theorem Apart.write (hh : Apart size limit h) : Apart size limit (h.write n b) :=
  hh.of_address fun m a ha => by rwa [address_write] at ha

theorem Apart.alloc (hh : Apart size limit h) (hroom : Room size limit h a) :
    Apart size limit (h.alloc a b) := by
  obtain ⟨_, hbelow, hdisj⟩ := hroom
  have hold : ∀ n a', n ≠ h.allocated → (h.alloc a b).address n = some a' →
      h.address n = some a' := by
    intro n a' hn ha
    rwa [address, cell_alloc, if_neg hn] at ha
  have hnew : ∀ a', (h.alloc a b).address h.allocated = some a' → a' = a := by
    intro a' ha
    rw [address, cell_alloc, if_pos rfl] at ha
    exact (Option.some.inj ha).symm
  have hlt : ∀ n a', h.address n = some a' → n < h.allocated := by
    intro n a' ha
    by_contra hn
    rw [address, cell_eq_none_of_le (Nat.le_of_not_lt hn)] at ha
    cases ha
  constructor
  · intro n a' ha
    by_cases hn : n = h.allocated
    · subst hn
      rwa [hnew a' ha]
    · exact hh.below n a' (hold n a' hn ha)
  · intro n m a₁ a₂ hne h₁ h₂
    by_cases hn : n = h.allocated
    · subst hn
      have h₂' := hold m a₂ (Ne.symm hne) h₂
      rw [hnew a₁ h₁]
      exact hdisj m (hlt m a₂ h₂') a₂ h₂'
    · have h₁' := hold n a₁ hn h₁
      by_cases hm : m = h.allocated
      · subst hm
        rw [hnew a₂ h₂]
        exact (hdisj n (hlt n a₁ h₁') a₁ h₁').symm
      · exact hh.disjoint n m a₁ a₂ hne h₁' (hold m a₂ hm h₂)

/-- Memory bounds the number of live blocks: their addresses differ in the quotient by
`size`. -/
theorem Apart.length_le (hh : Apart size limit h) (hsize : 0 < size) {ns : List Nat}
    (hns : ns.Nodup) (hlive : ∀ n ∈ ns, (h.address n).isSome) : ns.length * size ≤ limit := by
  let page := fun n => (h.address n).getD 0 / size
  have haddr : ∀ n ∈ ns, ∃ a, h.address n = some a ∧ page n = a / size := by
    intro n hn
    obtain ⟨a, ha⟩ := Option.isSome_iff_exists.mp (hlive n hn)
    exact ⟨a, ha, by simp [page, ha]⟩
  have hinj : (ns.map page).Nodup := by
    refine List.Nodup.map_on ?_ hns
    intro n hn m hm heq
    by_contra hne
    obtain ⟨a, ha, hpa⟩ := haddr n hn
    obtain ⟨a', ha', hpa'⟩ := haddr m hm
    have hdiv : a / size = a' / size := hpa.symm.trans (heq.trans hpa')
    have h1 := Nat.div_add_mod a size
    have h2 := Nat.div_add_mod a' size
    have h3 := Nat.mod_lt a hsize
    have h4 := Nat.mod_lt a' hsize
    rw [hdiv] at h1
    rcases hh.disjoint n m a a' hne ha ha' with hd | hd <;> omega
  have hsub : ns.map page ⊆ List.range (limit / size) := by
    intro k hk
    obtain ⟨n, hn, rfl⟩ := List.mem_map.mp hk
    obtain ⟨a, ha, hpa⟩ := haddr n hn
    rw [List.mem_range, hpa, Nat.lt_iff_add_one_le, Nat.le_div_iff_mul_le hsize, Nat.add_mul,
      Nat.one_mul]
    exact Nat.le_trans (Nat.add_le_add_right (Nat.div_mul_le_self a size) size) (hh.below n a ha)
  have hlen := (hinj.subperm hsub).length_le
  rw [List.length_map, List.length_range] at hlen
  exact Nat.le_trans (Nat.mul_le_mul_right size hlen) (Nat.div_mul_le_self limit size)

end

end Blocks

end Yarns.Base
