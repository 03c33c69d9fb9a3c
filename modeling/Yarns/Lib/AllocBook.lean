import Mathlib.Data.List.Nodup
import Yarns.Base.Buckets
import Yarns.Lib.AllocHeap

/-!
# The book of big allocations

What the 256 entries of the book record together (`recorded`) and which little blocks they
keep their chained records in (`chained`). Inserting adds one record, and eating an address
removes one if the record is chained (`Booked.eatlen`). A record that is inline is found,
but nothing clears it.
-/

namespace Yarns

open Base

/-- What one entry records, an inline record first. -/
def Bucket.entries (b : Bucket) : List Block :=
  (if b.lptr = 0 then [] else [⟨b.lptr, b.len⟩]) ++ b.next.map fun r => ⟨r.lptr, r.len⟩

/-- The little blocks of the chained records. -/
def Bucket.blocks (b : Bucket) : List Block := b.next.map fun r => ⟨r.addr, Alloc.recordSize⟩

namespace Alloc

variable {a a' : Alloc} {little big : List Block} {b : Block} {ptr len page lptr : ULong}

def recorded (books : Fin 256 → Bucket) : List Block := contents fun i => (books i).entries

def chained (books : Fin 256 → Bucket) : List Block := contents fun i => (books i).blocks

theorem recorded_update (books : Fin 256 → Bucket) (i : Fin 256) (v : Bucket) :
    recorded (Function.update books i v) =
      contents (Function.update (fun j => (books j).entries) i v.entries) :=
  congrArg contents (Function.comp_update Bucket.entries books i v)

theorem chained_update (books : Fin 256 → Bucket) (i : Fin 256) (v : Bucket) :
    chained (Function.update books i v) =
      contents (Function.update (fun j => (books j).blocks) i v.blocks) :=
  congrArg contents (Function.comp_update Bucket.blocks books i v)

/-- Nothing about the pages depends on the book. -/
theorem Heap.setBooks (h : Heap a little big) (books : Fin 256 → Bucket) (ready : Bool) :
    Heap { a with books := books, isReady := ready } little big where
  page := fun p hd hhd => { h.page p hd hhd with }
  home := h.home
  active := h.active
  apart := h.apart
  range := fun b hb => { h.range b hb with }
  rangesApart := h.rangesApart

/-- The book of an allocator whose big blocks are `big` and whose callers have the little
blocks `little`. -/
structure Booked (a : Alloc) (little big : List Block) : Prop where
  heap : Heap a (little ++ chained a.books) big
  recorded : (recorded a.books).Perm big
  index : ∀ i, ∀ e ∈ (a.books i).entries, bookIndex e.ptr = i
  ready : a.isReady = false → a.books = fun _ => ⟨0, 0, []⟩

theorem contents_nil : contents (fun _ : Fin 256 => ([] : List Block)) = [] :=
  List.eq_nil_iff_forall_not_mem.mpr fun x hx => by
    obtain ⟨i, hi⟩ := mem_contents.mp hx
    cases hi

theorem booked_init : Booked init [] [] where
  heap := by
    have hnone : chained init.books = [] := contents_nil
    rw [hnone]
    exact heap_init
  recorded := List.Perm.of_eq contents_nil
  index := fun _ _ h => nomatch h
  ready := fun _ => rfl

theorem Booked.perm {little' big' : List Block} (h : Booked a little big)
    (hl : little.Perm little') (hb : big.Perm big') : Booked a little' big' where
  heap := h.heap.perm (hl.append_right _) hb
  recorded := h.recorded.trans hb
  index := h.index
  ready := h.ready

theorem BigRange.first (h : BigRange a b) : InRange b.ptr b.len (b.ptr.toNat / 4096) := by
  have h1 := h.whole
  have h2 := h.pos
  exact ⟨Nat.le_refl _, by omega⟩

/-- Two big blocks never have the same address. -/
theorem Heap.big_nodup (h : Heap a little big) : (big.map Block.ptr).Nodup := by
  refine List.pairwise_map.mpr ((List.Pairwise.and_mem.mp h.rangesApart).imp ?_)
  intro b c hbc heq
  obtain ⟨hb, hc, hapart⟩ := hbc
  exact hapart _ (h.range b hb).first (heq ▸ (h.range c hc).first)

theorem Heap.big_unique {c : Block} (h : Heap a little big) (hb : b ∈ big) (hc : c ∈ big)
    (heq : b.ptr = c.ptr) : b = c := List.inj_on_of_nodup_map h.big_nodup hb hc heq

/-! ## Inserting -/

theorem entries_append (book : Bucket) (r : BigallocBook) :
    Bucket.entries { book with next := book.next ++ [r] } = book.entries ++ [⟨r.lptr, r.len⟩] := by
  simp only [Bucket.entries, List.map_append, List.map_cons, List.map_nil, List.append_assoc]

theorem blocks_append (book : Bucket) (r : BigallocBook) :
    Bucket.blocks { book with next := book.next ++ [r] } =
      book.blocks ++ [⟨r.addr, recordSize⟩] := by
  simp only [Bucket.blocks, List.map_append, List.map_cons, List.map_nil]

theorem index_update {books : Fin 256 → Bucket} {i : Fin 256} {v : Bucket}
    (h : ∀ j, ∀ e ∈ (books j).entries, bookIndex e.ptr = j)
    (hv : ∀ e ∈ v.entries, bookIndex e.ptr = i) :
    ∀ j, ∀ e ∈ (Function.update books i v j).entries, bookIndex e.ptr = j := by
  intro j
  by_cases hj : j = i
  · subst hj
    rwa [Function.update_self]
  · rw [Function.update_of_ne hj]
    exact h j

/-- Recording a block whose pages the heap has taken in already. -/
theorem Booked.insert {c : Alloc} (h : Booked a little big)
    (hheap : Heap a' (little ++ chained a.books) (⟨lptr, len⟩ :: big))
    (hbooks : a'.books = a.books) (hready : a'.isReady = true)
    (hins : bigbookInsert lptr len page a' = some c) : Booked c little (⟨lptr, len⟩ :: big) := by
  have hne : lptr ≠ 0 := (hheap.range _ List.mem_cons_self).ne_zero
  rw [bigbookInsert, hbooks] at hins
  dsimp only at hins
  split at hins
  next hzero =>
    obtain rfl := Option.some.inj hins
    have hentries : Bucket.entries ⟨lptr, len, (a.books (bookIndex lptr)).next⟩ =
        ⟨lptr, len⟩ :: (a.books (bookIndex lptr)).entries := by
      rw [Bucket.entries, Bucket.entries, if_neg hne, if_pos hzero]
      rfl
    refine ⟨?_, ?_, index_update h.index ?_, fun hr => ?_⟩
    · refine (hheap.perm (List.Perm.append_left little ?_) (List.Perm.refl _)).setBooks _ _
      rw [chained_update]
      exact (contents_keep (List.Perm.refl _)).symm
    · rw [recorded_update]
      exact (contents_insert (List.Perm.of_eq hentries)).trans (h.recorded.cons _)
    · rw [hentries]
      exact List.forall_mem_cons.mpr ⟨rfl, h.index _⟩
    · rw [hready] at hr
      cases hr
  next hzero =>
    obtain ⟨⟨addr, d⟩, hd, rfl⟩ := Option.map_eq_some_iff.mp hins
    obtain ⟨hheap', hdbooks, hdready, -, -⟩ := hheap.littleAlloc (by decide) (by decide) hd
    dsimp only
    have hentries := entries_append (a.books (bookIndex lptr)) ⟨addr, lptr, len⟩
    have hblocks := blocks_append (a.books (bookIndex lptr)) ⟨addr, lptr, len⟩
    refine ⟨?_, ?_, index_update h.index ?_, fun hr => ?_⟩
    · refine (hheap'.perm ?_ (List.Perm.refl _)).setBooks _ _
      refine List.perm_middle.symm.trans (List.Perm.append_left little ?_)
      rw [chained_update]
      refine (contents_insert ?_).symm
      rw [hblocks]
      exact List.perm_append_singleton _ _
    · rw [recorded_update]
      refine (contents_insert ?_).trans (h.recorded.cons _)
      rw [hentries]
      exact List.perm_append_singleton _ _
    · rw [hentries]
      exact List.forall_mem_append.mpr ⟨h.index _, List.forall_mem_singleton.mpr rfl⟩
    · dsimp only at hr
      rw [hdready, hready] at hr
      cases hr

/-! ## Eating -/

theorem Booked.mem_entries (h : Booked a little big) (hb : b ∈ big) :
    b ∈ (a.books (bookIndex b.ptr)).entries := by
  obtain ⟨i, hi⟩ := mem_contents.mp (h.recorded.mem_iff.mpr hb)
  rwa [h.index i b hi]

theorem Booked.mem_big {r : BigallocBook} {i : Fin 256} (h : Booked a little big)
    (hr : r ∈ (a.books i).next) : (⟨r.lptr, r.len⟩ : Block) ∈ big :=
  h.recorded.mem_iff.mp (mem_contents.mpr
    ⟨i, List.mem_append_right _ (List.mem_map.mpr ⟨r, hr, rfl⟩)⟩)

/-- The record of a big block that is not inline is chained, and it is the one the search
finds. -/
theorem Booked.find_chained (h : Booked a little big) (hb : b ∈ big)
    (hin : (a.books (bookIndex b.ptr)).lptr ≠ b.ptr) :
    ∃ r pre post, (a.books (bookIndex b.ptr)).next = pre ++ r :: post ∧
      (a.books (bookIndex b.ptr)).next.find? (·.lptr = b.ptr) = some r ∧
      (a.books (bookIndex b.ptr)).next.eraseP (·.lptr = b.ptr) = pre ++ post ∧
      (⟨r.lptr, r.len⟩ : Block) = b := by
  have hentry := h.mem_entries hb
  have hmem : b ∈ (a.books (bookIndex b.ptr)).next.map fun r => (⟨r.lptr, r.len⟩ : Block) := by
    refine (List.mem_append.mp hentry).resolve_left fun hinline => ?_
    split at hinline
    · cases hinline
    · exact hin (congrArg Block.ptr (List.mem_singleton.mp hinline)).symm
  obtain ⟨r₀, hr₀, hb₀⟩ := List.mem_map.mp hmem
  cases hfind : (a.books (bookIndex b.ptr)).next.find? (·.lptr = b.ptr) with
  | none =>
    have hnone := List.find?_eq_none.mp hfind r₀ hr₀
    exact absurd (congrArg Block.ptr hb₀) (by simpa using hnone)
  | some r =>
    obtain ⟨hr, pre, post, hnext, hpre⟩ := List.find?_eq_some_iff_append.mp hfind
    refine ⟨r, pre, post, hnext, rfl, ?_, ?_⟩
    · rw [hnext, List.eraseP_append_right _ fun c hc => by simpa using hpre c hc,
        List.eraseP_cons_of_pos (p := fun x : BigallocBook => x.lptr = b.ptr) hr]
    · have hrmem : r ∈ (a.books (bookIndex b.ptr)).next := by
        rw [hnext]
        exact List.mem_append_right _ List.mem_cons_self
      exact h.heap.big_unique (h.mem_big hrmem) hb (by simpa using hr)

/-- Giving back a big block whose record is chained: the record is found, its length is
the one recorded for the block, and no record for the block is left. -/
theorem Booked.yfree_big (h : Booked a little (b :: big))
    (hin : (a.books (bookIndex b.ptr)).lptr ≠ b.ptr) :
    ∃ c d, bigbookEatlen b.ptr a = some (b.len, c) ∧ pageDeallocate b.ptr b.len c = some d ∧
      Booked d little big ∧ ∀ e ∈ Alloc.recorded d.books, e.ptr ≠ b.ptr := by
  obtain ⟨r, pre, post, hnext, hfind, herase, hr⟩ := h.find_chained List.mem_cons_self hin
  have hblocks : (a.books (bookIndex b.ptr)).blocks.Perm (⟨r.addr, recordSize⟩ ::
      Bucket.blocks { a.books (bookIndex b.ptr) with next := pre ++ post }) := by
    rw [Bucket.blocks, hnext, Bucket.blocks]
    exact List.perm_middle.map _
  have hentries : (a.books (bookIndex b.ptr)).entries.Perm (b ::
      Bucket.entries { a.books (bookIndex b.ptr) with next := pre ++ post }) := by
    rw [Bucket.entries, hnext, Bucket.entries, ← hr]
    exact (List.Perm.append_left _ (List.perm_middle.map _)).trans List.perm_middle
  have hheap := h.heap.setBooks (Function.update a.books (bookIndex b.ptr)
    { a.books (bookIndex b.ptr) with next := pre ++ post }) a.isReady
  have hchained := (contents_remove hblocks).trans (List.Perm.of_eq
    (congrArg _ (chained_update a.books (bookIndex b.ptr) _).symm))
  have hrecorded := (contents_remove hentries).trans (List.Perm.of_eq
    (congrArg _ (recorded_update a.books (bookIndex b.ptr) _).symm))
  obtain ⟨c, hc, hcheap, hcbooks, hcready⟩ := (hheap.perm
    ((List.Perm.append_left little hchained).trans List.perm_middle) (List.Perm.refl _)).littleFree
  obtain ⟨d, hd, hdheap, hdbooks, hdready⟩ := hcheap.pageDeallocate
  have hperm : (Alloc.recorded d.books).Perm big := by
    rw [hdbooks, hcbooks]
    exact (List.Perm.cons_inv (hrecorded.symm.trans h.recorded))
  refine ⟨c, d, ?_, hd, ⟨?_, hperm, ?_, fun hready => ?_⟩, fun e he heq => ?_⟩
  · have hlen : r.len = b.len := congrArg Block.len hr
    simp only [bigbookEatlen, if_neg hin, hfind, herase, hc, hlen, Option.bind_eq_bind,
      Option.bind_some]
  · rw [hdbooks, hcbooks]
    exact hdheap
  · rw [hdbooks, hcbooks]
    refine index_update h.index fun e he => ?_
    exact h.index _ e (hentries.mem_iff.mpr (List.mem_cons_of_mem b he))
  · rw [hdready, hcready] at hready
    rw [h.ready hready] at hnext
    exact absurd hnext.symm (List.append_ne_nil_of_right_ne_nil pre (List.cons_ne_nil r post))
  · have hnodup := h.heap.big_nodup
    rw [List.map_cons, List.nodup_cons] at hnodup
    exact hnodup.1 (heq ▸ List.mem_map_of_mem (hperm.mem_iff.mp he))

end Alloc

end Yarns
