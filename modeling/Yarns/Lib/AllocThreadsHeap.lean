import Yarns.Lib.AllocThreads

/-!
# What one visit does to the heap

The heap of the allocator while threads are in their calls: each thread has its own little
blocks and pages (`AllocPc.little`, `AllocPc.big`), the callers have `live`, the book has
the blocks of its records, and all of these are apart. A step of one thread keeps this, and
touches the data of a lock only while it holds the lock (`access_fits`).
-/

namespace Yarns

open Base

namespace Alloc

variable {a a' : Alloc} {little big : List Block} {b c : Block} {p : ULong} {hd : LittlePageInfo}
  {i : Fin 256} {v : Bucket} {n : Nat} {addr len page : ULong} {r : BigallocBook}

/-- The record of the block is in its entry of the book. -/
def Listed (a : Alloc) (b : Block) : Prop := b ∈ (a.books (bookIndex b.ptr)).entries

/-- Every record under the address of the block has its length. -/
def Agrees (a : Alloc) (b : Block) : Prop :=
  ∀ e ∈ (a.books (bookIndex b.ptr)).entries, e.ptr = b.ptr → e.len = b.len

def Zero (a : Alloc) (b : Block) : Prop := ∀ x, b.Mem x → a.bytes x = 0

/-- The big blocks, which have whole pages. -/
def ranges (live : List Block) : List Block := live.filter (2048 < ·.len.toNat)

theorem smalls_cons (live : List Block) (h : b.len.toNat ≤ 2048) :
    smalls (b :: live) = b :: smalls live ∧ ranges (b :: live) = ranges live := by
  have hnot : ¬ 2048 < b.len.toNat := by omega
  simp [smalls, ranges, h, hnot]

theorem ranges_cons (live : List Block) (h : 2048 < b.len.toNat) :
    smalls (b :: live) = smalls live ∧ ranges (b :: live) = b :: ranges live := by
  have hnot : ¬ b.len.toNat ≤ 2048 := by omega
  simp [smalls, ranges, h, hnot]

theorem mem_parts {live : List Block} (h : b ∈ live) : b ∈ smalls live ∨ b ∈ ranges live := by
  rcases Nat.lt_or_ge 2048 b.len.toNat with hlen | hlen
  · exact Or.inr (List.mem_filter.mpr ⟨h, by simpa using hlen⟩)
  · exact Or.inl (List.mem_filter.mpr ⟨h, by simpa using hlen⟩)

theorem BigRange.len_gt (h : BigRange a b) : 2048 < b.len.toNat := by
  have h1 := h.whole
  have h2 := h.pos
  omega

/-! ## Pages -/

/-- A little block is apart from the pages of a big one. -/
theorem Heap.little_big_apart (h : Heap a little big) (hb : b ∈ little) (hc : c ∈ big) :
    b.Apart c := by
  obtain ⟨hd, hhd, hl⟩ := h.header hb
  have hon := h.onPage hb
  have hr := h.range c hc
  have hout := hr.noHeader _ hd hhd
  rw [InRange, pageOf_toNat] at hout
  have h1 := hon.header
  have h2 := hon.within
  have h3 := hr.aligned
  have h4 := hr.whole
  rw [Block.Apart]
  omega

theorem BigRange.apart (hb : BigRange a b) (hc : BigRange a c) (h : b.PagesApart c) :
    b.Apart c := by
  have h1 := hb.aligned
  have h2 := hb.whole
  have h3 := hc.aligned
  have h4 := hc.whole
  have h5 := hc.pos
  have h6 := hb.pos
  have hfirst := h (c.ptr.toNat / 4096)
  have hsecond := h (b.ptr.toNat / 4096)
  rw [InRange, InRange] at hfirst hsecond
  rw [Block.Apart]
  omega

/-- All blocks are apart. -/
theorem Heap.all_apart (h : Heap a little big) : (little ++ big).Pairwise Block.Apart := by
  refine List.pairwise_append.mpr ⟨h.apart, ?_, fun b hb c hc => h.little_big_apart hb hc⟩
  refine (List.Pairwise.and_mem.mp h.rangesApart).imp ?_
  rintro b c ⟨hb, hc, hapart⟩
  exact (h.range b hb).apart (h.range c hc) hapart

/-- The pages of all blocks are mapped. -/
theorem Heap.all_mapped (h : Heap a little big) (hb : b ∈ little ++ big) {x : ULong}
    (hx : b.Mem x) : a.mapped (x.toNat / 4096) = true := by
  rcases List.mem_append.mp hb with hb | hb
  · obtain ⟨hd, hhd, hl⟩ := h.header hb
    have hpage := congrArg BitVec.toNat ((h.onPage hb).pageOf_mem hx)
    rw [pageOf_toNat, pageOf_toNat] at hpage
    have hmapped := hl.mapped
    rw [pageOf_toNat] at hmapped
    rwa [show x.toNat / 4096 = b.ptr.toNat / 4096 * 4096 / 4096 by omega]
  · have hr := h.range b hb
    have h1 := hr.aligned
    have h2 := hr.whole
    obtain ⟨h3, h4⟩ := hx
    exact hr.mapped _ ⟨by omega, by omega⟩

/-- A write into a block does not change another. -/
theorem zero_write {x : ULong} {v : BitVec 8} (h : Zero a c) (hx : b.Mem x) (hapart : b.Apart c) :
    Zero { a with bytes := Function.update a.bytes x v } c := by
  intro y hy
  dsimp only
  rw [Function.update_of_ne]
  · exact h y hy
  · rintro rfl
    obtain ⟨h1, h2⟩ := hx
    obtain ⟨h3, h4⟩ := hy
    rw [Block.Apart] at hapart
    omega

theorem Zero.of_bytes (h : Zero a c) (hbytes : ∀ x, a.bytes x = 0 → a'.bytes x = 0) :
    Zero a' c := fun x hx => hbytes x (h x hx)

theorem Heap.none_on (h : Heap a little big) (hhd : a.pages p = some hd) (h0 : hd.nalloc = 0) :
    ∀ c ∈ little, pageOf c.ptr ≠ p := by
  intro c hc
  have hcount := (h.page p hd hhd).count
  rw [h0] at hcount
  simpa using List.countP_eq_zero.mp hcount.symm c hc

/-- The active page is wiped when its last block has been taken off. -/
theorem Heap.wipe (h : Heap a little big) (hhd : a.pages p = some hd) (h0 : hd.nalloc = 0) :
    Heap { a with
      pages := Function.update a.pages p (some (emptyPage p))
      bytes := memset (p + headerSize) (littlePagesSize - headerSize) a.bytes } little big := by
  have hl := h.page p hd hhd
  have haligned := hl.aligned
  refine h.setPage rfl ?_ (fun q hq _ hlq => ?_) (fun b hb => Or.inr hb) (Or.inr rfl) h.apart
    fun b hb => (h.range b hb).noHeader p hd hhd
  · refine emptyPage_littlePage haligned hl.ne_zero hl.mapped (h.none_on hhd h0) fun x hx hoff => ?_
    have hx' := (pageOf_eq_iff haligned).mp hx
    have hbase : (p + headerSize).toNat = p.toNat + 24 := page_add_toNat haligned (by decide)
    have hsize : (littlePagesSize - headerSize).toNat = 4072 := rfl
    exact memset_eq_zero (Or.inr (sub_lt_of_mem (by omega) (by omega)))
  · exact hlq.frame hlq.mapped fun x _ hx => memset_eq_zero (Or.inl hx)

theorem pageDeallocate_unmaps (h : pageDeallocate p len a = some a') :
    a' = { a with
      mapped := fun k => !decide (InRange p len k) && a.mapped k
      pages := fun q => if InRange p len (q.toNat / 4096) then none else a.pages q } := by
  rw [pageDeallocate] at h
  split at h
  · exact (Option.some.inj h).symm
  · cases h

/-- Any other page goes back to the system. -/
theorem Heap.unmapEmpty (h : Heap a little big) (hhd : a.pages p = some hd) (h0 : hd.nalloc = 0)
    (hact : p ≠ a.littlePageActive) (hp : Alloc.pageDeallocate p littlePagesSize a = some a') :
    Heap a' little big := by
  have hpage {q : ULong} (hq : (a.pages q).isSome) :
      InRange p littlePagesSize (q.toNat / 4096) ↔ q = p :=
    h.inRange_iff (Option.isSome_of_eq_some hhd) hq
  rw [pageDeallocate_unmaps hp]
  refine heap_unmap (fun q hq hqe _ => h.page q hq hqe) (fun c hc => ?_) ?_ h.apart h.range
    h.rangesApart fun c hc k hk hck => ?_
  · exact ⟨h.home c hc, fun hin => h.none_on hhd h0 c hc ((hpage (h.home c hc)).mp hin)⟩
  · exact h.active.imp id fun hsome => ⟨hsome, fun hin => hact ((hpage hsome).mp hin).symm⟩
  · rw [inRange_page.mp hk] at hck
    exact (h.range c hc).noHeader p hd hhd hck

/-- No little page goes with the pages of a big block. -/
theorem BigRange.pages_kept (h : BigRange a b) (hp : pageDeallocate b.ptr b.len a = some a') :
    a'.pages = a.pages := by
  rw [pageDeallocate_unmaps hp]
  ext q : 1
  dsimp only
  split
  next hin =>
    cases hq : a.pages q with
    | none => rfl
    | some hd => exact absurd hin (h.noHeader q hd hq)
  next => rfl

/-! ## The book -/

/-- The entry after one more record, or one less. -/
theorem Agrees.update (h : Agrees a c)
    (hv : ∀ e ∈ v.entries, e ∈ (a.books i).entries ∨ (e.ptr = c.ptr → e = c)) :
    Agrees { a with books := Function.update a.books i v } c := by
  intro e he hptr
  dsimp only at he
  rw [Function.update_apply] at he
  split at he
  next hi =>
    rcases hv e he with hold | hsame
    · exact h e (hi ▸ hold) hptr
    · rw [hsame hptr]
  next => exact h e he hptr

theorem Listed.update (h : Listed a c)
    (hv : c ∈ (a.books i).entries → c ∈ v.entries) :
    Listed { a with books := Function.update a.books i v } c := by
  rw [Listed]
  dsimp only
  rw [Function.update_apply]
  split
  next hi => exact hv (hi ▸ h)
  next => exact h

theorem listed_update (h : b ∈ v.entries) :
    Listed { a with books := Function.update a.books (bookIndex b.ptr) v } b := by
  rw [Listed]
  dsimp only
  rwa [Function.update_self]

theorem entries_inline {book : Bucket} (hne : b.ptr ≠ 0) (hzero : book.lptr = 0) :
    Bucket.entries { book with lptr := b.ptr, len := b.len } = b :: book.entries := by
  rw [Bucket.entries, Bucket.entries, if_neg hne, if_pos hzero]
  rfl

/-- Unlinking the record with number `n`. -/
theorem unlink_perm {book : Bucket} (h : book.next[n]? = some r) :
    book.entries.Perm
      (⟨r.lptr, r.len⟩ :: Bucket.entries { book with next := book.next.eraseIdx n }) ∧
    book.blocks.Perm
      (⟨r.addr, recordSize⟩ :: Bucket.blocks { book with next := book.next.eraseIdx n }) := by
  obtain ⟨hn, rfl⟩ := List.getElem?_eq_some_iff.mp h
  have hperm := (List.getElem_cons_eraseIdx_perm hn).symm
  constructor
  · rw [Bucket.entries, Bucket.entries]
    exact (List.Perm.append_left _ (hperm.map _)).trans List.perm_middle
  · exact hperm.map _

end Alloc

end Yarns
