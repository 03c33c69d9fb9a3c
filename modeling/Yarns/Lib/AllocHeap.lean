import Mathlib.Data.List.Basic
import Yarns.Lib.Alloc

/-!
# The pages under the allocator

What the little allocator and the page ranges of big blocks keep (`Heap`), for the blocks
`little` that are carved from little pages and the ranges `big`. The header of a little
page counts the blocks on it, they lie between the header and the bump pointer, and the
bytes from the bump pointer on are zero: free space is used again only after the page was
wiped. The operations are stated by what they do to the two lists: `Heap.littleAlloc`,
`Heap.littleFree`, `Heap.pageAllocate`, `Heap.pageDeallocate` and, for a caller that
writes, `Heap.write`.
-/

namespace Yarns

namespace Alloc

/-! ## Addresses -/

@[simp] theorem littlePagesSize_toNat : littlePagesSize.toNat = 4096 := rfl

theorem pageOf_toNat (x : ULong) : (pageOf x).toNat = x.toNat / 4096 * 4096 := by
  have hmod : (x % littlePagesSize).toNat = x.toNat % 4096 := BitVec.toNat_umod
  have hle : x % littlePagesSize ≤ x := by
    rw [BitVec.le_def, hmod]
    exact Nat.mod_le _ _
  rw [pageOf, BitVec.toNat_sub_of_le hle, hmod]
  omega

theorem pageOf_eq_iff {x p : ULong} (hp : p.toNat % 4096 = 0) :
    pageOf x = p ↔ x.toNat / 4096 = p.toNat / 4096 := by
  rw [← BitVec.toNat_inj, pageOf_toNat]
  omega

theorem pageOf_aligned (x : ULong) : (pageOf x).toNat % 4096 = 0 := by
  rw [pageOf_toNat]
  omega

theorem inRange_page {p : ULong} {k : Nat} :
    InRange p littlePagesSize k ↔ k = p.toNat / 4096 := by
  rw [InRange, littlePagesSize_toNat]
  omega

/-- `n` bytes into a page. -/
theorem page_add_toNat {p n : ULong} (hp : p.toNat % 4096 = 0) (hn : n.toNat < 4096) :
    (p + n).toNat = p.toNat + n.toNat := by
  have hlt := p.isLt
  rw [BitVec.toNat_add_of_lt]
  omega

theorem memset_eq_zero {ptr len x : ULong} {bytes : ULong → BitVec 8}
    (h : bytes x = 0 ∨ x - ptr < len) : memset ptr len bytes x = 0 := by
  unfold memset
  split
  · rfl
  · exact h.resolve_right ‹_›

theorem sub_lt_of_mem {ptr len x : ULong} (hle : ptr.toNat ≤ x.toNat)
    (hlt : x.toNat < ptr.toNat + len.toNat) : x - ptr < len := by
  rw [BitVec.lt_def, BitVec.toNat_sub_of_le (BitVec.le_def.mpr hle)]
  omega

end Alloc

/-- A block that was handed out. -/
structure Block where
  ptr : ULong
  len : ULong
  deriving DecidableEq

namespace Block

open Alloc

def Mem (b : Block) (x : ULong) : Prop :=
  b.ptr.toNat ≤ x.toNat ∧ x.toNat < b.ptr.toNat + b.len.toNat

instance (b : Block) (x : ULong) : Decidable (b.Mem x) := inferInstanceAs (Decidable (_ ∧ _))

/-- One block ends before the other begins. -/
def Apart (b c : Block) : Prop :=
  b.ptr.toNat + b.len.toNat ≤ c.ptr.toNat ∨ c.ptr.toNat + c.len.toNat ≤ b.ptr.toNat

theorem Apart.symm {b c : Block} (h : b.Apart c) : c.Apart b := Or.symm h

/-- The block lies on one page, after the header. -/
structure OnPage (b : Block) : Prop where
  header : 24 ≤ b.ptr.toNat % 4096
  within : b.ptr.toNat % 4096 + b.len.toNat ≤ 4096

theorem OnPage.apart {b c : Block} (hb : b.OnPage) (hc : c.OnPage)
    (h : pageOf b.ptr ≠ pageOf c.ptr) : b.Apart c := by
  have hne : b.ptr.toNat / 4096 ≠ c.ptr.toNat / 4096 := by
    intro heq
    exact h (BitVec.eq_of_toNat_eq (by rw [pageOf_toNat, pageOf_toNat, heq]))
  have h1 := hb.within
  have h2 := hc.within
  unfold Apart
  omega

theorem OnPage.pageOf_mem {b : Block} {x : ULong} (hb : b.OnPage) (hx : b.Mem x) :
    pageOf x = pageOf b.ptr := by
  rw [pageOf_eq_iff (pageOf_aligned _), pageOf_toNat]
  have h1 := hb.within
  obtain ⟨h2, h3⟩ := hx
  omega

/-- The page ranges of two big blocks share no page. -/
def PagesApart (b c : Block) : Prop := ∀ k, InRange b.ptr b.len k → ¬ InRange c.ptr c.len k

theorem PagesApart.symm {b c : Block} (h : b.PagesApart c) : c.PagesApart b :=
  fun k hc hb => h k hb hc

end Block

namespace Alloc

variable {a a' : Alloc} {little big : List Block} {b : Block} {p ptr len addr page : ULong}

/-! ## What holds of the pages -/

/-- A little page `p` with header `h`. -/
structure LittlePage (a : Alloc) (little : List Block) (p : ULong) (h : LittlePageInfo) :
    Prop where
  aligned : p.toNat % 4096 = 0
  ne_zero : p ≠ 0
  mapped : a.mapped (p.toNat / 4096) = true
  count : h.nalloc.toNat = little.countP fun b => pageOf b.ptr = p
  room : h.nalloc.toNat + h.remainingLen.toNat ≤ 4072
  next : h.nextbase = p + (4096 - h.remainingLen)
  below : ∀ b ∈ little, pageOf b.ptr = p →
    24 ≤ b.ptr.toNat % 4096 ∧ b.ptr.toNat % 4096 + b.len.toNat + h.remainingLen.toNat ≤ 4096
  zero : ∀ x, pageOf x = p → 4096 ≤ x.toNat % 4096 + h.remainingLen.toNat → a.bytes x = 0

/-- The pages of a big block `b`. -/
structure BigRange (a : Alloc) (b : Block) : Prop where
  aligned : b.ptr.toNat % 4096 = 0
  ne_zero : b.ptr ≠ 0
  whole : b.len.toNat % 4096 = 0
  pos : 0 < b.len.toNat
  mapped : ∀ k, InRange b.ptr b.len k → a.mapped k = true
  noHeader : ∀ p h, a.pages p = some h → ¬ InRange b.ptr b.len (p.toNat / 4096)

structure Heap (a : Alloc) (little big : List Block) : Prop where
  page : ∀ p h, a.pages p = some h → LittlePage a little p h
  home : ∀ b ∈ little, (a.pages (pageOf b.ptr)).isSome
  active : a.littlePageActive = 0 ∨ (a.pages a.littlePageActive).isSome
  apart : little.Pairwise Block.Apart
  range : ∀ b ∈ big, BigRange a b
  rangesApart : big.Pairwise Block.PagesApart

theorem heap_init : Heap init [] [] where
  page := fun _ _ h => nomatch h
  home := fun _ h => nomatch h
  active := Or.inl rfl
  apart := List.Pairwise.nil
  range := fun _ h => nomatch h
  rangesApart := List.Pairwise.nil

theorem LittlePage.perm {little' : List Block} {h : LittlePageInfo} (hl : LittlePage a little p h)
    (hp : little.Perm little') : LittlePage a little' p h :=
  { hl with
    count := hl.count.trans (hp.countP_eq _)
    below := fun b hb => hl.below b (hp.mem_iff.mpr hb) }

theorem Heap.perm {little' big' : List Block} (h : Heap a little big)
    (hl : little.Perm little') (hb : big.Perm big') : Heap a little' big' where
  page := fun p hd hp => (h.page p hd hp).perm hl
  home := fun b hmem => h.home b (hl.mem_iff.mpr hmem)
  active := h.active
  apart := (hl.pairwise_iff fun hab => hab.symm).mp h.apart
  range := fun b hmem => h.range b (hb.mem_iff.mpr hmem)
  rangesApart := (hb.pairwise_iff fun hab => hab.symm).mp h.rangesApart

/-- A page is kept while it is mapped and zero bytes stay zero. -/
theorem LittlePage.frame {h : LittlePageInfo} (hl : LittlePage a little p h)
    (hmapped : a'.mapped (p.toNat / 4096) = true)
    (hbytes : ∀ x, pageOf x = p → a.bytes x = 0 → a'.bytes x = 0) : LittlePage a' little p h :=
  { hl with
    mapped := hmapped
    zero := fun x hx hoff => hbytes x hx (hl.zero x hx hoff) }

/-- A block on another page is nothing to this one. -/
theorem littlePage_cons {h : LittlePageInfo} (hne : pageOf b.ptr ≠ p) :
    LittlePage a (b :: little) p h ↔ LittlePage a little p h := by
  constructor
  · intro hl
    refine { hl with count := ?_, below := ?_ }
    · have hcount := hl.count
      rwa [List.countP_cons_of_neg (by simpa using hne)] at hcount
    · exact fun c hc => hl.below c (List.mem_cons_of_mem b hc)
  · intro hl
    refine { hl with count := ?_, below := ?_ }
    · rw [List.countP_cons_of_neg (by simpa using hne)]
      exact hl.count
    · intro c hc hpage
      rcases List.mem_cons.mp hc with rfl | hc
      · exact absurd hpage hne
      · exact hl.below c hc hpage

theorem Heap.header (h : Heap a little big) (hb : b ∈ little) :
    ∃ hd, a.pages (pageOf b.ptr) = some hd ∧ LittlePage a little (pageOf b.ptr) hd := by
  obtain ⟨hd, hhd⟩ := Option.isSome_iff_exists.mp (h.home b hb)
  exact ⟨hd, hhd, h.page _ hd hhd⟩

theorem Heap.onPage (h : Heap a little big) (hb : b ∈ little) : b.OnPage := by
  obtain ⟨hd, _, hl⟩ := h.header hb
  obtain ⟨h1, h2⟩ := hl.below b hb rfl
  exact ⟨h1, by omega⟩

/-! ## Page ranges -/

theorem pageAllocate_eq (h : pageAllocate addr len a = some a') :
    (len.toNat % 4096 = 0 ∧ a.Fresh addr len) ∧
      a' = { a with
        mapped := fun k => decide (InRange addr len k) || a.mapped k
        bytes := memset addr len a.bytes } := by
  unfold pageAllocate at h
  split at h
  · exact ⟨‹_›, (Option.some.inj h).symm⟩
  · cases h

theorem Fresh.not_mapped {k : Nat} (h : a.Fresh addr len) (hk : InRange addr len k) :
    a.mapped k = false := by
  obtain ⟨h1, h2⟩ := hk
  have hfree := h.2.2.2.2 (k - addr.toNat / 4096) (by omega)
  rwa [Nat.add_sub_cancel' h1] at hfree

/-- New pages are neither little pages nor pages of big blocks. -/
theorem Heap.pageAllocate (h : Heap a little big) (hp : pageAllocate addr len a = some a') :
    Heap a' little (⟨addr, len⟩ :: big) := by
  obtain ⟨⟨hwhole, hfresh⟩, rfl⟩ := pageAllocate_eq hp
  have hold {k : Nat} (hk : a.mapped k = true) : ¬ InRange addr len k := by
    intro hin
    rw [hfresh.not_mapped hin] at hk
    cases hk
  exact {
    page := fun p hd hhd => by
      have hl := h.page p hd hhd
      refine hl.frame ?_ fun x _ hx => memset_eq_zero (Or.inl hx)
      simp only [hl.mapped, Bool.or_true]
    home := h.home
    active := h.active
    apart := h.apart
    range := fun b hb => by
      rcases List.mem_cons.mp hb with rfl | hb
      · refine ⟨hfresh.2.1, hfresh.1, hwhole, hfresh.2.2.1, fun k hk => ?_, fun p hd hhd => ?_⟩
        · simp only [decide_eq_true hk, Bool.true_or]
        · exact hold (h.page p hd hhd).mapped
      · have hr := h.range b hb
        refine { hr with mapped := fun k hk => ?_, noHeader := hr.noHeader }
        simp only [hr.mapped k hk, Bool.or_true]
    rangesApart := by
      refine List.pairwise_cons.mpr ⟨fun c hc k hk hck => ?_, h.rangesApart⟩
      exact hold ((h.range c hc).mapped k hck) hk }

/-- Unmapping a range that no block lies on. -/
theorem heap_unmap
    (hpage : ∀ p hd, a.pages p = some hd → ¬ InRange ptr len (p.toNat / 4096) →
      LittlePage a little p hd)
    (hhome : ∀ b ∈ little, (a.pages (pageOf b.ptr)).isSome ∧
      ¬ InRange ptr len ((pageOf b.ptr).toNat / 4096))
    (hactive : a.littlePageActive = 0 ∨ (a.pages a.littlePageActive).isSome ∧
      ¬ InRange ptr len (a.littlePageActive.toNat / 4096))
    (hapart : little.Pairwise Block.Apart) (hrange : ∀ b ∈ big, BigRange a b)
    (hrangesApart : big.Pairwise Block.PagesApart)
    (hbig : ∀ b ∈ big, Block.PagesApart ⟨ptr, len⟩ b) :
    Heap { a with
      mapped := fun k => !decide (InRange ptr len k) && a.mapped k
      pages := fun p => if InRange ptr len (p.toNat / 4096) then none else a.pages p }
      little big where
  page := fun p hd hhd => by
    dsimp only at hhd
    split at hhd
    · cases hhd
    next hout =>
      have hl := hpage p hd hhd hout
      refine hl.frame ?_ fun _ _ hx => hx
      simp only [hl.mapped, decide_eq_false hout, Bool.not_false, Bool.true_and]
  home := fun b hb => by
    obtain ⟨hsome, hout⟩ := hhome b hb
    dsimp only
    rwa [if_neg hout]
  active := by
    refine hactive.imp id fun h => ?_
    dsimp only
    rw [if_neg h.2]
    exact h.1
  apart := hapart
  range := fun b hb => by
    have hr := hrange b hb
    refine { hr with mapped := fun k hk => ?_, noHeader := fun p hd hhd => ?_ }
    · have hout : ¬ InRange ptr len k := fun hin => hbig b hb k hin hk
      simp only [hr.mapped k hk, decide_eq_false hout, Bool.not_false, Bool.true_and]
    · dsimp only at hhd
      split at hhd
      · cases hhd
      · exact hr.noHeader p hd hhd
  rangesApart := hrangesApart

/-- Giving back the pages of a big block leaves every other block its pages. -/
theorem Heap.pageDeallocate (h : Heap a little (b :: big)) :
    ∃ a', pageDeallocate b.ptr b.len a = some a' ∧ Heap a' little big ∧
      a'.books = a.books ∧ a'.isReady = a.isReady := by
  have hb := h.range b List.mem_cons_self
  have hout {p : ULong} (hp : (a.pages p).isSome) : ¬ InRange b.ptr b.len (p.toNat / 4096) := by
    obtain ⟨hd, hhd⟩ := Option.isSome_iff_exists.mp hp
    exact hb.noHeader p hd hhd
  refine ⟨_, if_pos ⟨hb.ne_zero, hb.whole⟩, ?_, rfl, rfl⟩
  refine heap_unmap (fun p hd hhd _ => h.page p hd hhd) (fun c hc => ?_) ?_ h.apart
    (fun c hc => h.range c (List.mem_cons_of_mem b hc)) (List.pairwise_cons.mp h.rangesApart).2
    (List.pairwise_cons.mp h.rangesApart).1
  · exact ⟨h.home c hc, hout (h.home c hc)⟩
  · exact h.active.imp id fun hsome => ⟨hsome, hout hsome⟩

/-! ## Headers -/

@[simp] theorem emptyPage_nalloc_toNat : (emptyPage p).nalloc.toNat = 0 := rfl

@[simp] theorem emptyPage_remainingLen_toNat : (emptyPage p).remainingLen.toNat = 4072 := rfl

theorem emptyPage_nextbase : (emptyPage p).nextbase = p + (4096 - (emptyPage p).remainingLen) :=
  congrArg (p + ·) (show headerSize = 4096 - (littlePagesSize - headerSize) by decide)

/-- A page that nothing was carved from. -/
theorem emptyPage_littlePage (hp : p.toNat % 4096 = 0) (hne : p ≠ 0)
    (hmapped : a.mapped (p.toNat / 4096) = true) (hnone : ∀ b ∈ little, pageOf b.ptr ≠ p)
    (hzero : ∀ x, pageOf x = p → 24 ≤ x.toNat % 4096 → a.bytes x = 0) :
    LittlePage a little p (emptyPage p) where
  aligned := hp
  ne_zero := hne
  mapped := hmapped
  count := by
    symm
    refine List.countP_eq_zero.mpr fun b hb => ?_
    simpa using hnone b hb
  room := by simp
  next := emptyPage_nextbase
  below := fun b hb hpage => absurd hpage (hnone b hb)
  zero := fun x hx hoff => by
    rw [emptyPage_remainingLen_toNat] at hoff
    exact hzero x hx (by omega)

/-- Writing the header of one little page. -/
theorem Heap.setPage {little' : List Block} {bytes : ULong → BitVec 8} {active : ULong}
    {hd : LittlePageInfo} (h : Heap a little big)
    (ha' : a' = { a with
      bytes := bytes, pages := Function.update a.pages p (some hd), littlePageActive := active })
    (hpage : LittlePage a' little' p hd)
    (hother : ∀ q hq, q ≠ p → LittlePage a little q hq → LittlePage a' little' q hq)
    (hhome : ∀ b ∈ little', pageOf b.ptr = p ∨ b ∈ little)
    (hactive : active = p ∨ active = a.littlePageActive)
    (hapart : little'.Pairwise Block.Apart)
    (hbig : ∀ b ∈ big, ¬ InRange b.ptr b.len (p.toNat / 4096)) : Heap a' little' big := by
  subst ha'
  have hsome {q : ULong} (hq : q = p ∨ (a.pages q).isSome) :
      (Function.update a.pages p (some hd) q).isSome := by
    rw [Function.update_apply]
    split
    · rfl
    · exact hq.resolve_left ‹_›
  refine ⟨fun q hq hqe => ?_, fun b hb => ?_, ?_, hapart, fun b hb => ?_, h.rangesApart⟩
  · dsimp only at hqe
    by_cases hqp : q = p
    · subst hqp
      rw [Function.update_self] at hqe
      obtain rfl := Option.some.inj hqe
      exact hpage
    · rw [Function.update_of_ne hqp] at hqe
      exact hother q hq hqp (h.page q hq hqe)
  · exact hsome ((hhome b hb).imp id fun hmem => h.home b hmem)
  · rcases hactive with hact | hact
    · exact Or.inr (hsome (Or.inl hact))
    · rw [hact]
      exact h.active.imp id fun hs => hsome (Or.inr hs)
  · have hr := h.range b hb
    refine { hr with mapped := hr.mapped, noHeader := fun q hq hqe => ?_ }
    dsimp only at hqe
    by_cases hqp : q = p
    · subst hqp
      exact hbig b hb
    · rw [Function.update_of_ne hqp] at hqe
      exact hr.noHeader q hq hqe

/-! ## Carving -/

/-- The system gives no page that is a little page. -/
theorem Heap.not_held (h : Heap a little big) (hfresh : a.Fresh page littlePagesSize) :
    a.pages page = none := by
  refine Option.eq_none_iff_forall_not_mem.mpr fun hd hhd => ?_
  have hmapped := (h.page page hd hhd).mapped
  rw [hfresh.not_mapped (inRange_page.mpr rfl)] at hmapped
  cases hmapped

theorem Heap.littlePageAllocate (h : Heap a little big)
    (hp : littlePageAllocate page a = some a') :
    Heap a' little big ∧ a'.books = a.books ∧ a'.isReady = a.isReady ∧
      a'.littlePageActive = page ∧ a'.pages page = some (emptyPage page) := by
  obtain ⟨c, hc, ha'⟩ := Option.map_eq_some_iff.mp hp
  obtain ⟨⟨-, hfresh⟩, hceq⟩ := pageAllocate_eq hc
  have hheap := h.pageAllocate hc
  have hpage := hfresh.2.1
  have hin : InRange page littlePagesSize (page.toNat / 4096) := inRange_page.mpr rfl
  have hpages : c.pages = a.pages := by rw [hceq]
  have hnone := h.not_held hfresh
  refine ⟨?_, by rw [← ha', hceq], by rw [← ha', hceq], by rw [← ha'], ?_⟩
  · have hrest : Heap c little big :=
      { hheap with
        range := fun b hb => hheap.range b (List.mem_cons_of_mem _ hb)
        rangesApart := (List.pairwise_cons.mp hheap.rangesApart).2 }
    refine hrest.setPage ha'.symm ?_ (fun q hq _ hl => ?_) (fun b hb => Or.inr hb) (Or.inl rfl)
      h.apart fun b hb hbk => ?_
    · refine emptyPage_littlePage hpage hfresh.1 ?_ (fun b hb hbp => ?_) fun x hx hoff => ?_
      · rw [← ha', hceq]
        simp only [decide_eq_true hin, Bool.true_or]
      · have hsome := h.home b hb
        rw [hbp, hnone] at hsome
        cases hsome
      · have hx' := (pageOf_eq_iff hpage).mp hx
        rw [← ha', hceq]
        refine memset_eq_zero (Or.inr (sub_lt_of_mem (by omega) ?_))
        rw [littlePagesSize_toNat]
        omega
    · rw [← ha']
      exact hl.frame hl.mapped fun _ _ hx => hx
    · exact (List.pairwise_cons.mp hheap.rangesApart).1 b hb _ hin hbk
  · rw [← ha']
    exact Function.update_self ..

/-- The bump pointer of a page with room left. -/
theorem LittlePage.nextbase_toNat {h : LittlePageInfo} (hl : LittlePage a little p h)
    (hpos : 0 < h.remainingLen.toNat) :
    h.nextbase.toNat = p.toNat + (4096 - h.remainingLen.toNat) := by
  have hroom := hl.room
  have hoff : (4096 - h.remainingLen).toNat = 4096 - h.remainingLen.toNat := by
    refine BitVec.toNat_sub_of_le (BitVec.le_def.mpr ?_)
    show h.remainingLen.toNat ≤ 4096
    omega
  rw [hl.next, page_add_toNat hl.aligned (by omega), hoff]

/-- What is carved from a page lies on it, behind the header. -/
theorem LittlePage.carved_onPage {h : LittlePageInfo} (hl : LittlePage a little p h)
    (hpos : 0 < len.toNat) (hlen : len.toNat ≤ h.remainingLen.toNat) :
    pageOf h.nextbase = p ∧ Block.OnPage ⟨h.nextbase, len⟩ := by
  have hnext := hl.nextbase_toNat (by omega)
  have hroom := hl.room
  have haligned := hl.aligned
  refine ⟨?_, ?_, ?_⟩
  · rw [pageOf_eq_iff haligned]
    omega
  · dsimp only
    omega
  · dsimp only
    omega

/-- The header after a block of `len` bytes was carved from its page. -/
theorem LittlePage.carve {h : LittlePageInfo} (hl : LittlePage a little p h)
    (hpos : 0 < len.toNat) (hlen : len.toNat ≤ h.remainingLen.toNat) :
    LittlePage a (⟨h.nextbase, len⟩ :: little) p
      ⟨h.nalloc + 1, h.remainingLen - len, h.nextbase + len⟩ := by
  obtain ⟨hpage, -⟩ := hl.carved_onPage hpos hlen
  have hnext := hl.nextbase_toNat (by omega)
  have hroom := hl.room
  have haligned := hl.aligned
  have hnalloc : (h.nalloc + 1).toNat = h.nalloc.toNat + 1 :=
    BitVec.toNat_add_of_lt (by show h.nalloc.toNat + 1 < _; omega)
  have hrest : (h.remainingLen - len).toNat = h.remainingLen.toNat - len.toNat :=
    BitVec.toNat_sub_of_le (BitVec.le_def.mpr hlen)
  refine ⟨haligned, hl.ne_zero, hl.mapped, ?_, ?_, ?_, fun b hb hbp => ?_, fun x hx hxo => ?_⟩
  · rw [List.countP_cons_of_pos (by simpa using hpage), hnalloc, hl.count]
  · rw [hnalloc, hrest]
    omega
  · dsimp only
    rw [hl.next]
    bv_omega
  · rw [hrest]
    rcases List.mem_cons.mp hb with rfl | hb
    · dsimp only
      omega
    · obtain ⟨h1, h2⟩ := hl.below b hb hbp
      omega
  · rw [hrest] at hxo
    exact hl.zero x hx (by omega)

/-- A block carved from the active page lies on that page behind all the others. -/
theorem Heap.carve {lpi : LittlePageInfo} (h : Heap a little big)
    (hlpi : a.pages a.littlePageActive = some lpi) (hpos : 0 < len.toNat)
    (hlen : len.toNat ≤ lpi.remainingLen.toNat) :
    Heap (carve lpi len a).2 (⟨lpi.nextbase, len⟩ :: little) big ∧
      pageOf lpi.nextbase = a.littlePageActive ∧
      ∀ x, Block.Mem ⟨lpi.nextbase, len⟩ x → a.bytes x = 0 := by
  have hl := h.page _ lpi hlpi
  have hnext := hl.nextbase_toNat (by omega)
  have hroom := hl.room
  have haligned := hl.aligned
  obtain ⟨hpage, hon⟩ := hl.carved_onPage hpos hlen
  refine ⟨?_, hpage, fun x hx => ?_⟩
  · refine h.setPage rfl ?_ (fun q hq hqp hlq => ?_) (fun b hb => ?_) (Or.inl rfl) ?_ fun b hb =>
      (h.range b hb).noHeader _ lpi hlpi
    · exact (hl.carve hpos hlen).frame hl.mapped fun _ _ hx => hx
    · have hother : pageOf (Block.mk lpi.nextbase len).ptr ≠ q :=
        fun hpq => hqp (hpq.symm.trans hpage)
      exact (littlePage_cons hother).mpr (hlq.frame hlq.mapped fun _ _ hx => hx)
    · rcases List.mem_cons.mp hb with rfl | hb
      · exact Or.inl hpage
      · exact Or.inr hb
    · refine List.pairwise_cons.mpr ⟨fun c hc => ?_, h.apart⟩
      by_cases hcp : pageOf c.ptr = a.littlePageActive
      · -- on the same page it ends at or before the bump pointer
        obtain ⟨-, h2⟩ := hl.below c hc hcp
        have hc' := (pageOf_eq_iff haligned).mp hcp
        refine Or.inr ?_
        dsimp only
        omega
      · exact hon.apart (h.onPage hc) fun heq => hcp (heq.symm.trans hpage)
  · have h1 := hx.1
    have h2 := hx.2
    refine hl.zero x ((hon.pageOf_mem hx).trans hpage) ?_
    dsimp only at h1 h2
    omega

theorem getLittlePage_ready {lpi : LittlePageInfo} (h0 : a.littlePageActive ≠ 0)
    (hlpi : a.pages a.littlePageActive = some lpi) (hnext : lpi.nextbase ≠ 0) :
    getLittlePage page a = some a := by
  simp only [getLittlePage, if_neg h0, hlpi, if_neg hnext, Option.bind_eq_bind, Option.bind_some]

theorem emptyPage_nextbase_ne_zero (hp : p.toNat % 4096 = 0) : (emptyPage p).nextbase ≠ 0 := by
  have h24 : (p + headerSize).toNat = p.toNat + 24 := page_add_toNat hp (by decide)
  intro h0
  have hz := congrArg BitVec.toNat h0
  rw [emptyPage, h24] at hz
  exact absurd hz (Nat.succ_ne_zero _)

/-- A new page is ready, and has room for whatever a page has room for. -/
theorem littlePageAllocate_ready (h : Heap a little big)
    (hp : littlePageAllocate page a = some a') (hlen : len.toNat ≤ 4072) :
    getLittlePage page a' = some a' ∧ a'.pages a'.littlePageActive = some (emptyPage page) ∧
      ¬ (emptyPage page).remainingLen < len := by
  obtain ⟨hheap, -, -, hactive, hpages⟩ := h.littlePageAllocate hp
  rw [hactive]
  have hl := hheap.page page _ hpages
  have hnext := emptyPage_nextbase_ne_zero hl.aligned
  refine ⟨getLittlePage_ready (hactive ▸ hl.ne_zero) (hactive ▸ hpages) hnext, hpages, ?_⟩
  rw [BitVec.lt_def, emptyPage_remainingLen_toNat]
  omega

theorem Heap.getLittlePage_cases (h : Heap a little big) (page : ULong) :
    ((∃ lpi, a.pages a.littlePageActive = some lpi) ∧ getLittlePage page a = some a) ∨
      getLittlePage page a = Alloc.littlePageAllocate page a := by
  by_cases h0 : a.littlePageActive = 0
  · refine Or.inr ?_
    simp only [getLittlePage, if_pos h0, Option.bind_eq_bind]
    cases hb : Alloc.littlePageAllocate page a with
    | none => rfl
    | some b =>
      obtain ⟨hheap, -, -, hactive, hpages⟩ := h.littlePageAllocate hb
      have hne := emptyPage_nextbase_ne_zero (hheap.page page _ hpages).aligned
      simp only [Option.bind_some, hactive, hpages, if_neg hne]
  · obtain ⟨lpi, hlpi⟩ := Option.isSome_iff_exists.mp (h.active.resolve_left h0)
    simp only [getLittlePage, if_neg h0, hlpi, Option.bind_eq_bind, Option.bind_some]
    split
    · exact Or.inr rfl
    · exact Or.inl ⟨⟨lpi, rfl⟩, rfl⟩

/-- A request is carved from the active page, or from one new page. -/
theorem Heap.littleAlloc_eq (h : Heap a little big) (hlen : len.toNat ≤ 4072) (page : ULong) :
    (∃ lpi, a.pages a.littlePageActive = some lpi ∧ len.toNat ≤ lpi.remainingLen.toNat ∧
      littleAlloc len page a = some (Alloc.carve lpi len a)) ∨
    littleAlloc len page a = (Alloc.littlePageAllocate page a).map
      (Alloc.carve (emptyPage page) len) := by
  rcases h.getLittlePage_cases page with ⟨⟨lpi, hlpi⟩, hget⟩ | hget
  · by_cases hroom : lpi.remainingLen < len
    · refine Or.inr ?_
      simp only [littleAlloc, hget, hlpi, if_pos hroom, Option.bind_eq_bind, Option.bind_some]
      cases hb : Alloc.littlePageAllocate page a with
      | none => rfl
      | some b =>
        obtain ⟨hready, hpages, -⟩ := littlePageAllocate_ready h hb hlen
        simp only [Option.bind_some, hready, hpages, Option.map_some]
    · refine Or.inl ⟨lpi, hlpi, Nat.le_of_not_lt hroom, ?_⟩
      simp only [littleAlloc, hget, hlpi, if_neg hroom, Option.bind_eq_bind, Option.bind_some]
  · refine Or.inr ?_
    simp only [littleAlloc, hget, Option.bind_eq_bind]
    cases hb : Alloc.littlePageAllocate page a with
    | none => rfl
    | some b =>
      obtain ⟨-, hpages, hroom⟩ := littlePageAllocate_ready h hb hlen
      simp only [Option.bind_some, hpages, if_neg hroom, Option.map_some]

/-- The block lies behind the header of the active page and is all zero. -/
theorem Heap.littleAlloc (h : Heap a little big) (hpos : 0 < len.toNat)
    (hlen : len.toNat ≤ 4072) (hal : littleAlloc len page a = some (ptr, a')) :
    Heap a' (⟨ptr, len⟩ :: little) big ∧ a'.books = a.books ∧ a'.isReady = a.isReady ∧
      pageOf ptr = a'.littlePageActive ∧ ∀ x, Block.Mem ⟨ptr, len⟩ x → a'.bytes x = 0 := by
  rcases h.littleAlloc_eq hlen page with ⟨lpi, hlpi, hroom, heq⟩ | heq
  · obtain ⟨rfl, rfl⟩ := Prod.mk.inj (Option.some.inj (heq.symm.trans hal))
    obtain ⟨hheap, hpage, hzero⟩ := h.carve hlpi hpos hroom
    exact ⟨hheap, rfl, rfl, hpage, hzero⟩
  · rw [heq] at hal
    obtain ⟨b, hb, hcarve⟩ := Option.map_eq_some_iff.mp hal
    obtain ⟨rfl, rfl⟩ := Prod.mk.inj hcarve
    obtain ⟨hheap, hbooks, hready, hactive, hpages⟩ := h.littlePageAllocate hb
    subst hactive
    obtain ⟨hheap', hpage, hzero⟩ := hheap.carve hpages hpos hlen
    exact ⟨hheap', hbooks, hready, hpage, hzero⟩

/-- A request is answered when the system has a page to give. -/
theorem Heap.littleAlloc_isSome (h : Heap a little big) (hlen : len.toNat ≤ 4072)
    (hfresh : a.Fresh page littlePagesSize) : (Alloc.littleAlloc len page a).isSome := by
  rcases h.littleAlloc_eq hlen page with ⟨lpi, -, -, heq⟩ | heq
  · rw [heq]
    rfl
  · rw [heq, Alloc.littlePageAllocate, Alloc.pageAllocate, if_pos ⟨by decide, hfresh⟩]
    rfl

/-! ## Giving back -/

/-- The header counts the block `b` and the others on its page. -/
theorem LittlePage.nalloc_pred {hd : LittlePageInfo}
    (hl : LittlePage a (b :: little) (pageOf b.ptr) hd) :
    (hd.nalloc - 1).toNat = little.countP fun c => pageOf c.ptr = pageOf b.ptr := by
  have hcount := hl.count
  rw [List.countP_cons_of_pos (by simp)] at hcount
  have hroom := hl.room
  bv_omega

/-- The page without `b`, when other blocks are left on it. -/
theorem LittlePage.free {hd : LittlePageInfo}
    (hl : LittlePage a (b :: little) (pageOf b.ptr) hd) :
    LittlePage a little (pageOf b.ptr) { hd with nalloc := hd.nalloc - 1 } where
  aligned := hl.aligned
  ne_zero := hl.ne_zero
  mapped := hl.mapped
  count := hl.nalloc_pred
  room := by
    have hcount := hl.count
    rw [List.countP_cons_of_pos (by simp), ← hl.nalloc_pred] at hcount
    have hroom := hl.room
    dsimp only
    omega
  next := hl.next
  below := fun c hc => hl.below c (List.mem_cons_of_mem b hc)
  zero := hl.zero

/-- Writing the header of the page that `b` lies on, when `b` is given back. -/
theorem Heap.freeOn {bytes : ULong → BitVec 8} {hd' : LittlePageInfo}
    (h : Heap a (b :: little) big)
    (hpage : LittlePage { a with bytes := bytes } little (pageOf b.ptr) hd')
    (hbytes : ∀ x, a.bytes x = 0 → bytes x = 0) :
    Heap { a with
      pages := Function.update a.pages (pageOf b.ptr) (some hd'), bytes := bytes } little big := by
  obtain ⟨hd, hhd, -⟩ := h.header List.mem_cons_self
  refine h.setPage rfl ?_ (fun q hq hqp hlq => ?_) (fun c hc => ?_) (Or.inr rfl)
    (List.pairwise_cons.mp h.apart).2 fun c hc => (h.range c hc).noHeader _ hd hhd
  · exact hpage.frame hpage.mapped fun _ _ hx => hx
  · have hlq' := (littlePage_cons fun hpq => hqp hpq.symm).mp hlq
    exact hlq'.frame hlq.mapped fun x _ hx => hbytes x hx
  · exact Or.inr (List.mem_cons_of_mem b hc)

/-- The pages of a range of one little page hold no other. -/
theorem Heap.inRange_iff {q : ULong} (h : Heap a little big) (hp : (a.pages p).isSome)
    (hq : (a.pages q).isSome) : InRange p littlePagesSize (q.toNat / 4096) ↔ q = p := by
  obtain ⟨hd, hhd⟩ := Option.isSome_iff_exists.mp hp
  obtain ⟨hd', hhd'⟩ := Option.isSome_iff_exists.mp hq
  have h1 := (h.page p hd hhd).aligned
  have h2 := (h.page q hd' hhd').aligned
  rw [inRange_page, ← BitVec.toNat_inj]
  omega

/-- A page that is not active goes back to the system with its last block. -/
theorem Heap.unmapPage {hd : LittlePageInfo} (h : Heap a (b :: little) big)
    (hhd : a.pages (pageOf b.ptr) = some hd) (hnone : ∀ c ∈ little, pageOf c.ptr ≠ pageOf b.ptr)
    (hact : pageOf b.ptr ≠ a.littlePageActive) :
    ∃ a', Alloc.pageDeallocate (pageOf b.ptr) littlePagesSize a = some a' ∧
      Heap a' little big ∧ a'.books = a.books ∧ a'.isReady = a.isReady := by
  have hl := h.page _ hd hhd
  have hpage {q : ULong} {hq : LittlePageInfo} (hqe : a.pages q = some hq) :
      InRange (pageOf b.ptr) littlePagesSize (q.toNat / 4096) ↔ q = pageOf b.ptr :=
    h.inRange_iff (Option.isSome_of_eq_some hhd) (Option.isSome_of_eq_some hqe)
  refine ⟨_, if_pos ⟨hl.ne_zero, rfl⟩, ?_, rfl, rfl⟩
  refine heap_unmap (fun q hq hqe hout => ?_) (fun c hc => ?_) ?_
    (List.pairwise_cons.mp h.apart).2 h.range h.rangesApart fun c hc k hk hck => ?_
  · have hne : pageOf b.ptr ≠ q := fun hpq => hout ((hpage hqe).mpr hpq.symm)
    exact (littlePage_cons hne).mp (h.page q hq hqe)
  · obtain ⟨hq, hqe, -⟩ := h.header (List.mem_cons_of_mem b hc)
    exact ⟨Option.isSome_of_eq_some hqe, fun hin => hnone c hc ((hpage hqe).mp hin)⟩
  · refine h.active.imp id fun hsome => ⟨hsome, fun hin => ?_⟩
    obtain ⟨hq, hqe⟩ := Option.isSome_iff_exists.mp hsome
    exact hact ((hpage hqe).mp hin).symm
  · rw [inRange_page.mp hk] at hck
    exact (h.range c hc).noHeader _ hd hhd hck

/-- The last block of a page takes the page with it: the active page is wiped, any other
goes back to the system. -/
theorem Heap.littleFree (h : Heap a (b :: little) big) :
    ∃ a', littleFree b.ptr a = some a' ∧ Heap a' little big ∧ a'.books = a.books ∧
      a'.isReady = a.isReady := by
  obtain ⟨hd, hhd, hl⟩ := h.header List.mem_cons_self
  simp only [Alloc.littleFree, hhd, Option.bind_eq_bind, Option.bind_some]
  by_cases hlast : hd.nalloc - 1 = 0
  · rw [if_pos hlast]
    have hnone : ∀ c ∈ little, pageOf c.ptr ≠ pageOf b.ptr := by
      intro c hc
      have hzero := hl.nalloc_pred
      rw [hlast] at hzero
      simpa using List.countP_eq_zero.mp hzero.symm c hc
    by_cases hact : pageOf b.ptr = a.littlePageActive
    · rw [if_pos hact]
      refine ⟨_, rfl, h.freeOn ?_ fun x hx => memset_eq_zero (Or.inl hx), rfl, rfl⟩
      refine emptyPage_littlePage hl.aligned hl.ne_zero hl.mapped hnone fun x hx hoff => ?_
      have haligned := hl.aligned
      have hx' := (pageOf_eq_iff haligned).mp hx
      have hbase : (pageOf b.ptr + headerSize).toNat = (pageOf b.ptr).toNat + 24 :=
        page_add_toNat haligned (by decide)
      have hsize : (littlePagesSize - headerSize).toNat = 4072 := rfl
      exact memset_eq_zero (Or.inr (sub_lt_of_mem (by omega) (by omega)))
    · rw [if_neg hact]
      exact h.unmapPage hhd hnone hact
  · rw [if_neg hlast]
    exact ⟨_, rfl, h.freeOn hl.free fun _ hx => hx, rfl, rfl⟩

/-- A caller that writes into its own block. -/
theorem Heap.write {x : ULong} (v : BitVec 8) (h : Heap a little big)
    (hx : (∃ b ∈ little, b.Mem x) ∨ ∃ b ∈ big, b.Mem x) :
    Heap { a with bytes := Function.update a.bytes x v } little big := by
  refine { h with page := fun p hd hhd => ?_, range := fun b hb => ?_ }
  · have hl := h.page p hd hhd
    refine { hl with zero := fun y hy hoff => ?_ }
    dsimp only
    rw [Function.update_of_ne]
    · exact hl.zero y hy hoff
    · intro hyx
      subst hyx
      rcases hx with ⟨b, hb, hmem⟩ | ⟨b, hb, hmem⟩
      · have hpage := ((h.onPage hb).pageOf_mem hmem).symm.trans hy
        obtain ⟨h1, h2⟩ := hl.below b hb hpage
        have hp := (pageOf_eq_iff hl.aligned).mp hpage
        have hyp := (pageOf_eq_iff hl.aligned).mp hy
        obtain ⟨h3, h4⟩ := hmem
        omega
      · have hr := h.range b hb
        have haligned := hr.aligned
        have hwhole := hr.whole
        have hyp := (pageOf_eq_iff hl.aligned).mp hy
        obtain ⟨h3, h4⟩ := hmem
        refine hr.noHeader p hd hhd ⟨by omega, by omega⟩
  · exact { h.range b hb with }

end Alloc

end Yarns
