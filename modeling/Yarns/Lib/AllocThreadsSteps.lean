import Yarns.Lib.AllocThreadsHeap

/-!
# A step of one thread

What a thread has while it is in a call (`AllocPc.little`, `AllocPc.big`) and what it may
rely on (`Ok`), next to what the others have (`Fits`). A step keeps this, and gives the
others no reason to worry: the data of a lock changes only while the thread holds it, their
records stay in the book and their fresh blocks stay zero (`Frame`).
-/

namespace Yarns

open Base Alloc

variable {a a' : Alloc} {m m' : AllocShared} {pc pc' : AllocPc} {L B : List Block}
  {b c : Block} {page len addr ptr : ULong} {n : Nat}

/-- The walk along the chain has reached its end. -/
def Alloc.AtEnd (a : Alloc) (b : Block) (n : Nat) : Prop :=
  n = (a.books (bookIndex b.ptr)).next.length

def AllocCaller.Ok (a : Alloc) (len : ULong) : AllocCaller → Prop
  | .yalloc => 0 < len.toNat ∧ len.toNat ≤ 2048
  | .insert b n => len = recordSize ∧ Zero a b ∧ AtEnd a b n

def FreeCaller.Ok : FreeCaller → Prop
  | .yfree => True
  | .eat b len => len = b.len

/-- What a thread relies on. -/
def AllocPc.Ok (a : Alloc) : AllocPc → Prop
  | .idle => True
  | .insertLock b | .insertHead b => Zero a b
  | .insertInline b => Zero a b ∧ (a.books (bookIndex b.ptr)).lptr = 0
  | .insertLink b n _ => Zero a b ∧ AtEnd a b n
  | .insertUnlock b => Zero a b ∧ Listed a b
  | .allocLock len k | .allocPage len k => k.Ok a len
  | .allocRoom lpi len k => k.Ok a len ∧ lpi = a.littlePageActive ∧ (a.pages lpi).isSome
  | .allocCarve lpi len k => k.Ok a len ∧ lpi = a.littlePageActive ∧
      ∃ h, a.pages lpi = some h ∧ len.toNat ≤ h.remainingLen.toNat
  | .allocUnlock c k => k.Ok a c.len ∧ Zero a c
  | .eatLock b | .eatFind b => Listed a b
  | .eatUnlink b n r => (a.books (bookIndex b.ptr)).next[n]? = some r ∧ r.lptr = b.ptr
  | .eatUnlock b len | .unmap b len => len = b.len
  | .freeLock _ k | .freeDrop _ k | .freeUnlock k => k.Ok
  | .freeEmpty lpi k => k.Ok ∧ ∃ h, a.pages lpi = some h ∧ h.nalloc = 0

theorem AllocCaller.Ok.bound {k : AllocCaller} (h : k.Ok a len) :
    0 < len.toNat ∧ len.toNat ≤ 4072 := by
  cases k with
  | yalloc => exact ⟨h.1, Nat.le_trans h.2 (by decide)⟩
  | insert b n =>
    rw [h.1]
    decide

/-- What a caller relies on does not change with the little pages. -/
theorem AllocCaller.Ok.frame {k : AllocCaller} (h : k.Ok a len)
    (hbooks : k.holdsBig → a'.books = a.books)
    (hzero : ∀ c ∈ k.big, Zero a c → Zero a' c) : k.Ok a' len := by
  cases k with
  | yalloc => exact h
  | insert b n =>
    refine ⟨h.1, hzero b (List.mem_singleton_self b) h.2.1, ?_⟩
    rw [AtEnd, hbooks rfl]
    exact h.2.2

theorem AllocCaller.Ok.visit {k : AllocCaller} (h : k.Ok a len) (hbooks : a'.books = a.books)
    (hbytes : ∀ x, a.bytes x = 0 → a'.bytes x = 0) : k.Ok a' len :=
  h.frame (fun _ => hbooks) fun _ _ hc => hc.of_bytes hbytes

/-- What a thread relies on when another one moves. -/
theorem AllocPc.Ok.frame (h : pc.Ok a)
    (hpages : pc.holds .little → a'.pages = a.pages ∧ a'.littlePageActive = a.littlePageActive)
    (hbooks : pc.holds .big → a'.books = a.books)
    (hlisted : ∀ c ∈ pc.big, Listed a c → Listed a' c)
    (hzero : ∀ c ∈ pc.little ++ pc.big, Zero a c → Zero a' c) : pc.Ok a' := by
  cases pc with
  | idle => trivial
  | insertLock b | insertHead b => exact hzero b (List.mem_singleton_self b) h
  | insertInline b =>
    refine ⟨hzero b (List.mem_singleton_self b) h.1, ?_⟩
    rw [hbooks rfl]
    exact h.2
  | insertLink b n r =>
    refine ⟨hzero b (List.mem_append_right _ (List.mem_singleton_self b)) h.1, ?_⟩
    rw [AtEnd, hbooks rfl]
    exact h.2
  | insertUnlock b =>
    have hb := List.mem_singleton_self b
    exact ⟨hzero b hb h.1, hlisted b hb h.2⟩
  | allocLock len k | allocPage len k => exact AllocCaller.Ok.frame h hbooks hzero
  | allocRoom lpi len k =>
    obtain ⟨hp, hact⟩ := hpages rfl
    refine ⟨h.1.frame hbooks hzero, ?_⟩
    rw [hp, hact]
    exact h.2
  | allocCarve lpi len k =>
    obtain ⟨hp, hact⟩ := hpages rfl
    refine ⟨h.1.frame hbooks hzero, ?_⟩
    rw [hp, hact]
    exact h.2
  | allocUnlock c k =>
    exact ⟨h.1.frame hbooks fun b hb => hzero b (List.mem_append_right _ hb),
      hzero c List.mem_cons_self h.2⟩
  | eatLock b | eatFind b => exact hlisted b (List.mem_singleton_self b) h
  | eatUnlink b n r =>
    show (a'.books (bookIndex b.ptr)).next[n]? = some r ∧ r.lptr = b.ptr
    rw [hbooks rfl]
    exact h
  | eatUnlock b len | unmap b len => exact h
  | freeLock c k | freeDrop c k | freeUnlock k => exact h
  | freeEmpty lpi k =>
    refine ⟨h.1, ?_⟩
    rw [(hpages rfl).1]
    exact h.2

/-- What callers keep to: no request for nothing, and no address from the system under
which a record with another length was left in the book. -/
def AllocAct.Regular (a : Alloc) : AllocAct → Prop
  | .yalloc len addr => 0 < len.toNat ∧ (2048 < len → Agrees a ⟨addr, roundUp len⟩)
  | _ => True

namespace AllocShared

/-- A thread next to others that have the little blocks `L` and the pages `B`. -/
structure Fits (m : AllocShared) (pc : AllocPc) (L B : List Block) : Prop where
  heap : Heap m.alloc (pc.little ++ (L ++ (smalls m.live ++ chained m.alloc.books)))
    (pc.big ++ (B ++ ranges m.live))
  agrees : ∀ c ∈ pc.big ++ (B ++ ranges m.live), Agrees m.alloc c
  listed : ∀ c ∈ ranges m.live, Listed m.alloc c
  ok : pc.Ok m.alloc

/-- What a step of a thread leaves to the others. -/
structure Frame (m m' : AllocShared) (pc : AllocPc) (L B : List Block) : Prop where
  pages : pc.holds .little = false → m'.alloc.pages = m.alloc.pages ∧
    m'.alloc.littlePageActive = m.alloc.littlePageActive
  books : pc.holds .big = false → m'.alloc.books = m.alloc.books
  listed : ∀ c ∈ B, Listed m.alloc c → Listed m'.alloc c
  zero : ∀ c ∈ L ++ B, Zero m.alloc c → Zero m'.alloc c

/-! ## Kinds of steps -/

/-- Only the lock or the variables of the thread change. -/
theorem Fits.move (h : Fits m pc L B) (ha : m'.alloc = m.alloc) (hlive : m'.live = m.live)
    (hl : pc'.little = pc.little) (hb : pc'.big = pc.big) (hok : pc'.Ok m.alloc) :
    Fits m' pc' L B ∧ Frame m m' pc L B := by
  refine ⟨⟨?_, ?_, ?_, ?_⟩, ⟨fun _ => ?_, fun _ => ?_, fun c _ => ?_, fun c _ => ?_⟩⟩
  all_goals rw [ha]
  · rw [hlive, hl, hb]
    exact h.heap
  · rw [hlive, hb]
    exact h.agrees
  · rw [hlive]
    exact h.listed
  · exact hok
  · exact ⟨rfl, rfl⟩
  · exact id
  · exact id

/-- A thread without anything. -/
theorem Fits.handOut (h : Fits m pc L B) (ha : m'.alloc = m.alloc) (hlive : m'.live = c :: m.live)
    (hl : pc'.little = []) (hb : pc'.big = []) (hok : pc'.Ok m.alloc)
    (hpart : c.len.toNat ≤ 2048 ∧ pc.little = [c] ∧ pc.big = [] ∨
      Listed m.alloc c ∧ pc.little = [] ∧ pc.big = [c]) :
    Fits m' pc' L B ∧ Frame m m' pc L B := by
  have hheap := h.heap
  have hagrees := h.agrees
  have hframe : Frame m m' pc L B := by
    refine ⟨fun _ => ?_, fun _ => ?_, fun c _ => ?_, fun c _ => ?_⟩ <;> rw [ha]
    · exact ⟨rfl, rfl⟩
    · exact id
    · exact id
  rcases hpart with ⟨hlen, hpl, hpb⟩ | ⟨hlisted, hpl, hpb⟩
  · obtain ⟨hs, hr⟩ := smalls_cons m.live hlen
    simp only [hpl, hpb, List.nil_append, List.singleton_append] at hheap hagrees
    refine ⟨⟨?_, ?_, ?_, ?_⟩, hframe⟩
    · rw [hl, hb, ha, hlive, hs, hr]
      exact hheap.perm List.perm_middle.symm (List.Perm.refl _)
    · rw [hb, ha, hlive, hr]
      exact hagrees
    · rw [ha, hlive, hr]
      exact h.listed
    · rw [ha]
      exact hok
  · simp only [hpl, hpb, List.nil_append, List.singleton_append] at hheap hagrees
    obtain ⟨hs, hr⟩ := ranges_cons m.live (hheap.range c List.mem_cons_self).len_gt
    refine ⟨⟨?_, ?_, ?_, ?_⟩, hframe⟩
    · rw [hl, hb, ha, hlive, hs, hr]
      exact hheap.perm (List.Perm.refl _) List.perm_middle.symm
    · rw [hb, ha, hlive, hr]
      exact fun e he => hagrees e (List.perm_middle.subset he)
    · rw [ha, hlive, hr]
      exact List.forall_mem_cons.mpr ⟨hlisted, h.listed⟩
    · rw [ha]
      exact hok

/-- Pages and bytes change, and the book does not. -/
theorem Fits.visit (h : Fits m pc L B) (hbooks : m'.alloc.books = m.alloc.books)
    (hlive : m'.live = m.live)
    (hheap : Heap m'.alloc (pc'.little ++ (L ++ (smalls m.live ++ chained m.alloc.books)))
      (pc'.big ++ (B ++ ranges m.live)))
    (hbig : ∀ c ∈ pc'.big, Agrees m.alloc c)
    (hbytes : ∀ x, m.alloc.bytes x = 0 → m'.alloc.bytes x = 0)
    (hpages : pc.holds .little = false → m'.alloc.pages = m.alloc.pages ∧
      m'.alloc.littlePageActive = m.alloc.littlePageActive)
    (hok : pc'.Ok m'.alloc) : Fits m' pc' L B ∧ Frame m m' pc L B := by
  have hagrees : ∀ c, Agrees m.alloc c → Agrees m'.alloc c := by
    intro c hc
    rwa [Agrees, hbooks]
  have hlisted : ∀ c, Listed m.alloc c → Listed m'.alloc c := by
    intro c hc
    rwa [Listed, hbooks]
  refine ⟨⟨?_, ?_, ?_, hok⟩, ⟨hpages, fun _ => hbooks, fun c _ => hlisted c,
    fun c _ hc => hc.of_bytes hbytes⟩⟩
  · rw [hbooks, hlive]
    exact hheap
  · rw [hlive]
    intro c hc
    rcases List.mem_append.mp hc with hc | hc
    · exact hagrees c (hbig c hc)
    · exact hagrees c (h.agrees c (List.mem_append_right _ hc))
  · rw [hlive]
    exact fun c hc => hlisted c (h.listed c hc)

/-- One entry of the book changes, under `big_lock`. -/
theorem Fits.book {v : Bucket} (h : Fits m pc L B) (hpc : b ∈ pc.big)
    (hm : m' = m.setBook (bookIndex b.ptr) v) (hb : pc'.big = pc.big)
    (hlock : pc.holds .big = true)
    (hnew : ∀ e ∈ v.entries, e ∈ (m.alloc.books (bookIndex b.ptr)).entries ∨ e = b)
    (hkeep : ∀ e ∈ (m.alloc.books (bookIndex b.ptr)).entries, e ∈ v.entries ∨ e.ptr = b.ptr)
    (hchained : (pc.little ++ chained m.alloc.books).Perm
      (pc'.little ++ chained (Function.update m.alloc.books (bookIndex b.ptr) v)))
    (hok : pc'.Ok m'.alloc) : Fits m' pc' L B ∧ Frame m m' pc L B := by
  subst hm
  have hmem : ∀ {c}, c ∈ pc.big ++ (B ++ ranges m.live) → c.ptr = b.ptr → c = b :=
    fun hc hptr => h.heap.big_unique hc (List.mem_append_left _ hpc) hptr
  have hlisted : ∀ c ∈ B ++ ranges m.live, Listed m.alloc c →
      Listed (m.setBook (bookIndex b.ptr) v).alloc c := by
    intro c hc hlc
    refine hlc.update fun hold => (hkeep c hold).resolve_right fun hptr => ?_
    -- the pages of the others are not those of this thread
    have hnodup := List.pairwise_map.mp h.heap.big_nodup
    exact (List.pairwise_append.mp hnodup).2.2 b hpc c hc hptr.symm
  refine ⟨⟨?_, ?_, ?_, hok⟩, ⟨fun _ => ⟨rfl, rfl⟩, fun hfree => ?_, fun c hc => ?_, fun c _ => id⟩⟩
  · refine (h.heap.perm ?_ (hb ▸ List.Perm.refl _)).setBooks _ _
    have hmid : ∀ l ch : List Block, (l ++ (L ++ (smalls m.live ++ ch))).Perm
        (L ++ (smalls m.live ++ (l ++ ch))) := by
      intro l ch
      rw [← List.append_assoc L, ← List.append_assoc L]
      exact List.perm_append_comm_assoc l _ ch
    exact (hmid _ _).trans (((hchained.append_left _).append_left L).trans (hmid _ _).symm)
  · rw [hb]
    intro c hc
    refine (h.agrees c hc).update fun e he => (hnew e he).imp id ?_
    rintro rfl hptr
    exact (hmem hc hptr.symm).symm
  · exact fun c hc => hlisted c (List.mem_append_right _ hc) (h.listed c hc)
  · rw [hlock] at hfree
    cases hfree
  · exact hlisted c (List.mem_append_left _ hc)

/-! ## The little allocator -/

theorem littlePageAllocate_bytes (h : littlePageAllocate page a = some a') (x : ULong)
    (hx : a.bytes x = 0) : a'.bytes x = 0 := by
  obtain ⟨c, hc, rfl⟩ := Option.map_eq_some_iff.mp h
  obtain ⟨-, rfl⟩ := pageAllocate_eq hc
  exact memset_eq_zero (Or.inl hx)

variable {little big : List Block}

theorem getLittlePage_heap (h : Heap a little big) (hg : getLittlePage page a = some a') :
    Heap a' little big ∧ a'.books = a.books ∧ (a'.pages a'.littlePageActive).isSome ∧
      ∀ x, a.bytes x = 0 → a'.bytes x = 0 := by
  rcases h.getLittlePage_cases page with ⟨⟨lpi, hlpi⟩, hget⟩ | hget
  · obtain rfl := Option.some.inj (hget.symm.trans hg)
    exact ⟨h, rfl, Option.isSome_of_eq_some hlpi, fun _ hx => hx⟩
  · rw [hget] at hg
    obtain ⟨hheap, hbooks, -, hactive, hpage⟩ := h.littlePageAllocate hg
    rw [hactive]
    exact ⟨hheap, hbooks, Option.isSome_of_eq_some hpage, littlePageAllocate_bytes hg⟩

/-! ## One step of a call -/

theorem lock_eq {l : AllocLock} {pc₁ : AllocPc} (h : m.lock l pc₁ = some (m', pc')) :
    m.locks l = false ∧ m' = { m with locks := Function.update m.locks l true } ∧ pc' = pc₁ := by
  rw [AllocShared.lock] at h
  split at h
  · cases h
  next hfree =>
    obtain ⟨rfl, rfl⟩ := Prod.mk.inj (Option.some.inj h)
    exact ⟨Bool.eq_false_iff.mpr hfree, rfl, rfl⟩

theorem insertInline_fits (h : Fits m (.insertInline b) L B)
    (ha : m.access page (.insertInline b) = some (m', pc')) :
    Fits m' pc' L B ∧ Frame m m' (.insertInline b) L B := by
  obtain ⟨rfl, rfl⟩ := Prod.mk.inj (Option.some.inj ha)
  obtain ⟨hzero, hnone⟩ := h.ok
  have hne := (h.heap.range b List.mem_cons_self).ne_zero
  have hentries := entries_inline hne hnone
  refine h.book (List.mem_singleton_self b) rfl rfl rfl ?_ ?_ ?_ ⟨hzero, listed_update ?_⟩
  · rw [hentries]
    exact fun e he => (List.mem_cons.mp he).symm
  · rw [hentries]
    exact fun e he => Or.inl (List.mem_cons_of_mem b he)
  · refine List.Perm.append_left [] ?_
    rw [chained_update]
    exact (contents_keep (List.Perm.refl _)).symm
  · rw [hentries]
    exact List.mem_cons_self

theorem insertLink_fits (h : Fits m (.insertLink b n addr) L B)
    (ha : m.access page (.insertLink b n addr) = some (m', pc')) :
    Fits m' pc' L B ∧ Frame m m' (.insertLink b n addr) L B := by
  obtain ⟨rfl, rfl⟩ := Prod.mk.inj (Option.some.inj ha)
  obtain ⟨hzero, rfl⟩ := h.ok
  rw [List.take_length]
  have hentries := entries_append (m.alloc.books (bookIndex b.ptr)) ⟨addr, b.ptr, b.len⟩
  have hblocks := blocks_append (m.alloc.books (bookIndex b.ptr)) ⟨addr, b.ptr, b.len⟩
  refine h.book (List.mem_singleton_self b) rfl rfl rfl ?_ ?_ ?_ ⟨hzero, listed_update ?_⟩
  · rw [hentries]
    intro e he
    exact (List.mem_append.mp he).imp id List.mem_singleton.mp
  · rw [hentries]
    exact fun e he => Or.inl (List.mem_append_left _ he)
  · rw [chained_update]
    refine (contents_insert ?_).symm
    rw [hblocks]
    exact List.perm_append_singleton _ _
  · rw [hentries]
    exact List.mem_append_right _ (List.mem_singleton_self b)

theorem allocPage_fits {k : AllocCaller} (h : Fits m (.allocPage len k) L B)
    (ha : m.access page (.allocPage len k) = some (m', pc')) :
    Fits m' pc' L B ∧ Frame m m' (.allocPage len k) L B := by
  obtain ⟨a, hget, hret⟩ := Option.map_eq_some_iff.mp ha
  obtain ⟨rfl, rfl⟩ := Prod.mk.inj hret
  obtain ⟨hheap, hbooks, hsome, hbytes⟩ := getLittlePage_heap h.heap hget
  exact h.visit hbooks rfl hheap (fun c hc => h.agrees c (List.mem_append_left _ hc)) hbytes
    (fun hl => nomatch hl) ⟨AllocCaller.Ok.visit h.ok hbooks hbytes, rfl, hsome⟩

theorem allocRoom_fits {lpi : ULong} {k : AllocCaller} (h : Fits m (.allocRoom lpi len k) L B)
    (ha : m.access page (.allocRoom lpi len k) = some (m', pc')) :
    Fits m' pc' L B ∧ Frame m m' (.allocRoom lpi len k) L B := by
  obtain ⟨hk, rfl, -⟩ := h.ok
  obtain ⟨hd, hhd, ha⟩ := Option.bind_eq_some_iff.mp ha
  split at ha
  next hroom =>
    obtain ⟨a, hnew, ha⟩ := Option.bind_eq_some_iff.mp ha
    obtain ⟨c, hget, hret⟩ := Option.bind_eq_some_iff.mp ha
    obtain ⟨rfl, rfl⟩ := Prod.mk.inj (Option.some.inj hret)
    obtain ⟨hready, hpage, hfits⟩ := littlePageAllocate_ready h.heap hnew hk.bound.2
    obtain rfl := Option.some.inj (hready.symm.trans hget)
    obtain ⟨hheap, hbooks, -⟩ := h.heap.littlePageAllocate hnew
    have hbytes := littlePageAllocate_bytes hnew
    exact h.visit hbooks rfl hheap (fun c hc => h.agrees c (List.mem_append_left _ hc)) hbytes
      (fun hl => nomatch hl) ⟨hk.visit hbooks hbytes, rfl, _, hpage, Nat.le_of_not_lt hfits⟩
  next hroom =>
    obtain ⟨rfl, rfl⟩ := Prod.mk.inj (Option.some.inj ha)
    exact h.move rfl rfl rfl rfl ⟨hk, rfl, hd, hhd, Nat.le_of_not_lt hroom⟩

theorem allocCarve_fits {lpi : ULong} {k : AllocCaller} (h : Fits m (.allocCarve lpi len k) L B)
    (ha : m.access page (.allocCarve lpi len k) = some (m', pc')) :
    Fits m' pc' L B ∧ Frame m m' (.allocCarve lpi len k) L B := by
  obtain ⟨hk, rfl, hd, hhd, hroom⟩ := h.ok
  obtain ⟨hd', hhd', hret⟩ := Option.map_eq_some_iff.mp ha
  obtain rfl := Option.some.inj (hhd.symm.trans hhd')
  obtain ⟨rfl, rfl⟩ := Prod.mk.inj hret
  obtain ⟨hheap, -, hzero⟩ := h.heap.carve hhd hk.bound.1 hroom
  exact h.visit rfl rfl hheap (fun c hc => h.agrees c (List.mem_append_left _ hc))
    (fun _ hx => hx) (fun hl => nomatch hl) ⟨hk.visit rfl fun _ hx => hx, hzero⟩

theorem allocUnlock_fits {k : AllocCaller} (h : Fits m (.allocUnlock c k) L B)
    (ha : m.access page (.allocUnlock c k) = some (m', pc')) :
    Fits m' pc' L B ∧ Frame m m' (.allocUnlock c k) L B := by
  obtain ⟨hk, hzero⟩ := h.ok
  cases k with
  | yalloc =>
    obtain ⟨rfl, rfl⟩ := Prod.mk.inj (Option.some.inj ha)
    exact h.handOut rfl rfl rfl rfl trivial (Or.inl ⟨hk.2, rfl, rfl⟩)
  | insert b n =>
    obtain ⟨rfl, rfl⟩ := Prod.mk.inj (Option.some.inj ha)
    obtain ⟨hlen, hb, hend⟩ := hk
    refine h.move rfl rfl ?_ rfl ⟨hb, hend⟩
    rw [AllocPc.little, AllocPc.little, ← hlen]

theorem eatFind_fits (h : Fits m (.eatFind b) L B)
    (ha : m.access page (.eatFind b) = some (m', pc')) :
    Fits m' pc' L B ∧ Frame m m' (.eatFind b) L B := by
  have hagrees := h.agrees b List.mem_cons_self
  simp only [AllocShared.access] at ha
  split at ha
  next hinline =>
    obtain ⟨rfl, rfl⟩ := Prod.mk.inj (Option.some.inj ha)
    have hne : (m.alloc.books (bookIndex b.ptr)).lptr ≠ 0 := by
      rw [hinline]
      exact (h.heap.range b List.mem_cons_self).ne_zero
    refine h.move rfl rfl rfl rfl (hagrees ⟨_, _⟩ ?_ hinline)
    rw [Bucket.entries, if_neg hne]
    exact List.mem_cons_self
  next =>
    obtain ⟨r, hr, hret⟩ := Option.map_eq_some_iff.mp ha
    obtain ⟨rfl, rfl⟩ := Prod.mk.inj hret
    refine h.move rfl rfl rfl rfl ⟨hr, ?_⟩
    obtain ⟨hn, rfl⟩ := List.getElem?_eq_some_iff.mp hr
    simpa using List.findIdx_getElem (w := hn)

theorem eatUnlink_fits {r : BigallocBook} (h : Fits m (.eatUnlink b n r) L B)
    (ha : m.access page (.eatUnlink b n r) = some (m', pc')) :
    Fits m' pc' L B ∧ Frame m m' (.eatUnlink b n r) L B := by
  obtain ⟨rfl, rfl⟩ := Prod.mk.inj (Option.some.inj ha)
  obtain ⟨hr, hptr⟩ := h.ok
  obtain ⟨hentries, hblocks⟩ := unlink_perm hr
  have hmem := hentries.mem_iff.mpr List.mem_cons_self
  refine h.book (List.mem_singleton_self b) rfl rfl rfl ?_ ?_ ?_
    (h.agrees b List.mem_cons_self _ hmem hptr)
  · exact fun e he => Or.inl (hentries.mem_iff.mpr (List.mem_cons_of_mem _ he))
  · intro e he
    rcases List.mem_cons.mp (hentries.mem_iff.mp he) with rfl | he
    · exact Or.inr hptr
    · exact Or.inl he
  · rw [chained_update]
    exact contents_remove hblocks

theorem freeDrop_fits {k : FreeCaller} (h : Fits m (.freeDrop c k) L B)
    (ha : m.access page (.freeDrop c k) = some (m', pc')) :
    Fits m' pc' L B ∧ Frame m m' (.freeDrop c k) L B := by
  obtain ⟨hd, hhd, hret⟩ := Option.map_eq_some_iff.mp ha
  obtain ⟨rfl, rfl⟩ := Prod.mk.inj hret
  have hheap := h.heap.freeOn (h.heap.page _ hd hhd).free fun _ hx => hx
  have hagrees : ∀ c ∈ k.big, Agrees m.alloc c :=
    fun c hc => h.agrees c (List.mem_append_left _ hc)
  split
  next hlast =>
    exact h.visit rfl rfl hheap hagrees (fun _ hx => hx) (fun hl => nomatch hl)
      ⟨h.ok, _, Function.update_self .., hlast⟩
  next => exact h.visit rfl rfl hheap hagrees (fun _ hx => hx) (fun hl => nomatch hl) h.ok

theorem freeEmpty_fits {lpi : ULong} {k : FreeCaller} (h : Fits m (.freeEmpty lpi k) L B)
    (ha : m.access page (.freeEmpty lpi k) = some (m', pc')) :
    Fits m' pc' L B ∧ Frame m m' (.freeEmpty lpi k) L B := by
  obtain ⟨hk, hd, hhd, hlast⟩ := h.ok
  have hagrees : ∀ c ∈ k.big, Agrees m.alloc c :=
    fun c hc => h.agrees c (List.mem_append_left _ hc)
  simp only [AllocShared.access] at ha
  split at ha
  next hact =>
    obtain ⟨rfl, rfl⟩ := Prod.mk.inj (Option.some.inj ha)
    exact h.visit rfl rfl (h.heap.wipe hhd hlast) hagrees
      (fun _ hx => memset_eq_zero (Or.inl hx)) (fun hl => nomatch hl) hk
  next hact =>
    obtain ⟨a, hunmap, hret⟩ := Option.map_eq_some_iff.mp ha
    obtain ⟨rfl, rfl⟩ := Prod.mk.inj hret
    have hheap := h.heap.unmapEmpty hhd hlast hact hunmap
    rw [pageDeallocate_unmaps hunmap] at hheap ⊢
    exact h.visit rfl rfl hheap hagrees (fun _ hx => hx) (fun hl => nomatch hl) hk

theorem unmap_fits (h : Fits m (.unmap b len) L B)
    (ha : m.access page (.unmap b len) = some (m', pc')) :
    Fits m' pc' L B ∧ Frame m m' (.unmap b len) L B := by
  obtain ⟨a, hunmap, hret⟩ := Option.map_eq_some_iff.mp ha
  obtain ⟨rfl, rfl⟩ := Prod.mk.inj hret
  obtain rfl : len = b.len := h.ok
  obtain ⟨d, hd, hheap, hbooks, -⟩ := h.heap.pageDeallocate
  obtain rfl := Option.some.inj (hd.symm.trans hunmap)
  have heq := pageDeallocate_unmaps hunmap
  refine h.visit hbooks rfl hheap (fun _ hc => nomatch hc) (fun x hx => ?_) (fun _ => ⟨?_, ?_⟩)
    trivial
  · rwa [heq]
  · exact (h.heap.range b List.mem_cons_self).pages_kept hunmap
  · rw [heq]

/-- A step of a call keeps what the thread and the others have. -/
theorem access_fits (h : Fits m pc L B) (ha : m.access page pc = some (m', pc')) :
    Fits m' pc' L B ∧ Frame m m' pc L B := by
  cases pc with
  | idle => cases ha
  | insertLock b | allocLock len k | eatLock b | freeLock c k =>
    obtain ⟨-, rfl, rfl⟩ := lock_eq ha
    exact h.move rfl rfl rfl rfl h.ok
  | insertHead b =>
    obtain ⟨rfl, rfl⟩ := Prod.mk.inj (Option.some.inj ha)
    split
    next hnone => exact h.move rfl rfl rfl rfl ⟨h.ok, hnone⟩
    next => exact h.move rfl rfl rfl rfl ⟨rfl, h.ok, rfl⟩
  | insertInline b => exact insertInline_fits h ha
  | insertLink b n addr => exact insertLink_fits h ha
  | insertUnlock b =>
    obtain ⟨rfl, rfl⟩ := Prod.mk.inj (Option.some.inj ha)
    exact h.handOut rfl rfl rfl rfl trivial (Or.inr ⟨h.ok.2, rfl, rfl⟩)
  | allocPage len k => exact allocPage_fits h ha
  | allocRoom lpi len k => exact allocRoom_fits h ha
  | allocCarve lpi len k => exact allocCarve_fits h ha
  | allocUnlock c k => exact allocUnlock_fits h ha
  | eatFind b => exact eatFind_fits h ha
  | eatUnlink b n r => exact eatUnlink_fits h ha
  | eatUnlock b len =>
    obtain ⟨rfl, rfl⟩ := Prod.mk.inj (Option.some.inj ha)
    exact h.move rfl rfl rfl rfl h.ok
  | freeDrop c k => exact freeDrop_fits h ha
  | freeEmpty lpi k => exact freeEmpty_fits h ha
  | freeUnlock k =>
    obtain ⟨rfl, rfl⟩ := Prod.mk.inj (Option.some.inj ha)
    cases k with
    | yfree => exact h.move rfl rfl rfl rfl trivial
    | eat b len => exact h.move rfl rfl rfl rfl h.ok
  | unmap b len => exact unmap_fits h ha

/-! ## Calls and writes -/

theorem yalloc_fits (h : Fits m .idle L B) (hreg : (AllocAct.yalloc len addr).Regular m.alloc)
    (ha : m.act .idle (.yalloc len addr) = some (m', pc')) :
    Fits m' pc' L B ∧ Frame m m' .idle L B := by
  simp only [AllocShared.act] at ha
  split at ha
  next hbig =>
    obtain ⟨a, hp, hret⟩ := Option.map_eq_some_iff.mp ha
    obtain ⟨rfl, rfl⟩ := Prod.mk.inj hret
    have hheap := h.heap.pageAllocate hp
    obtain ⟨-, rfl⟩ := pageAllocate_eq hp
    refine h.visit rfl rfl hheap (fun c hc => ?_) (fun _ hx => memset_eq_zero (Or.inl hx))
      (fun _ => ⟨rfl, rfl⟩) fun x hx => memset_eq_zero (Or.inr (sub_lt_of_mem hx.1 hx.2))
    obtain rfl := List.mem_singleton.mp hc
    exact hreg.2 hbig
  next hsmall =>
    obtain ⟨rfl, rfl⟩ := Prod.mk.inj (Option.some.inj ha)
    exact h.move rfl rfl rfl rfl ⟨hreg.1, Nat.le_of_not_lt hsmall⟩

theorem find_erase_perm {live : List Block} (h : live.find? (·.ptr = ptr) = some b) :
    b ∈ live ∧ b.ptr = ptr ∧ live.Perm (b :: live.eraseP (·.ptr = ptr)) := by
  obtain ⟨hb, pre, post, hlive, hpre⟩ := List.find?_eq_some_iff_append.mp h
  refine ⟨List.mem_of_find?_eq_some h, by simpa using hb, ?_⟩
  have herase : live.eraseP (·.ptr = ptr) = pre ++ post := by
    rw [hlive, List.eraseP_append_right _ fun c hc => by simpa using hpre c hc,
      List.eraseP_cons_of_pos (p := fun x : Block => x.ptr = ptr) hb]
  rw [herase, hlive]
  exact List.perm_middle

theorem yfree_fits (h : Fits m .idle L B)
    (ha : m.act .idle (.yfree ptr) = some (m', pc')) :
    Fits m' pc' L B ∧ Frame m m' .idle L B := by
  obtain ⟨b, hfind, hret⟩ := Option.map_eq_some_iff.mp ha
  obtain ⟨rfl, rfl⟩ := Prod.mk.inj hret
  obtain ⟨hb, rfl, hperm⟩ := find_erase_perm hfind
  refine ⟨?_, ⟨fun _ => ⟨rfl, rfl⟩, fun _ => rfl, fun _ _ => id, fun _ _ => id⟩⟩
  have hsmalls : (smalls m.live).Perm (smalls (b :: m.live.eraseP (·.ptr = b.ptr))) :=
    hperm.filter _
  have hranges : (ranges m.live).Perm (ranges (b :: m.live.eraseP (·.ptr = b.ptr))) :=
    hperm.filter _
  -- the address tells whether the block has whole pages
  rcases Nat.lt_or_ge 2048 b.len.toNat with hlen | hlen
  · have hr := h.heap.range b (List.mem_append_right _
      (List.mem_append_right _ (List.mem_filter.mpr ⟨hb, by simpa using hlen⟩)))
    have haligned : ¬ b.ptr % bigPageThreshold ≠ 0 :=
      not_not_intro (BitVec.eq_of_toNat_eq hr.aligned)
    obtain ⟨hs, hr⟩ := ranges_cons (m.live.eraseP (·.ptr = b.ptr)) hlen
    rw [hs] at hsmalls
    rw [hr] at hranges
    rw [if_neg haligned]
    refine ⟨h.heap.perm ((hsmalls.append_right _).append_left L) ?_, fun c hc => ?_,
      fun c hc => ?_, h.listed b (hranges.mem_iff.mpr List.mem_cons_self)⟩
    · exact (hranges.append_left B).trans List.perm_middle
    · exact h.agrees c (((hranges.append_left B).trans List.perm_middle).mem_iff.mpr hc)
    · exact h.listed c (hranges.mem_iff.mpr (List.mem_cons_of_mem b hc))
  · have hon := h.heap.onPage (b := b) (List.mem_append_right _ (List.mem_append_right _
      (List.mem_append_left _ (List.mem_filter.mpr ⟨hb, by simpa using hlen⟩))))
    have hoff : b.ptr % bigPageThreshold ≠ 0 := by
      intro h0
      have hmod : b.ptr.toNat % 4096 = 0 := congrArg BitVec.toNat h0
      have hheader := hon.header
      omega
    obtain ⟨hs, hr⟩ := smalls_cons (m.live.eraseP (·.ptr = b.ptr)) hlen
    rw [hs] at hsmalls
    rw [hr] at hranges
    rw [if_pos hoff]
    refine ⟨h.heap.perm ?_ (hranges.append_left B), fun c hc => ?_, fun c hc => ?_, trivial⟩
    · exact ((hsmalls.append_right _).append_left L).trans List.perm_middle
    · exact h.agrees c ((hranges.append_left B).mem_iff.mpr hc)
    · exact h.listed c (hranges.mem_iff.mpr hc)

/-- What callers have is apart from what the other threads have. -/
theorem Fits.live_apart (h : Fits m .idle L B) (hb : b ∈ m.live) (hc : c ∈ L ++ B) :
    b.Apart c := by
  have hheap : Heap m.alloc (L ++ (smalls m.live ++ chained m.alloc.books))
    (B ++ ranges m.live) := h.heap
  have hlittles := (List.pairwise_append.mp hheap.apart).2.2
  have hbigs := (List.pairwise_append.mp hheap.rangesApart).2.2
  rcases List.mem_append.mp hc with hc | hc <;> rcases mem_parts hb with hb | hb
  · exact (hlittles c hc b (List.mem_append_left _ hb)).symm
  · refine (hheap.little_big_apart (List.mem_append_left _ hc) ?_).symm
    exact List.mem_append_right B hb
  · refine hheap.little_big_apart ?_ (List.mem_append_left _ hc)
    exact List.mem_append_right L (List.mem_append_left _ hb)
  · have hcr := hheap.range c (List.mem_append_left _ hc)
    exact (hcr.apart (hheap.range b (List.mem_append_right B hb)) (hbigs c hc b hb)).symm

theorem write_fits {x : ULong} {v : BitVec 8} (h : Fits m .idle L B)
    (ha : m.act .idle (.write x v) = some (m', pc')) :
    Fits m' pc' L B ∧ Frame m m' .idle L B := by
  simp only [AllocShared.act] at ha
  split at ha
  next hlive =>
    obtain ⟨rfl, rfl⟩ := Prod.mk.inj (Option.some.inj ha)
    obtain ⟨b, hb, hx⟩ := hlive
    have hparts := mem_parts hb
    refine ⟨⟨h.heap.write v ?_, h.agrees, h.listed, trivial⟩,
      ⟨fun _ => ⟨rfl, rfl⟩, fun _ => rfl, fun _ _ => id, fun c hc hzero => ?_⟩⟩
    · refine hparts.imp (fun hb => ⟨b, ?_, hx⟩) fun hb => ⟨b, ?_, hx⟩
      · exact List.mem_append_right L (List.mem_append_left _ hb)
      · exact List.mem_append_right B hb
    · exact zero_write hzero hx (h.live_apart hb hc)
  next => cases ha

theorem act_fits {act : AllocAct} (h : Fits m pc L B) (hreg : act.Regular m.alloc)
    (ha : m.act pc act = some (m', pc')) : Fits m' pc' L B ∧ Frame m m' pc L B := by
  cases act with
  | go page =>
    have hgo : m.access page pc = some (m', pc') := by
      cases pc <;> exact ha
    exact access_fits h hgo
  | yalloc len addr =>
    cases pc with
    | idle => exact yalloc_fits h hreg ha
    | _ => cases ha
  | yfree ptr =>
    cases pc with
    | idle => exact yfree_fits h ha
    | _ => cases ha
  | write x v =>
    cases pc with
    | idle => exact write_fits h ha
    | _ => cases ha

end AllocShared

end Yarns
