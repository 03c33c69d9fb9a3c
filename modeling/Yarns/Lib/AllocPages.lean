import Yarns.Lib.AllocRuns

/-!
# The life of a little page

A log of the calls of `page_allocate` and `page_deallocate` that `yalloc` and `yfree` of
small blocks make, beside the allocator (`Lifetime`). An abandoned page is given back by
the free of its last block, so none may be abandoned while it is empty: a page with nothing
on it has the header of a new page, and such a page has room for every small request. So
each held page but the active one has a block on it, and the log balances
(`small_pages`).
-/

namespace Yarns

open Base

namespace Alloc

/-- The calls for little pages. -/
inductive PageCall where
  | allocate (page : ULong)
  | deallocate (page : ULong)
  deriving DecidableEq

/-- The allocator with the calls so far. -/
abbrev Logged := Alloc × List PageCall

/-! ## The little allocator with its log -/

def loggedPageAllocate (page : ULong) (s : Logged) : Option Logged :=
  (littlePageAllocate page s.1).map fun a => (a, s.2 ++ [.allocate page])

def loggedGetPage (page : ULong) (s : Logged) : Option Logged := do
  let s ← if s.1.littlePageActive = 0 then loggedPageAllocate page s else some s
  let lpi ← s.1.pages s.1.littlePageActive
  if lpi.nextbase = 0 then loggedPageAllocate page s else some s

def loggedAlloc (len page : ULong) (s : Logged) : Option (ULong × Logged) := do
  let s ← loggedGetPage page s
  let lpi ← s.1.pages s.1.littlePageActive
  let s ← if lpi.remainingLen < len then
      (loggedPageAllocate page s).bind (loggedGetPage page)
    else
      some s
  let lpi ← s.1.pages s.1.littlePageActive
  let (ptr, a) := carve lpi len s.1
  some (ptr, a, s.2)

def loggedFree (ptr : ULong) (s : Logged) : Option Logged := do
  let lptr := pageOf ptr
  let lpi ← s.1.pages lptr
  if lpi.nalloc - 1 = 0 then
    if lptr = s.1.littlePageActive then
      some ({ s.1 with
        pages := Function.update s.1.pages lptr (some (emptyPage lptr))
        bytes := memset (lptr + headerSize) (littlePagesSize - headerSize) s.1.bytes }, s.2)
    else
      (pageDeallocate lptr littlePagesSize s.1).map fun a => (a, s.2 ++ [.deallocate lptr])
  else
    some ({ s.1 with
      pages := Function.update s.1.pages lptr (some { lpi with nalloc := lpi.nalloc - 1 }) }, s.2)

variable {a a' : Alloc} {little big live : List Block} {b : Block} {p ptr len addr page : ULong}
  {calls : List PageCall} {s : Logged}

/-! ## Without the log -/

/-- Two computations that agree without the log go on in the same way. -/
theorem forget_bind {α β : Type} {x : Option Logged} {y : Option Alloc} {f : Logged → Option α}
    {g : Alloc → Option β} {k : α → β} (hx : x.map Prod.fst = y)
    (hf : ∀ s : Logged, (f s).map k = g s.1) : (x.bind f).map k = y.bind g := by
  subst hx
  cases x with
  | none => rfl
  | some s => exact hf s

theorem loggedPageAllocate_fst (page : ULong) (s : Logged) :
    (loggedPageAllocate page s).map Prod.fst = littlePageAllocate page s.1 := by
  rw [loggedPageAllocate, Option.map_map]
  exact Option.map_id' ..

theorem loggedGetPage_fst (page : ULong) (s : Logged) :
    (loggedGetPage page s).map Prod.fst = getLittlePage page s.1 := by
  have hrest (s : Logged) : ((s.1.pages s.1.littlePageActive).bind fun lpi =>
      if lpi.nextbase = 0 then loggedPageAllocate page s else some s).map Prod.fst =
      (s.1.pages s.1.littlePageActive).bind fun lpi =>
        if lpi.nextbase = 0 then littlePageAllocate page s.1 else some s.1 := by
    cases s.1.pages s.1.littlePageActive with
    | none => rfl
    | some lpi =>
      simp only [Option.bind_some]
      split
      · exact loggedPageAllocate_fst ..
      · rfl
  simp only [loggedGetPage, getLittlePage, Option.bind_eq_bind]
  split
  · exact forget_bind (loggedPageAllocate_fst ..) hrest
  · exact hrest s

theorem loggedAlloc_fst (len page : ULong) (s : Logged) :
    (loggedAlloc len page s).map (fun r => (r.1, r.2.1)) = littleAlloc len page s.1 := by
  have hcarve (s : Logged) : ((s.1.pages s.1.littlePageActive).bind fun lpi =>
      some ((carve lpi len s.1).1, (carve lpi len s.1).2, s.2)).map (fun r => (r.1, r.2.1)) =
      (s.1.pages s.1.littlePageActive).bind fun lpi => some (carve lpi len s.1) := by
    cases s.1.pages s.1.littlePageActive with
    | none => rfl
    | some lpi => rfl
  simp only [loggedAlloc, littleAlloc, Option.bind_eq_bind]
  refine forget_bind (loggedGetPage_fst ..) fun s => ?_
  cases s.1.pages s.1.littlePageActive with
  | none => rfl
  | some lpi =>
    simp only [Option.bind_some]
    split
    · exact forget_bind (forget_bind (loggedPageAllocate_fst ..) fun s =>
        loggedGetPage_fst page s) hcarve
    · exact hcarve s

theorem loggedFree_fst (ptr : ULong) (s : Logged) :
    (loggedFree ptr s).map Prod.fst = littleFree ptr s.1 := by
  simp only [loggedFree, littleFree, Option.bind_eq_bind]
  cases s.1.pages (pageOf ptr) with
  | none => rfl
  | some lpi =>
    simp only [Option.bind_some]
    split
    · split
      · rfl
      · rw [Option.map_map]
        exact Option.map_id' ..
    · rfl

/-! ## A request -/

/-- The active page, if there is one, is not a page with nothing on it. -/
def Exhausted (a : Alloc) : Prop :=
  ∀ hd, a.pages a.littlePageActive = some hd → hd ≠ emptyPage a.littlePageActive

/-- A new page is ready. -/
theorem loggedGetPage_new (h : Heap a live big) (hp : littlePageAllocate page a = some a')
    (calls : List PageCall) : loggedGetPage page (a', calls) = some (a', calls) := by
  obtain ⟨hheap, -, -, hactive, hpages⟩ := h.littlePageAllocate hp
  have hl := hheap.page page _ hpages
  have hnext := emptyPage_nextbase_ne_zero hl.aligned
  simp only [loggedGetPage, hactive, if_neg hl.ne_zero, hpages, if_neg hnext, Option.bind_eq_bind,
    Option.bind_some]

theorem loggedGetPage_cases (h : Heap a live big) (calls : List PageCall) (page : ULong) :
    (∃ lpi, a.pages a.littlePageActive = some lpi ∧
      loggedGetPage page (a, calls) = some (a, calls)) ∨
    Exhausted a ∧ loggedGetPage page (a, calls) = loggedPageAllocate page (a, calls) := by
  by_cases h0 : a.littlePageActive = 0
  · refine .inr ⟨fun hd hhd => absurd h0 (h.page _ hd hhd).ne_zero, ?_⟩
    simp only [loggedGetPage, if_pos h0, Option.bind_eq_bind, loggedPageAllocate]
    cases hb : littlePageAllocate page a with
    | none => rfl
    | some b =>
      obtain ⟨hheap, -, -, hactive, hpages⟩ := h.littlePageAllocate hb
      have hne := emptyPage_nextbase_ne_zero (hheap.page page _ hpages).aligned
      simp only [Option.map_some, Option.bind_some, hactive, hpages, if_neg hne]
  · obtain ⟨lpi, hlpi⟩ := Option.isSome_iff_exists.mp (h.active.resolve_left h0)
    simp only [loggedGetPage, if_neg h0, hlpi, Option.bind_eq_bind, Option.bind_some]
    split
    next hnext =>
      refine .inr ⟨fun hd hhd heq => ?_, rfl⟩
      obtain rfl := Option.some.inj (hlpi.symm.trans hhd)
      rw [heq] at hnext
      exact emptyPage_nextbase_ne_zero (h.page _ lpi hlpi).aligned hnext
    next => exact .inl ⟨lpi, rfl, rfl⟩

/-- A request is carved from the active page, or from a new one in the place of a page that
has something on it. -/
theorem loggedAlloc_eq (h : Heap a live big) (hlen : len.toNat ≤ 4072) (calls : List PageCall)
    (page : ULong) :
    (∃ lpi, a.pages a.littlePageActive = some lpi ∧ len.toNat ≤ lpi.remainingLen.toNat ∧
      loggedAlloc len page (a, calls) = some (lpi.nextbase, (carve lpi len a).2, calls)) ∨
    Exhausted a ∧ loggedAlloc len page (a, calls) = (littlePageAllocate page a).map fun a =>
      ((emptyPage page).nextbase, (carve (emptyPage page) len a).2, calls ++ [.allocate page]) := by
  rcases loggedGetPage_cases h calls page with ⟨lpi, hlpi, hget⟩ | ⟨hex, hget⟩
  · by_cases hroom : lpi.remainingLen < len
    · refine .inr ⟨fun hd hhd heq => ?_, ?_⟩
      · obtain rfl := Option.some.inj (hlpi.symm.trans hhd)
        rw [heq, BitVec.lt_def, emptyPage_remainingLen_toNat] at hroom
        omega
      · simp only [loggedAlloc, hget, hlpi, if_pos hroom, Option.bind_eq_bind, Option.bind_some,
          loggedPageAllocate]
        cases hb : littlePageAllocate page a with
        | none => rfl
        | some b =>
          obtain ⟨-, hpages, -⟩ := littlePageAllocate_ready h hb hlen
          simp only [Option.map_some, Option.bind_some, loggedGetPage_new h hb, hpages]
          rfl
    · refine .inl ⟨lpi, hlpi, Nat.le_of_not_lt hroom, ?_⟩
      simp only [loggedAlloc, hget, hlpi, if_neg hroom, Option.bind_eq_bind, Option.bind_some]
      rfl
  · refine .inr ⟨hex, ?_⟩
    simp only [loggedAlloc, hget, Option.bind_eq_bind, loggedPageAllocate]
    cases hb : littlePageAllocate page a with
    | none => rfl
    | some b =>
      obtain ⟨-, hpages, hroom⟩ := littlePageAllocate_ready h hb hlen
      simp only [Option.map_some, Option.bind_some, hpages, if_neg hroom]
      rfl

/-! ## What every page has on it -/

/-- A page that is not active has a block on it, and an active page without one has the
header of a new page. All that is mapped is little pages. -/
structure Inhabited (a : Alloc) (live : List Block) : Prop where
  heap : Heap a live []
  abandoned : ∀ p, (a.pages p).isSome → p ≠ a.littlePageActive → ∃ b ∈ live, pageOf b.ptr = p
  active : ∀ hd, a.pages a.littlePageActive = some hd →
    hd = emptyPage a.littlePageActive ∨ ∃ b ∈ live, pageOf b.ptr = a.littlePageActive
  held : ∀ k, a.mapped k = true → ∃ p, (a.pages p).isSome ∧ p.toNat / 4096 = k

/-- Each page was taken as often as given back, and once more if it is held. -/
def Balanced (a : Alloc) (calls : List PageCall) : Prop :=
  ∀ p, calls.count (.allocate p) =
    calls.count (.deallocate p) + if (a.pages p).isSome then 1 else 0

theorem Inhabited.perm {live' : List Block} (h : Inhabited a live) (hperm : live.Perm live') :
    Inhabited a live' where
  heap := h.heap.perm hperm (List.Perm.refl _)
  abandoned := fun p hp hne => by
    obtain ⟨b, hb, hpage⟩ := h.abandoned p hp hne
    exact ⟨b, hperm.mem_iff.mp hb, hpage⟩
  active := fun hd hhd => (h.active hd hhd).imp id fun ⟨b, hb, hpage⟩ =>
    ⟨b, hperm.mem_iff.mp hb, hpage⟩
  held := h.held

/-- The same pages are held. -/
theorem Balanced.congr (h : Balanced a calls)
    (hpages : ∀ p, (a'.pages p).isSome = (a.pages p).isSome) : Balanced a' calls := by
  intro p
  rw [hpages p]
  exact h p

theorem isSome_update {pages : ULong → Option LittlePageInfo} {hd : LittlePageInfo}
    (h : (pages p).isSome) (q : ULong) :
    (Function.update pages p (some hd) q).isSome = (pages q).isSome := by
  by_cases hq : q = p
  · rw [hq, Function.update_self, h]
    rfl
  · rw [Function.update_of_ne hq]

/-- A block is carved from the active page. -/
theorem Inhabited.carve {lpi : LittlePageInfo} (h : Inhabited a live)
    (hlpi : a.pages a.littlePageActive = some lpi) (hpos : 0 < len.toNat)
    (hlen : len.toNat ≤ lpi.remainingLen.toNat) :
    Inhabited (carve lpi len a).2 (⟨lpi.nextbase, len⟩ :: live) := by
  obtain ⟨hheap, hpage, -⟩ := h.heap.carve hlpi hpos hlen
  have hsome (q : ULong) : ((Alloc.carve lpi len a).2.pages q).isSome = (a.pages q).isSome :=
    isSome_update (Option.isSome_of_eq_some hlpi) q
  refine ⟨hheap, fun p hp hne => ?_, fun hd hhd => ?_, fun k hk => ?_⟩
  · rw [hsome] at hp
    obtain ⟨b, hb, hbp⟩ := h.abandoned p hp hne
    exact ⟨b, List.mem_cons_of_mem _ hb, hbp⟩
  · exact .inr ⟨⟨lpi.nextbase, len⟩, List.mem_cons_self, hpage⟩
  · obtain ⟨p, hp, hpk⟩ := h.held k hk
    exact ⟨p, (hsome p).trans hp, hpk⟩

theorem littlePageAllocate_eq (hp : littlePageAllocate page a = some a') :
    a.Fresh page littlePagesSize ∧ a'.littlePageActive = page ∧
      a'.pages = Function.update a.pages page (some (emptyPage page)) ∧
      ∀ k, a'.mapped k = (decide (InRange page littlePagesSize k) || a.mapped k) := by
  obtain ⟨c, hc, rfl⟩ := Option.map_eq_some_iff.mp hp
  obtain ⟨⟨-, hfresh⟩, rfl⟩ := pageAllocate_eq hc
  exact ⟨hfresh, rfl, rfl, fun _ => rfl⟩

/-- A new page in the place of one that has something on it. -/
theorem Inhabited.newPage (h : Inhabited a live) (hex : Exhausted a)
    (hp : littlePageAllocate page a = some a') : Inhabited a' live := by
  obtain ⟨hfresh, hactive, hpages, hmapped⟩ := littlePageAllocate_eq hp
  obtain ⟨hheap, -⟩ := h.heap.littlePageAllocate hp
  refine ⟨hheap, fun p hsome hne => ?_, fun hd hhd => .inl ?_, fun k hk => ?_⟩
  · rw [hactive] at hne
    rw [hpages, Function.update_of_ne hne] at hsome
    by_cases hact : p = a.littlePageActive
    · obtain ⟨hd, hhd⟩ := Option.isSome_iff_exists.mp hsome
      rw [hact] at hhd ⊢
      exact (h.active hd hhd).resolve_left (hex hd hhd)
    · exact h.abandoned p hsome hact
  · rw [hpages, hactive, Function.update_self] at hhd
    rw [hactive]
    exact (Option.some.inj hhd).symm
  · by_cases hkp : k = page.toNat / 4096
    · exact ⟨page, by rw [hpages, Function.update_self]; rfl, hkp.symm⟩
    · rw [hmapped, decide_eq_false (fun hin => hkp (inRange_page.mp hin)), Bool.false_or] at hk
      obtain ⟨p, hsome, hpk⟩ := h.held k hk
      refine ⟨p, ?_, hpk⟩
      have hne : p ≠ page := fun hpp => hkp (by rw [← hpk, hpp])
      rwa [hpages, Function.update_of_ne hne]

theorem Balanced.newPage (hb : Balanced a calls) (h : Inhabited a live)
    (hp : littlePageAllocate page a = some a') : Balanced a' (calls ++ [.allocate page]) := by
  obtain ⟨hfresh, -, hpages, -⟩ := littlePageAllocate_eq hp
  have hnone := h.heap.not_held hfresh
  intro p
  rw [List.count_append, List.count_append, hb p, hpages]
  by_cases hpp : p = page
  · subst hpp
    rw [Function.update_self, hnone]
    simp
  · rw [Function.update_of_ne hpp]
    have hother : (PageCall.allocate page) ≠ .allocate p := fun heq =>
      hpp (PageCall.allocate.inj heq).symm
    simp [hother]

/-- A request keeps every page inhabited and the log balanced, and gives no page back. -/
theorem Inhabited.alloc {calls' : List PageCall} (h : Inhabited a live) (hb : Balanced a calls)
    (hpos : 0 < len.toNat) (hlen : len.toNat ≤ 4072)
    (hal : loggedAlloc len page (a, calls) = some (ptr, a', calls')) :
    Inhabited a' (⟨ptr, len⟩ :: live) ∧ Balanced a' calls' ∧
      ∃ new, calls' = calls ++ new ∧ ∀ p, PageCall.deallocate p ∉ new := by
  rcases loggedAlloc_eq h.heap hlen calls page with ⟨lpi, hlpi, hroom, heq⟩ | ⟨hex, heq⟩
  · obtain ⟨rfl, hrest⟩ := Prod.mk.inj (Option.some.inj (heq.symm.trans hal))
    obtain ⟨rfl, rfl⟩ := Prod.mk.inj hrest
    refine ⟨h.carve hlpi hpos hroom, hb.congr fun p => ?_, [], (List.append_nil _).symm, by simp⟩
    exact isSome_update (Option.isSome_of_eq_some hlpi) p
  · rw [heq] at hal
    obtain ⟨b, hb', hcarve⟩ := Option.map_eq_some_iff.mp hal
    obtain ⟨rfl, hrest⟩ := Prod.mk.inj hcarve
    obtain ⟨rfl, rfl⟩ := Prod.mk.inj hrest
    obtain ⟨-, hactive, hpages, -⟩ := littlePageAllocate_eq hb'
    have hlpi : b.pages b.littlePageActive = some (emptyPage page) := by
      rw [hpages, hactive, Function.update_self]
    refine ⟨(h.newPage hex hb').carve hlpi hpos hlen, (hb.newPage h hb').congr fun p => ?_,
      [.allocate page], rfl, by simp⟩
    exact isSome_update (Option.isSome_of_eq_some hlpi) p

/-! ## A block that is given back -/

/-- The page was held, was not the active one, has no block on it, and is no longer held. -/
def Released (a a' : Alloc) (live : List Block) (p : ULong) : Prop :=
  (a.pages p).isSome ∧ p ≠ a.littlePageActive ∧ a'.pages p = none ∧
    ∀ b ∈ live, pageOf b.ptr ≠ p

/-- What giving back a block on the page `p` does, with the blocks `little` left: the header
counts the others on the page, or there are none and the active page is wiped, or another
one goes back to the system. -/
inductive GivesBack (a : Alloc) (calls : List PageCall) (little : List Block) (p : ULong) :
    Alloc → List PageCall → Prop
  | counts {hd : LittlePageInfo} : (∃ c ∈ little, pageOf c.ptr = p) →
    GivesBack a calls little p { a with pages := Function.update a.pages p (some hd) } calls
  | wipes {bytes : ULong → BitVec 8} : (∀ c ∈ little, pageOf c.ptr ≠ p) → p = a.littlePageActive →
    GivesBack a calls little p
      { a with pages := Function.update a.pages p (some (emptyPage p)), bytes } calls
  | releases {freed : Alloc} : (∀ c ∈ little, pageOf c.ptr ≠ p) → p ≠ a.littlePageActive →
    pageDeallocate p littlePagesSize a = some freed →
    GivesBack a calls little p freed (calls ++ [.deallocate p])

theorem loggedFree_givesBack (h : Heap a (b :: little) big)
    (hfree : loggedFree b.ptr (a, calls) = some s) :
    GivesBack a calls little (pageOf b.ptr) s.1 s.2 := by
  obtain ⟨hd, hhd, hl⟩ := h.header List.mem_cons_self
  have hcount := hl.nalloc_pred
  simp only [loggedFree, hhd, Option.bind_eq_bind, Option.bind_some] at hfree
  by_cases hlast : hd.nalloc - 1 = 0
  · have hnone : ∀ c ∈ little, pageOf c.ptr ≠ pageOf b.ptr := by
      rw [hlast] at hcount
      simpa using List.countP_eq_zero.mp hcount.symm
    rw [if_pos hlast] at hfree
    by_cases hact : pageOf b.ptr = a.littlePageActive
    · rw [if_pos hact] at hfree
      obtain rfl := Option.some.inj hfree
      exact .wipes hnone hact
    · rw [if_neg hact] at hfree
      obtain ⟨a', ha', rfl⟩ := Option.map_eq_some_iff.mp hfree
      exact .releases hnone hact ha'
  · rw [if_neg hlast] at hfree
    obtain rfl := Option.some.inj hfree
    refine .counts ?_
    have hpos : 0 < little.countP fun c => pageOf c.ptr = pageOf b.ptr := by
      rw [← hcount]
      bv_omega
    simpa using List.countP_pos_iff.mp hpos

theorem pageDeallocate_eq (h : Heap a little big) (hp : (a.pages p).isSome)
    (hdeal : pageDeallocate p littlePagesSize a = some a') :
    a'.littlePageActive = a.littlePageActive ∧ a'.pages = Function.update a.pages p none ∧
      ∀ k, a'.mapped k = (!decide (k = p.toNat / 4096) && a.mapped k) := by
  rw [pageDeallocate] at hdeal
  split at hdeal
  · obtain rfl := Option.some.inj hdeal
    refine ⟨rfl, funext fun q => ?_, fun k => ?_⟩
    · show (if InRange p littlePagesSize (q.toNat / 4096) then none else a.pages q) = _
      by_cases hq : (a.pages q).isSome
      · by_cases hqp : q = p
        · rw [if_pos ((h.inRange_iff hp hq).mpr hqp), hqp, Function.update_self]
        · rw [if_neg fun hin => hqp ((h.inRange_iff hp hq).mp hin), Function.update_of_ne hqp]
      · have hnone : a.pages q = none := Option.not_isSome_iff_eq_none.mp hq
        have hqp : q ≠ p := fun heq => hq (heq ▸ hp)
        rw [hnone, ite_self, Function.update_of_ne hqp, hnone]
    · show (!decide (InRange p littlePagesSize k) && a.mapped k) = _
      rw [decide_eq_decide.mpr inRange_page]
  · cases hdeal

/-- Pages on which `b` is not needed. -/
theorem Inhabited.abandoned_others (h : Inhabited a (b :: little)) (hp : (a.pages p).isSome)
    (hne : p ≠ a.littlePageActive)
    (hleft : p = pageOf b.ptr → ∃ c ∈ little, pageOf c.ptr = p) :
    ∃ c ∈ little, pageOf c.ptr = p := by
  obtain ⟨c, hc, hcp⟩ := h.abandoned p hp hne
  rcases List.mem_cons.mp hc with rfl | hc
  · exact hleft hcp.symm
  · exact ⟨c, hc, hcp⟩

theorem Inhabited.active_others {hd : LittlePageInfo} (h : Inhabited a (b :: little))
    (hhd : a.pages a.littlePageActive = some hd)
    (hne : a.littlePageActive ≠ pageOf b.ptr) :
    hd = emptyPage a.littlePageActive ∨ ∃ c ∈ little, pageOf c.ptr = a.littlePageActive := by
  refine (h.active hd hhd).imp id fun hblock => ?_
  obtain ⟨c, hc, hcp⟩ := hblock
  rcases List.mem_cons.mp hc with rfl | hc
  · exact absurd hcp.symm hne
  · exact ⟨c, hc, hcp⟩

/-- Other blocks are left on the page of `b`. -/
theorem Inhabited.counts {hd : LittlePageInfo} (h : Inhabited a (b :: little))
    (hleft : ∃ c ∈ little, pageOf c.ptr = pageOf b.ptr)
    (hheap : Heap { a with pages := Function.update a.pages (pageOf b.ptr) (some hd) } little []) :
    Inhabited { a with pages := Function.update a.pages (pageOf b.ptr) (some hd) } little := by
  have hsome (p : ULong) : (Function.update a.pages (pageOf b.ptr) (some hd) p).isSome =
      (a.pages p).isSome := isSome_update (h.heap.home b List.mem_cons_self) p
  refine ⟨hheap, fun p hp hne => ?_, fun hd hhd => ?_, fun k hk => ?_⟩
  · refine h.abandoned_others ((hsome p).symm.trans hp) hne fun heq => ?_
    rw [heq]
    exact hleft
  · dsimp only at hhd ⊢
    by_cases hact : a.littlePageActive = pageOf b.ptr
    · rw [hact]
      exact .inr hleft
    · rw [Function.update_of_ne hact] at hhd
      exact h.active_others hhd hact
  · obtain ⟨p, hp, hpk⟩ := h.held k hk
    exact ⟨p, (hsome p).trans hp, hpk⟩

/-- The page of `b` is active, and is wiped. -/
theorem Inhabited.wipes {bytes : ULong → BitVec 8} (h : Inhabited a (b :: little))
    (hact : pageOf b.ptr = a.littlePageActive)
    (hheap : Heap { a with
      pages := Function.update a.pages (pageOf b.ptr) (some (emptyPage (pageOf b.ptr))),
      bytes } little []) :
    Inhabited { a with
      pages := Function.update a.pages (pageOf b.ptr) (some (emptyPage (pageOf b.ptr))),
      bytes } little := by
  have hsome (p : ULong) :
      (Function.update a.pages (pageOf b.ptr) (some (emptyPage (pageOf b.ptr))) p).isSome =
        (a.pages p).isSome := isSome_update (h.heap.home b List.mem_cons_self) p
  refine ⟨hheap, fun p hp hne => ?_, fun hd hhd => .inl ?_, fun k hk => ?_⟩
  · refine h.abandoned_others ((hsome p).symm.trans hp) hne fun heq => ?_
    exact absurd (heq.trans hact) hne
  · dsimp only at hhd ⊢
    rw [← hact, Function.update_self] at hhd
    rw [← hact]
    exact (Option.some.inj hhd).symm
  · obtain ⟨p, hp, hpk⟩ := h.held k hk
    exact ⟨p, (hsome p).trans hp, hpk⟩

/-- The page of `b` is not active, and is unmapped. -/
theorem Inhabited.releases (h : Inhabited a (b :: little))
    (hact : pageOf b.ptr ≠ a.littlePageActive)
    (hdeal : pageDeallocate (pageOf b.ptr) littlePagesSize a = some a')
    (hheap : Heap a' little []) : Inhabited a' little := by
  obtain ⟨hactive, hpages, hmapped⟩ :=
    pageDeallocate_eq h.heap (h.heap.home b List.mem_cons_self) hdeal
  refine ⟨hheap, fun p hp hne => ?_, fun hd hhd => ?_, fun k hk => ?_⟩
  · rw [hpages] at hp
    rw [hactive] at hne
    by_cases hpb : p = pageOf b.ptr
    · rw [hpb, Function.update_self] at hp
      cases hp
    · rw [Function.update_of_ne hpb] at hp
      exact h.abandoned_others hp hne fun heq => absurd heq hpb
  · rw [hactive] at hhd ⊢
    rw [hpages, Function.update_of_ne hact.symm] at hhd
    exact h.active_others hhd hact.symm
  · rw [hmapped, Bool.and_eq_true, Bool.not_eq_true', decide_eq_false_iff_not] at hk
    obtain ⟨p, hp, hpk⟩ := h.held k hk.2
    have hne : p ≠ pageOf b.ptr := fun heq => hk.1 (by rw [← hpk, heq])
    exact ⟨p, by rwa [hpages, Function.update_of_ne hne], hpk⟩

/-- A held page goes back to the system. -/
theorem Balanced.release (hb : Balanced a calls) (hp : (a.pages p).isSome)
    (hpages : a'.pages = Function.update a.pages p none) :
    Balanced a' (calls ++ [.deallocate p]) := by
  intro q
  rw [List.count_append, List.count_append, hb q, hpages]
  by_cases hqp : q = p
  · subst hqp
    rw [Function.update_self, hp]
    simp
  · rw [Function.update_of_ne hqp]
    have hother : (PageCall.deallocate p) ≠ .deallocate q := fun heq =>
      hqp (PageCall.deallocate.inj heq).symm
    simp [hother]

/-- Giving back keeps every page inhabited and the log balanced, and releases only a page
that is done with. -/
theorem Inhabited.givesBack {calls' : List PageCall} (h : Inhabited a (b :: little))
    (hb : Balanced a calls) (hheap : Heap a' little [])
    (hback : GivesBack a calls little (pageOf b.ptr) a' calls') :
    Inhabited a' little ∧ Balanced a' calls' ∧
      ∃ new, calls' = calls ++ new ∧ ∀ p, .deallocate p ∈ new → Released a a' little p := by
  have hsome := h.heap.home b List.mem_cons_self
  cases hback with
  | counts hleft =>
    exact ⟨h.counts hleft hheap, hb.congr (isSome_update hsome), [], (List.append_nil _).symm,
      fun p hp => by cases hp⟩
  | wipes hnone hact =>
    exact ⟨h.wipes hact hheap, hb.congr (isSome_update hsome), [], (List.append_nil _).symm,
      fun p hp => by cases hp⟩
  | releases hnone hact hdeal =>
    obtain ⟨-, hpages, -⟩ := pageDeallocate_eq h.heap hsome hdeal
    refine ⟨h.releases hact hdeal hheap, hb.release hsome hpages, [.deallocate (pageOf b.ptr)],
      rfl, fun p hp => ?_⟩
    obtain rfl := PageCall.deallocate.inj (List.mem_singleton.mp hp)
    refine ⟨hsome, hact, ?_, hnone⟩
    rw [hpages, Function.update_self]

/-- A block is given back, whatever else there is. -/
theorem Inhabited.free (h : Inhabited a (b :: little)) (hb : Balanced a calls) :
    ∃ a' calls', loggedFree b.ptr (a, calls) = some (a', calls') ∧ Inhabited a' little ∧
      Balanced a' calls' ∧
        ∃ new, calls' = calls ++ new ∧ ∀ p, .deallocate p ∈ new → Released a a' little p := by
  obtain ⟨a', ha', hheap, -⟩ := h.heap.littleFree
  have hforget := (loggedFree_fst b.ptr (a, calls)).trans ha'
  obtain ⟨⟨c, calls'⟩, hfree, rfl⟩ := Option.map_eq_some_iff.mp hforget
  exact ⟨_, calls', hfree, h.givesBack hb hheap (loggedFree_givesBack h.heap hfree)⟩

/-! ## Runs -/

/-- A client of small blocks, with the log. -/
structure Lifetime where
  client : Client
  calls : List PageCall

def Lifetime.init : Lifetime := ⟨Client.init, []⟩

/-- `yalloc` up to 2048 bytes, `yfree` of live pointers that are not page-aligned, and writes
to live blocks. -/
def Lifetime.step (s : Lifetime) : Op → Option Lifetime
  | .yalloc len _ page =>
    if 0 < len.toNat ∧ len.toNat ≤ 2048 then
      let a := if s.client.alloc.isReady then s.client.alloc else yallocinit s.client.alloc
      (loggedAlloc len page (a, s.calls)).map fun r =>
        ⟨⟨r.2.1, ⟨r.1, len⟩ :: s.client.live⟩, r.2.2⟩
    else
      none
  | .yfree ptr =>
    if (∃ b ∈ s.client.live, b.ptr = ptr) ∧ ptr.toNat % 4096 ≠ 0 then
      (loggedFree ptr (s.client.alloc, s.calls)).map fun r =>
        ⟨⟨r.1, s.client.live.eraseP (·.ptr = ptr)⟩, r.2⟩
    else
      none
  | .write x v => (s.client.step (.write x v)).map fun client => { s with client }

variable {life life' : Lifetime} {op : Op}

structure Lifetime.Inv (s : Lifetime) : Prop where
  inhabited : Inhabited s.client.alloc s.client.live
  balanced : Balanced s.client.alloc s.calls

theorem inhabited_init : Inhabited init [] where
  heap := heap_init
  abandoned := fun _ h => nomatch h
  active := fun _ h => nomatch h
  held := fun _ h => nomatch h

theorem lifetime_init_inv : Lifetime.init.Inv := ⟨inhabited_init, fun _ => rfl⟩

theorem Inhabited.afterInit (h : Inhabited a live) :
    Inhabited (if a.isReady then a else yallocinit a) live := by
  split
  · exact h
  · exact { h with heap := h.heap.setBooks _ _ }

theorem Balanced.afterInit (h : Balanced a calls) :
    Balanced (if a.isReady then a else yallocinit a) calls := by
  split
  · exact h
  · exact h

theorem Inhabited.write {x : ULong} (h : Inhabited a live) (v : BitVec 8)
    (hx : ∃ b ∈ live, b.Mem x) :
    Inhabited { a with bytes := Function.update a.bytes x v } live :=
  { h with heap := h.heap.write v (.inl hx) }

/-- The step keeps the invariant; what it releases is done with. -/
theorem Lifetime.step_inv (h : life.Inv) (hs : life.step op = some life') :
    life'.Inv ∧ ∃ new, life'.calls = life.calls ++ new ∧ ∀ p, .deallocate p ∈ new →
      Released life.client.alloc life'.client.alloc life'.client.live p := by
  cases op with
  | yalloc len addr page =>
    simp only [Lifetime.step] at hs
    split at hs
    next hlen =>
      obtain ⟨⟨ptr, a', calls'⟩, hal, rfl⟩ := Option.map_eq_some_iff.mp hs
      obtain ⟨hinhabited, hbalanced, new, hnew, hnone⟩ :=
        h.inhabited.afterInit.alloc h.balanced.afterInit hlen.1 (by omega) hal
      exact ⟨⟨hinhabited, hbalanced⟩, new, hnew, fun p hp => absurd hp (hnone p)⟩
    · cases hs
  | yfree ptr =>
    simp only [Lifetime.step] at hs
    split at hs
    next hlive =>
      obtain ⟨b, -, rfl, hperm⟩ := eraseP_perm hlive.1
      obtain ⟨a', calls', hfree, hinhabited, hbalanced, hreleased⟩ :=
        (h.inhabited.perm hperm).free h.balanced
      rw [hfree] at hs
      obtain rfl := Option.some.inj hs
      exact ⟨⟨hinhabited, hbalanced⟩, hreleased⟩
    · cases hs
  | write x v =>
    obtain ⟨c, hc, rfl⟩ := Option.map_eq_some_iff.mp hs
    cases Client.step_moves hc with
    | write hx =>
      exact ⟨⟨h.inhabited.write v hx, h.balanced⟩, [], (List.append_nil _).symm,
        fun p hp => by cases hp⟩

/-- The log does not change what the calls do. -/
theorem Lifetime.step_client (h : life.Inv) (hop : op.Small) :
    (life.step op).map Lifetime.client = life.client.step op := by
  cases op with
  | yalloc len addr page =>
    have hsmall : len.toNat ≤ 2048 := hop
    by_cases hpos : 0 < len.toNat
    · have hlen : 0 < len.toNat ∧ len.toNat ≤ 2048 := ⟨hpos, hsmall⟩
      have hlen' : 0 < len.toNat ∧ len.toNat ≤ 2 ^ 64 - 4096 := ⟨hpos, by omega⟩
      have hforget := loggedAlloc_fst len page (if life.client.alloc.isReady then life.client.alloc
        else yallocinit life.client.alloc, life.calls)
      simp only [Lifetime.step, Client.step]
      rw [if_pos hlen, if_pos hlen', yalloc_small hsmall, ← hforget, Option.map_map,
        Option.map_map]
      rfl
    · have hlen : ¬ (0 < len.toNat ∧ len.toNat ≤ 2048) := fun hlen => hpos hlen.1
      have hlen' : ¬ (0 < len.toNat ∧ len.toNat ≤ 2 ^ 64 - 4096) := fun hlen => hpos hlen.1
      simp only [Lifetime.step, Client.step, if_neg hlen, if_neg hlen']
      rfl
  | yfree ptr =>
    simp only [Lifetime.step, Client.step]
    by_cases hlive : ∃ b ∈ life.client.live, b.ptr = ptr
    · have haligned : ptr.toNat % 4096 ≠ 0 := by
        obtain ⟨b, hb, rfl⟩ := hlive
        exact Nat.ne_of_gt (Nat.lt_of_lt_of_le (by decide) (h.inhabited.heap.onPage hb).header)
      have hforget := loggedFree_fst ptr (life.client.alloc, life.calls)
      rw [if_pos ⟨hlive, haligned⟩, if_pos hlive, yfree_small haligned, ← hforget,
        Option.map_map, Option.map_map]
      rfl
    · rw [if_neg fun hboth => hlive hboth.1, if_neg hlive]
      rfl
  | write x v =>
    simp only [Lifetime.step, Option.map_map]
    exact Option.map_id' ..

theorem Lifetime.run_client {ops : List Op} {c : Client} (h : life.Inv)
    (hsmall : ∀ op ∈ ops, op.Small) (hrun : run Client.step life.client ops = some c) :
    ∃ calls, run Lifetime.step life ops = some ⟨c, calls⟩ ∧ Lifetime.Inv ⟨c, calls⟩ := by
  induction ops generalizing life with
  | nil =>
    obtain rfl := Option.some.inj hrun
    exact ⟨life.calls, rfl, h⟩
  | cons op ops ih =>
    obtain ⟨d, hd, hrest⟩ := run_cons_iff.mp hrun
    rw [← Lifetime.step_client h (hsmall op List.mem_cons_self)] at hd
    obtain ⟨life', hs, rfl⟩ := Option.map_eq_some_iff.mp hd
    obtain ⟨calls, hcalls, hinv⟩ := ih (Lifetime.step_inv h hs).1
      (fun o ho => hsmall o (List.mem_cons_of_mem op ho)) hrest
    exact ⟨calls, run_cons_iff.mpr ⟨life', hs, hcalls⟩, hinv⟩

/-- In every state of every run of small requests, headers count the blocks on their pages,
every held page but the active one has a block on it, all that is mapped is held, and the
log has each page taken as often as given back, and once more if it is held. A step gives
back only a page that was held, is not active and has no block left; and every live block
can be given back. -/
theorem small_pages (ops : List Op) (hsmall : ∀ op ∈ ops, op.Small) (s : Client)
    (hr : run Client.step Client.init ops = some s) :
    ∃ calls, run Lifetime.step Lifetime.init ops = some ⟨s, calls⟩ ∧
      (∀ p hd, s.alloc.pages p = some hd →
        hd.nalloc.toNat = s.live.countP fun b => pageOf b.ptr = p) ∧
      (∀ p, (s.alloc.pages p).isSome → p ≠ s.alloc.littlePageActive →
        ∃ b ∈ s.live, pageOf b.ptr = p) ∧
      (∀ k, s.alloc.mapped k = true → ∃ p, (s.alloc.pages p).isSome ∧ p.toNat / 4096 = k) ∧
      (∀ p, calls.count (.allocate p) =
        calls.count (.deallocate p) + if (s.alloc.pages p).isSome then 1 else 0) ∧
      (∀ op t, Lifetime.step ⟨s, calls⟩ op = some t → ∃ new, t.calls = calls ++ new ∧
        ∀ p, .deallocate p ∈ new → Released s.alloc t.client.alloc t.client.live p) ∧
      ∀ b ∈ s.live, (Lifetime.step ⟨s, calls⟩ (.yfree b.ptr)).isSome := by
  obtain ⟨calls, hcalls, hinv⟩ := Lifetime.run_client lifetime_init_inv hsmall hr
  have hheap := hinv.inhabited.heap
  refine ⟨calls, hcalls, fun p hd hp => (hheap.page p hd hp).count, hinv.inhabited.abandoned,
    hinv.inhabited.held, hinv.balanced, fun op t ht => (Lifetime.step_inv hinv ht).2,
    fun b hb => ?_⟩
  have hlive : ∃ c ∈ s.live, c.ptr = b.ptr := ⟨b, hb, rfl⟩
  obtain ⟨c, -, hptr, hperm⟩ := eraseP_perm hlive
  obtain ⟨a', calls', hfree, -⟩ := (hinv.inhabited.perm hperm).free hinv.balanced
  have haligned : b.ptr.toNat % 4096 ≠ 0 :=
    Nat.ne_of_gt (Nat.lt_of_lt_of_le (by decide) (hheap.onPage hb).header)
  rw [hptr] at hfree
  rw [Lifetime.step, if_pos ⟨hlive, haligned⟩]
  dsimp only
  rw [hfree]
  rfl

/-- The first of two pages is abandoned with a block on it, and goes with that block. -/
theorem small_pages_abandoned : ∃ s, run Client.step Client.init
    [.yalloc 2048 0 4096, .yalloc 2040 0 8192, .yfree 4120] = some s ∧
      (s.alloc.pages 4096).isSome = false ∧ (s.alloc.pages 8192).isSome = true ∧
      ∀ p, (s.alloc.pages p).isSome → p ≠ s.alloc.littlePageActive →
        ∃ b ∈ s.live, pageOf b.ptr = p := by
  have hrun : (run Client.step Client.init
      [.yalloc 2048 0 4096, .yalloc 2040 0 8192, .yfree 4120]).map (fun s =>
        ((s.alloc.pages 4096).isSome, (s.alloc.pages 8192).isSome)) = some (false, true) := by
    decide +kernel
  obtain ⟨s, hs, hpages⟩ := Option.map_eq_some_iff.mp hrun
  obtain ⟨hfirst, hsecond⟩ := Prod.mk.inj hpages
  obtain ⟨calls, -, -, habandoned, -⟩ := small_pages _ (by decide) s hs
  exact ⟨s, hs, hfirst, hsecond, habandoned⟩

end Alloc

end Yarns
