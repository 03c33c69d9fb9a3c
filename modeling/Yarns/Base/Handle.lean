import Mathlib.Logic.Function.Basic
import Mathlib.Data.List.Basic
import Mathlib.Data.List.Nodup

/-!
# Records behind handles

A heap `κ → Option ρ` of records, each with an owner. Some handles are queued, the
others have been handed out together with the name of their owner, and will come back.
`Owned` says that no handle is in two places and that every handle in use points to a
record, a handed-out one to a record of the owner it was handed out for. The lemmas are
the four moves of such a store: allocate into the queue, take out of the queue, give
back into the queue, and drop a handed-out record.

`Registered` compares the heap with a list kept outside of it: the records that were
allocated and not freed. Where every record is queued or out, each of the listed ones is in
one place (`Owned.place`), and the places hold no others (`Registered.perm`).
-/

namespace Yarns.Base

variable {κ ρ ι : Type}

/-- The owners of the queued handles, in queue order. -/
def owners (heap : κ → Option ρ) (owner : ρ → ι) (queued : List κ) : List ι :=
  queued.filterMap fun a => (heap a).map owner

structure Owned (heap : κ → Option ρ) (owner : ρ → ι) (queued : List κ)
    (out : List (κ × ι)) : Prop where
  nodup : (queued ++ out.map Prod.fst).Nodup
  queuedLive : ∀ a ∈ queued, ∃ r, heap a = some r
  outLive : ∀ o ∈ out, ∃ r, heap o.1 = some r ∧ owner r = o.2

variable {heap : κ → Option ρ} {owner : ρ → ι} {queued queued' : List κ}
  {out out' : List (κ × ι)} {a b : κ} {r : ρ} {p : ι} {x : Option ρ}

theorem owners_cons (h : heap a = some r) :
    owners heap owner (a :: queued) = owner r :: owners heap owner queued := by
  simp [owners, h]

theorem owners_perm (h : queued.Perm queued') :
    (owners heap owner queued).Perm (owners heap owner queued') := h.filterMap _

theorem owners_update_of_not_mem [DecidableEq κ] (ha : a ∉ queued) :
    owners (Function.update heap a x) owner queued = owners heap owner queued := by
  apply List.filterMap_congr
  intro b hb
  have hne : b ≠ a := by rintro rfl; exact ha hb
  rw [Function.update_of_ne hne]

/-- An address that is free stays free when another one is written. -/
theorem update_eq_none [DecidableEq κ] (hb : heap b = none) (hx : b = a → x = none) :
    Function.update heap a x b = none := by
  by_cases h : b = a
  · subst h
    rw [Function.update_self, hx rfl]
  · rw [Function.update_of_ne h, hb]

/-- A property of all records survives the write of a record that has it. -/
theorem update_forall [DecidableEq κ] {P : ρ → Prop} (h : ∀ b r, heap b = some r → P r)
    (hx : ∀ r, x = some r → P r) : ∀ b r, Function.update heap a x b = some r → P r := by
  intro b r hb
  by_cases hab : b = a
  · subst hab
    rw [Function.update_self] at hb
    exact hx r hb
  · rw [Function.update_of_ne hab] at hb
    exact h b r hb

namespace Owned

theorem perm (h : Owned heap owner queued out) (hq : queued.Perm queued')
    (ho : out.Perm out') : Owned heap owner queued' out' where
  nodup := (hq.append (ho.map _)).nodup_iff.mp h.nodup
  queuedLive := fun a ha => h.queuedLive a (hq.mem_iff.mpr ha)
  outLive := fun o hm => h.outLive o (ho.mem_iff.mpr hm)

/-- A record that is queued or out is in one of these places, once. -/
theorem place [BEq κ] [LawfulBEq κ] [BEq ι] [LawfulBEq ι] (h : Owned heap owner queued out)
    (ha : heap a = some r) (hm : a ∈ queued ∨ a ∈ out.map Prod.fst) :
    (queued.count a = 1 ∧ a ∉ out.map Prod.fst) ∨
      (a ∉ queued ∧ out.count (a, owner r) = 1) := by
  obtain ⟨hqueued, hout, hdisj⟩ := List.nodup_append'.mp h.nodup
  rcases hm with hm | hm
  · exact Or.inl ⟨List.count_eq_one_of_mem hqueued hm, fun hm' => hdisj hm hm'⟩
  · obtain ⟨o, ho, rfl⟩ := List.mem_map.mp hm
    obtain ⟨r', hr', hown⟩ := h.outLive o ho
    obtain rfl := Option.some.inj (hr'.symm.trans ha)
    rw [hown]
    exact Or.inr ⟨fun hm' => hdisj hm' hm,
      List.count_eq_one_of_mem (List.Nodup.of_map _ hout) ho⟩

/-- Handed-out records that are forgotten. -/
theorem sublist (h : Owned heap owner queued out) (hsub : out'.Sublist out) :
    Owned heap owner queued out' where
  nodup := h.nodup.sublist ((hsub.map Prod.fst).append_left queued)
  queuedLive := h.queuedLive
  outLive := fun o ho => h.outLive o (hsub.subset ho)

theorem live_of_update [DecidableEq κ] (h : Owned heap owner queued out) (x : Option ρ)
    (ha : a ∉ queued) (ha' : ∀ o ∈ out, o.1 ≠ a) :
    (∀ b ∈ queued, ∃ r, Function.update heap a x b = some r) ∧
      ∀ o ∈ out, ∃ r, Function.update heap a x o.1 = some r ∧ owner r = o.2 := by
  constructor
  · intro b hb
    have hne : b ≠ a := by rintro rfl; exact ha hb
    rw [Function.update_of_ne hne]
    exact h.queuedLive b hb
  · intro o ho
    rw [Function.update_of_ne (ha' o ho)]
    exact h.outLive o ho

/-- A fresh handle joins the queue. -/
theorem alloc [DecidableEq κ] (h : Owned heap owner queued out) (ha : heap a = none) (r : ρ) :
    Owned (Function.update heap a (some r)) owner (a :: queued) out ∧
      owners (Function.update heap a (some r)) owner (a :: queued) =
        owner r :: owners heap owner queued := by
  have hq : a ∉ queued := by
    intro hm
    obtain ⟨r, hr⟩ := h.queuedLive a hm
    rw [ha] at hr
    cases hr
  have ho : ∀ o ∈ out, o.1 ≠ a := by
    rintro o hm rfl
    obtain ⟨r, hr, _⟩ := h.outLive o hm
    rw [ha] at hr
    cases hr
  obtain ⟨h1, h2⟩ := h.live_of_update (some r) hq ho
  refine ⟨⟨?_, ?_, h2⟩, ?_⟩
  · rw [List.cons_append, List.nodup_cons]
    refine ⟨?_, h.nodup⟩
    intro hm
    rcases List.mem_append.mp hm with hm | hm
    · exact hq hm
    · obtain ⟨o, hom, rfl⟩ := List.mem_map.mp hm
      exact ho o hom rfl
  · intro b hb
    rcases List.mem_cons.mp hb with rfl | hb
    · exact ⟨r, Function.update_self ..⟩
    · exact h1 b hb
  · rw [owners_cons (Function.update_self ..), owners_update_of_not_mem hq]

/-- A handle at the front of the queue is handed out; its record may be rewritten as
long as its owner stays. -/
theorem take [DecidableEq κ] (h : Owned heap owner (a :: queued) out) (ha : heap a = some r)
    (r' : ρ) (hr : owner r' = owner r) :
    Owned (Function.update heap a (some r')) owner queued ((a, owner r) :: out) ∧
      owners (Function.update heap a (some r')) owner queued = owners heap owner queued := by
  have hnd := h.nodup
  rw [List.cons_append, List.nodup_cons, List.mem_append, not_or] at hnd
  obtain ⟨⟨hq, ho⟩, hnd⟩ := hnd
  have ho' : ∀ o ∈ out, o.1 ≠ a := by
    rintro o hm rfl
    exact ho (List.mem_map.mpr ⟨o, hm, rfl⟩)
  have h0 : Owned heap owner queued out :=
    ⟨hnd, fun b hb => h.queuedLive b (List.mem_cons_of_mem a hb), h.outLive⟩
  obtain ⟨h1, h2⟩ := h0.live_of_update (some r') hq ho'
  refine ⟨⟨?_, h1, ?_⟩, owners_update_of_not_mem hq⟩
  · rw [List.map_cons]
    exact (List.perm_middle.nodup_iff).mpr
      (List.nodup_cons.mpr ⟨by rw [List.mem_append, not_or]; exact ⟨hq, ho⟩, hnd⟩)
  · intro o hm
    rcases List.mem_cons.mp hm with rfl | hm
    · exact ⟨r', Function.update_self .., hr⟩
    · exact h2 o hm

/-- What is known when the handle `a` is out. -/
theorem out_facts (h : Owned heap owner queued ((a, p) :: out)) :
    a ∉ queued ∧ (∀ o ∈ out, o.1 ≠ a) ∧ Owned heap owner queued out := by
  have hnd := h.nodup
  rw [List.map_cons, List.perm_middle.nodup_iff, List.nodup_cons, List.mem_append, not_or] at hnd
  obtain ⟨⟨hq, ho⟩, hnd⟩ := hnd
  refine ⟨hq, ?_, hnd, h.queuedLive, fun o hm => h.outLive o (List.mem_cons_of_mem _ hm)⟩
  rintro o hm rfl
  exact ho (List.mem_map.mpr ⟨o, hm, rfl⟩)

/-- A handed-out handle comes back into the queue. -/
theorem giveBack [DecidableEq κ] (h : Owned heap owner queued ((a, p) :: out)) (r' : ρ)
    (hr : owner r' = p) :
    Owned (Function.update heap a (some r')) owner (a :: queued) out ∧
      owners (Function.update heap a (some r')) owner (a :: queued) =
        p :: owners heap owner queued := by
  obtain ⟨hq, ho, h0⟩ := h.out_facts
  obtain ⟨h1, h2⟩ := h0.live_of_update (some r') hq ho
  refine ⟨⟨?_, ?_, h2⟩, ?_⟩
  · rw [List.cons_append]
    exact (List.perm_middle.nodup_iff).mp h.nodup
  · intro b hb
    rcases List.mem_cons.mp hb with rfl | hb
    · exact ⟨r', Function.update_self ..⟩
    · exact h1 b hb
  · rw [owners_cons (Function.update_self ..), owners_update_of_not_mem hq, hr]

/-- A handed-out record is freed. -/
theorem drop [DecidableEq κ] (h : Owned heap owner queued ((a, p) :: out)) :
    Owned (Function.update heap a none) owner queued out ∧
      owners (Function.update heap a none) owner queued = owners heap owner queued := by
  obtain ⟨hq, ho, h0⟩ := h.out_facts
  obtain ⟨h1, h2⟩ := h0.live_of_update none hq ho
  exact ⟨⟨h0.nodup, h1, h2⟩, owners_update_of_not_mem hq⟩

end Owned

/-- `names` lists the records in use, each once and with its owner. -/
structure Registered (heap : κ → Option ρ) (owner : ρ → ι) (names : List (κ × ι)) : Prop where
  nodup : (names.map Prod.fst).Nodup
  mem_iff : ∀ n, n ∈ names ↔ ∃ r, heap n.1 = some r ∧ owner r = n.2

namespace Registered

variable {names : List (κ × ι)}

theorem mem_map_iff (h : Registered heap owner names) :
    a ∈ names.map Prod.fst ↔ ∃ r, heap a = some r := by
  constructor
  · intro ha
    obtain ⟨n, hn, rfl⟩ := List.mem_map.mp ha
    obtain ⟨r, hr, -⟩ := (h.mem_iff n).mp hn
    exact ⟨r, hr⟩
  · rintro ⟨r, hr⟩
    exact List.mem_map.mpr ⟨(a, owner r), (h.mem_iff _).mpr ⟨r, hr, rfl⟩, rfl⟩

/-- A new record is registered. -/
theorem alloc [DecidableEq κ] (h : Registered heap owner names) (ha : heap a = none) (r : ρ) :
    Registered (Function.update heap a (some r)) owner ((a, owner r) :: names) where
  nodup := by
    rw [List.map_cons, List.nodup_cons, h.mem_map_iff, ha]
    refine ⟨?_, h.nodup⟩
    rintro ⟨r, hr⟩
    cases hr
  mem_iff := by
    intro n
    rw [List.mem_cons]
    by_cases hn : n.1 = a
    · have hnot : n ∉ names := by
        rw [h.mem_iff, hn, ha]
        exact fun ⟨_, hr, _⟩ => nomatch hr
      rw [hn, Function.update_self, or_iff_left hnot]
      constructor
      · rintro rfl
        exact ⟨r, rfl, rfl⟩
      · rintro ⟨_, hr, hown⟩
        obtain rfl := Option.some.inj hr
        exact Prod.ext hn hown.symm
    · rw [Function.update_of_ne hn, h.mem_iff]
      exact or_iff_right fun heq => hn (congrArg Prod.fst heq)

/-- A record is rewritten and keeps its owner. -/
theorem write [DecidableEq κ] {r' : ρ} (h : Registered heap owner names) (ha : heap a = some r)
    (hr : owner r' = owner r) : Registered (Function.update heap a (some r')) owner names where
  nodup := h.nodup
  mem_iff := by
    intro n
    by_cases hn : n.1 = a
    · rw [h.mem_iff, hn, Function.update_self, ha]
      simp only [Option.some.injEq, exists_eq_left', hr]
    · rw [Function.update_of_ne hn, h.mem_iff]

/-- A freed record is struck off. -/
theorem free [DecidableEq κ] [DecidableEq ι] (h : Registered heap owner names)
    (ha : heap a = some r) :
    Registered (Function.update heap a none) owner (names.erase (a, owner r)) where
  nodup := h.nodup.sublist (List.erase_sublist.map _)
  mem_iff := by
    intro n
    rw [(List.Nodup.of_map _ h.nodup).mem_erase_iff, h.mem_iff]
    by_cases hn : n.1 = a
    · rw [hn, Function.update_self, ha]
      constructor
      · rintro ⟨hne, _, hr, hown⟩
        obtain rfl := Option.some.inj hr
        exact absurd (Prod.ext hn hown.symm) hne
      · exact fun ⟨_, hr, _⟩ => nomatch hr
    · rw [Function.update_of_ne hn]
      exact and_iff_right fun heq => hn (congrArg Prod.fst heq)

/-- Where every record is queued or out, these are the registered ones. -/
theorem perm (h : Registered heap owner names) (ho : Owned heap owner queued out)
    (hcovered : ∀ a r, heap a = some r → a ∈ queued ∨ a ∈ out.map Prod.fst) :
    (queued ++ out.map Prod.fst).Perm (names.map Prod.fst) := by
  refine (List.perm_ext_iff_of_nodup ho.nodup h.nodup).mpr fun a => ?_
  rw [h.mem_map_iff, List.mem_append]
  constructor
  · rintro (ha | ha)
    · exact ho.queuedLive a ha
    · obtain ⟨o, hmem, rfl⟩ := List.mem_map.mp ha
      obtain ⟨r, hr, -⟩ := ho.outLive o hmem
      exact ⟨r, hr⟩
  · rintro ⟨r, hr⟩
    exact hcovered a r hr

end Registered

end Yarns.Base
