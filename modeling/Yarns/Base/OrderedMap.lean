import Mathlib.Data.List.Sort
import Mathlib.Data.List.Nodup

/-!
# Ordered maps

A finite map with ordered keys, kept as the list of its entries in strictly increasing
key order; the order is a field, so an ill-ordered map cannot be built. The operations
are those of a `std::map` whose `insert` leaves an existing key alone: `insert`, `erase`,
`find?`, `min?`.
-/

namespace Yarns.Base

variable {κ υ : Type} [LinearOrder κ]

structure OrderedMap (κ υ : Type) [LinearOrder κ] where
  entries : List (κ × υ)
  sorted : entries.Pairwise fun a b => a.1 < b.1

namespace OrderedMap

def empty : OrderedMap κ υ := ⟨[], .nil⟩

def keys (m : OrderedMap κ υ) : List κ := m.entries.map Prod.fst

def values (m : OrderedMap κ υ) : List υ := m.entries.map Prod.snd

def size (m : OrderedMap κ υ) : Nat := m.entries.length

def find? (m : OrderedMap κ υ) (k : κ) : Option υ :=
  (m.entries.find? fun e => e.1 = k).map Prod.snd

def min? (m : OrderedMap κ υ) : Option κ := m.entries.head?.map Prod.fst

theorem keys_pairwise (m : OrderedMap κ υ) : m.keys.Pairwise (· < ·) :=
  List.pairwise_map.mpr m.sorted

theorem keys_nodup (m : OrderedMap κ υ) : m.keys.Nodup := m.keys_pairwise.imp ne_of_lt

theorem find?_eq_none {m : OrderedMap κ υ} {k : κ} : m.find? k = none ↔ k ∉ m.keys := by
  simp only [find?, Option.map_eq_none_iff, List.find?_eq_none, decide_eq_true_eq, keys,
    List.mem_map, not_exists, not_and]

theorem find?_eq_some {m : OrderedMap κ υ} {k : κ} {v : υ} :
    m.find? k = some v ↔ (k, v) ∈ m.entries := by
  constructor
  · intro h
    obtain ⟨e, he, rfl⟩ := Option.map_eq_some_iff.mp h
    have hk := List.find?_some he
    simp only [decide_eq_true_eq] at hk
    subst hk
    exact List.mem_of_find?_eq_some he
  · intro h
    cases hf : m.find? k with
    | none => exact absurd (List.mem_map.mpr ⟨(k, v), h, rfl⟩) (find?_eq_none.mp hf)
    | some w =>
      obtain ⟨e, he, rfl⟩ := Option.map_eq_some_iff.mp hf
      have hk := List.find?_some he
      simp only [decide_eq_true_eq] at hk
      have hm := List.mem_of_find?_eq_some he
      have heq : e = (k, v) := List.inj_on_of_nodup_map m.keys_nodup hm h hk
      rw [heq]

/-- Insertion of a key that is not there yet. -/
def insertNew (m : OrderedMap κ υ) (k : κ) (v : υ) (hk : k ∉ m.keys) : OrderedMap κ υ where
  entries := m.entries.orderedInsert (fun a b => a.1 ≤ b.1) (k, v)
  sorted := by
    have hle : m.entries.Pairwise fun a b => a.1 ≤ b.1 := m.sorted.imp le_of_lt
    have hp := List.perm_orderedInsert (fun a b : κ × υ => a.1 ≤ b.1) (k, v) m.entries
    have : Std.Total fun a b : κ × υ => a.1 ≤ b.1 := ⟨fun a b => le_total a.1 b.1⟩
    have : IsTrans (κ × υ) fun a b => a.1 ≤ b.1 := ⟨fun _ _ _ => le_trans⟩
    have hsort := hle.orderedInsert (k, v)
    have hnd : ((m.entries.orderedInsert (fun a b => a.1 ≤ b.1) (k, v)).map Prod.fst).Nodup :=
      ((hp.map Prod.fst).nodup_iff).mpr (List.nodup_cons.mpr ⟨hk, m.keys_nodup⟩)
    exact (hsort.and (List.pairwise_map.mp hnd)).imp fun h => lt_of_le_of_ne h.1 h.2

/-- An existing key keeps its value. -/
def insert (m : OrderedMap κ υ) (k : κ) (v : υ) : OrderedMap κ υ :=
  if hk : k ∈ m.keys then m else m.insertNew k v hk

def erase (m : OrderedMap κ υ) (k : κ) : OrderedMap κ υ where
  entries := m.entries.filter fun e => e.1 ≠ k
  sorted := m.sorted.filter _

theorem entries_insert {m : OrderedMap κ υ} {k : κ} (v : υ) (hk : k ∉ m.keys) :
    (m.insert k v).entries.Perm ((k, v) :: m.entries) := by
  rw [insert, dif_neg hk]
  exact List.perm_orderedInsert _ _ _

theorem values_insert {m : OrderedMap κ υ} {k : κ} (v : υ) (hk : k ∉ m.keys) :
    (m.insert k v).values.Perm (v :: m.values) := (entries_insert v hk).map Prod.snd

theorem insert_of_mem {m : OrderedMap κ υ} {k : κ} (v : υ) (hk : k ∈ m.keys) :
    m.insert k v = m := dif_pos hk

theorem find?_insert {m : OrderedMap κ υ} {k k' : κ} {v w : υ} (hk : m.find? k = none) :
    (m.insert k v).find? k' = some w ↔ k' = k ∧ w = v ∨ m.find? k' = some w := by
  rw [find?_eq_some, (entries_insert v (find?_eq_none.mp hk)).mem_iff, List.mem_cons, Prod.mk.injEq,
    find?_eq_some]

theorem mem_entries_erase {m : OrderedMap κ υ} {k : κ} {e : κ × υ} :
    e ∈ (m.erase k).entries ↔ e ∈ m.entries ∧ e.1 ≠ k := by
  simp only [erase, List.mem_filter, decide_eq_true_eq]

theorem erase_of_not_mem {m : OrderedMap κ υ} {k : κ} (hk : k ∉ m.keys) : m.erase k = m := by
  have hentries : (m.erase k).entries = m.entries := by
    refine List.filter_eq_self.mpr fun e he => decide_eq_true fun hek => ?_
    exact hk (List.mem_map.mpr ⟨e, he, hek⟩)
  cases m
  simp only [erase, mk.injEq] at hentries ⊢
  exact hentries

theorem min?_eq_none {m : OrderedMap κ υ} : m.min? = none ↔ m.entries = [] := by
  rw [min?, Option.map_eq_none_iff, List.head?_eq_none_iff]

/-- The least key, its value, and what is left without it. -/
theorem min?_eq_some {m : OrderedMap κ υ} {k : κ} (h : m.min? = some k) :
    ∃ v rest, m.entries = (k, v) :: rest ∧ (m.erase k).entries = rest ∧
      m.find? k = some v ∧ ∀ e ∈ rest, k < e.1 := by
  obtain ⟨e, he, rfl⟩ := Option.map_eq_some_iff.mp h
  obtain ⟨rest, hrest⟩ : ∃ rest, m.entries = e :: rest := by
    cases hm : m.entries with
    | nil => rw [hm] at he; cases he
    | cons e' rest =>
      rw [hm] at he
      cases he
      exact ⟨rest, rfl⟩
  have hlt : ∀ e' ∈ rest, e.1 < e'.1 := by
    have hs := m.sorted
    rw [hrest, List.pairwise_cons] at hs
    exact hs.1
  refine ⟨e.2, rest, hrest, ?_, ?_, hlt⟩
  · simp only [erase, hrest, ne_eq, not_true_eq_false, decide_false, Bool.false_eq_true,
      not_false_eq_true, List.filter_cons_of_neg, List.filter_eq_self, decide_eq_true_eq]
    intro e' he'
    exact (hlt e' he').ne'
  · exact find?_eq_some.mpr (by rw [hrest]; exact List.mem_cons_self)

theorem min?_le {m : OrderedMap κ υ} {k : κ} (h : m.min? = some k) :
    ∀ e ∈ m.entries, k ≤ e.1 := by
  obtain ⟨v, rest, hentries, -, -, hlt⟩ := min?_eq_some h
  intro e he
  rw [hentries] at he
  rcases List.mem_cons.mp he with rfl | he
  · exact le_refl _
  · exact (hlt e he).le

end OrderedMap

end Yarns.Base
