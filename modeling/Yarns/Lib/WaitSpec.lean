import Yarns.Data.Word

/-!
# What the wait graph is for

The purpose of `lib/wait_graph.h`: a registration names a yarn and the tokens and target
times it waits for. A signal or a clock reading satisfies some of them, and a yarn is
resumed by the operation that satisfies the last one.
-/

namespace Yarns

/-- The tagged union of a `dependency`. -/
inductive DependencyData where
  | targetTime (time : ULong)
  | token (token : ULong)
  deriving DecidableEq, Repr

/-- The dependencies that `wait_graph_signal` looks for. -/
def DependencyData.signalled (token : ULong) : DependencyData → Bool
  | .token t => t = token
  | .targetTime _ => false

/-- The dependencies that `wait_graph_time_process` looks for. -/
def DependencyData.due (time : ULong) : DependencyData → Bool
  | .token _ => false
  | .targetTime t => t < time

/-- A yarn and the dependencies it still waits for. -/
structure Registration where
  yarn : ULong
  deps : List DependencyData
  deriving DecidableEq, Repr

namespace Registration

def pending (r : Registration) : Bool := !r.deps.isEmpty

def satisfy (hit : DependencyData → Bool) (r : Registration) : Registration :=
  { r with deps := r.deps.filter fun d => !hit d }

end Registration

/-- The registrations that wait, with at least one dependency each. -/
abbrev Waiting := List Registration

namespace Waiting

/-- A registration without dependencies waits for nothing. -/
def register (w : Waiting) (yarn : ULong) (deps : List DependencyData) : Waiting :=
  if deps = [] then w else ⟨yarn, deps⟩ :: w

/-- The registrations that still wait after an event. -/
def after (hit : DependencyData → Bool) (w : Waiting) : Waiting :=
  (w.map (Registration.satisfy hit)).filter Registration.pending

/-- The yarns that an event resumes: those whose last dependencies it satisfies. -/
def resumed (hit : DependencyData → Bool) (w : Waiting) : List ULong :=
  ((w.map (Registration.satisfy hit)).filter fun r => !r.pending).map Registration.yarn

variable {hit : DependencyData → Bool} {w : Waiting} {r : Registration}

/-- An event resumes the yarn of a registration or leaves it waiting. -/
theorem mem_after_or_resumed (hr : r ∈ w) :
    (∃ r' ∈ w.after hit, r'.yarn = r.yarn) ∨ r.yarn ∈ w.resumed hit := by
  have hmem : r.satisfy hit ∈ w.map (Registration.satisfy hit) := List.mem_map_of_mem hr
  cases hp : (r.satisfy hit).pending with
  | true => exact Or.inl ⟨r.satisfy hit, List.mem_filter.mpr ⟨hmem, hp⟩, rfl⟩
  | false =>
    refine Or.inr (List.mem_map.mpr ⟨r.satisfy hit, List.mem_filter.mpr ⟨hmem, ?_⟩, rfl⟩)
    rw [hp]
    rfl

theorem deps_of_mem_after (hr : r ∈ w.after hit) : r.deps ≠ [] := by
  have hp := (List.mem_filter.mp hr).2
  intro h
  simp [Registration.pending, h] at hp

end Waiting

end Yarns
