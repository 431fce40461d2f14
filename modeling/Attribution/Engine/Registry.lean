import Attribution.Engine.Schema
/-!
# Registries of phases

The phased units that have not ended, in a bucket for each phase. A phase is
held back as long as there is a bucket of a lower phase, so the bucket has to go
with the last of its units.
-/

namespace Attribution.Engine

structure Registry (ρ : Type) where
  /-- Lower phases first. -/
  buckets : List (Phase × List (WorkUnit ρ)) := []

namespace Registry

variable {ρ : Type}

/-- Adds a unit to a bucket, in the place of one with its number. -/
def put (u : WorkUnit ρ) (units : List (WorkUnit ρ)) : List (WorkUnit ρ) :=
  (units.filter fun v => v.id != u.id) ++ [u]

/-- Adds a unit to the bucket of a phase, which is a new one if there is none. -/
def putIn (phase : Phase) (u : WorkUnit ρ) :
    List (Phase × List (WorkUnit ρ)) → List (Phase × List (WorkUnit ρ))
  | [] => [(phase, put u [])]
  | (p, units) :: rest =>
    if p < phase then (p, units) :: putIn phase u rest
    else if p = phase then (p, put u units) :: rest
    else (phase, put u []) :: (p, units) :: rest

def register (r : Registry ρ) (u : WorkUnit ρ) : Registry ρ :=
  match u.phase with
  | some phase => ⟨putIn phase u r.buckets⟩
  | none => r

/-- Takes a unit out of its bucket, and the bucket away if that leaves it empty. -/
def settle (r : Registry ρ) (u : WorkUnit ρ) : Registry ρ :=
  match u.phase with
  | some phase =>
    ⟨r.buckets.filterMap fun (p, units) =>
      if p = phase then
        match units.filter fun v => v.id != u.id with
        | [] => none
        | left => some (p, left)
      else some (p, units)⟩
  | none => r

/-- Whether there is a bucket of a lower phase. -/
def isBlocked (r : Registry ρ) (phase : Phase) : Bool :=
  r.buckets.any fun (p, _) => decide (p < phase)

/-- The units of some buckets, each with its phase. -/
def spread (buckets : List (Phase × List (WorkUnit ρ))) : List (Phase × WorkUnit ρ) :=
  buckets.flatMap fun (p, units) => units.map (p, ·)

/-- The units of lower phases, lower phases first. -/
def blockers (r : Registry ρ) (phase : Phase) : List (Phase × WorkUnit ρ) :=
  spread (r.buckets.filter fun (p, _) => decide (p < phase))

/-- All units, lower phases first. -/
def units (r : Registry ρ) : List (Phase × WorkUnit ρ) :=
  spread r.buckets

def countIn (r : Registry ρ) (phase : Phase) : Nat :=
  ((r.buckets.lookup phase).map List.length).getD 0

end Registry

end Attribution.Engine
