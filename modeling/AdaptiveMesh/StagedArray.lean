/-!
# Staged arrays

A staged array has a host copy, which is written while tables are being built, and a device copy,
which kernels read. Writes stay on the host until they are published, and reading is refused while
some are pending, so no reader sees a table half written.
-/

namespace AdaptiveMesh

set_option autoImplicit false

inductive SyncError where
  | unpublished
deriving DecidableEq, Repr

def SyncError.message : SyncError → String
  | unpublished => "host copy was modified and has not been published"

/-- An array with a host copy and a device copy. `pending` tells whether the host copy has been
staged for writing since the last publication. -/
structure StagedArray (α : Type) where
  host : Array α
  device : Array α
  pending : Bool
deriving DecidableEq, Repr

namespace StagedArray

variable {α : Type}

def filled (length : Nat) (value : α) : StagedArray α :=
  let copy := Array.replicate length value
  ⟨copy, copy, false⟩

variable (array : StagedArray α)

def size : Nat := array.host.size

def isEmpty : Bool := array.host.isEmpty

def stage (change : Array α → Array α) : StagedArray α :=
  { array with host := change array.host, pending := true }

/-- Stages the array for a write at one position. A position out of range changes no value, and is
reported by `false`; the array counts as staged either way. -/
def write (index : Nat) (value : α) : StagedArray α × Bool :=
  (array.stage fun host => host.setIfInBounds index value, index < array.size)

def resize (length : Nat) (value : α) : StagedArray α :=
  array.stage fun _ => Array.replicate length value

def fillWith (values : Array α) : StagedArray α := array.stage fun _ => values

def publish : StagedArray α :=
  if array.pending then { array with device := array.host, pending := false } else array

def isPublished : Bool := !array.pending

def read : Except SyncError (Array α) :=
  if array.pending then .error .unpublished else .ok array.device

end StagedArray

end AdaptiveMesh
