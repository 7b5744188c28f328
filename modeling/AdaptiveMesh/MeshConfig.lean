import AdaptiveMesh.Boundary

/-!
# Mesh configurations

A configuration gives the root grid of a mesh and the conditions on its faces. The conditions decide
which axes are periodic, so they have to agree on both ends of an axis, and none of them may be the
flag of faces between blocks.
-/

namespace AdaptiveMesh

set_option autoImplicit false

inductive ConfigError where
  | periodicMismatch (axis : Axis)
  | blockFlag (face : Face)
  | grid (error : GridError)
deriving DecidableEq, Repr

def ConfigError.message : ConfigError → String
  | periodicMismatch axis =>
      s!"boundary conditions on axis {axis.val} must be periodic on both faces or neither"
  | blockFlag face => s!"{face.describe} face can not use the block boundary flag"
  | grid error => error.message

structure MeshConfig where
  dim : Nat
  rootBlocks : Triple Nat
  boundary : BoundaryConds
deriving DecidableEq, Repr

namespace MeshConfig

variable (config : MeshConfig)

def isPeriodicAt (axis : Axis) (outer : Bool) : Bool := (config.boundary ⟨axis, outer⟩).isPeriodic

def periodicity : Except ConfigError (Triple Bool) :=
  match Axis.all.find? fun axis => config.isPeriodicAt axis false != config.isPeriodicAt axis true with
  | some axis => .error (.periodicMismatch axis)
  | none => .ok (.ofFn fun axis => config.isPeriodicAt axis false)

def rootGrid : Except ConfigError RootGrid :=
  match Face.all.find? fun face => config.boundary face = .block with
  | some face => .error (.blockFlag face)
  | none => do
      match RootGrid.create config.dim config.rootBlocks (← config.periodicity) with
      | .ok grid => return grid
      | .error error => .error (.grid error)

end MeshConfig

end AdaptiveMesh
