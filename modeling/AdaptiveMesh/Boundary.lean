import AdaptiveMesh.RootGrid

/-!
# Boundaries

Each face of the domain has a boundary condition. A block's face on the edge of the domain takes the
condition of that side; any other face is shared with a block. The faces along a degenerate axis
always take the condition of the domain.
-/

namespace AdaptiveMesh

set_option autoImplicit false

inductive BoundaryFlag where
  | block
  | reflect
  | inflow
  | outflow
  | diode
  | user
  | periodic
  | shearPeriodic
  | vacuum
deriving DecidableEq, Repr

namespace BoundaryFlag

def all : List BoundaryFlag :=
  [block, reflect, inflow, outflow, diode, user, periodic, shearPeriodic, vacuum]

def name : BoundaryFlag → String
  | block => "block"
  | reflect => "reflect"
  | inflow => "inflow"
  | outflow => "outflow"
  | diode => "diode"
  | user => "user"
  | periodic => "periodic"
  | shearPeriodic => "shear_periodic"
  | vacuum => "vacuum"

def title : BoundaryFlag → String
  | block => "Block"
  | reflect => "Reflect"
  | inflow => "Inflow"
  | outflow => "Outflow"
  | diode => "Diode"
  | user => "User"
  | periodic => "Periodic"
  | shearPeriodic => "ShearPeriodic"
  | vacuum => "Vacuum"

def ofName? (text : String) : Option BoundaryFlag := all.find? fun flag => flag.name == text

def unspecified : BoundaryFlag := outflow

def isPeriodic : BoundaryFlag → Bool
  | periodic => true
  | shearPeriodic => true
  | _ => false

/-- Whether the face is filled by a condition instead of by exchange with a neighbour. -/
def isPhysical (flag : BoundaryFlag) : Bool := flag ≠ block && !flag.isPeriodic

theorem ofName?_name (flag : BoundaryFlag) : ofName? flag.name = some flag := by
  cases flag <;> decide

end BoundaryFlag

abbrev BoundaryConds := FaceMap BoundaryFlag

def BoundaryConds.unspecified : BoundaryConds := FaceMap.fill .unspecified

/-- Whether a block's face lies on the edge of the domain. Both faces along a degenerate axis do. -/
def RootGrid.onDomainEdge (grid : RootGrid) (loc : Location) (face : Face) : Bool :=
  if grid.dim ≤ face.axis.val then true
  else if face.outer then loc.lx face.axis = grid.extent loc.level face.axis - 1
  else loc.lx face.axis = 0

def RootGrid.classify (grid : RootGrid) (conds : BoundaryConds) (loc : Location) :
    FaceMap BoundaryFlag :=
  .ofFn fun face => if grid.onDomainEdge loc face then conds face else .block

end AdaptiveMesh
