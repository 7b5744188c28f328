import AdaptiveMesh.Region

/-!
# Locations

At level `l` the tree's root is cut into `2 ^ l` cells along every axis, and a location counts cells
from the lower corner. Going up a level halves the coordinates, going down doubles them and adds the
bits of an octant. `Location.path` lists the octants taken on the way down from the root.
-/

namespace AdaptiveMesh

set_option autoImplicit false

/-- The place of a block or tree node: its level, and its coordinates in cells of that level. -/
structure Location where
  level : Nat
  lx : Triple Int
deriving DecidableEq, Repr

namespace Location

def root : Location := ⟨0, .fill 0⟩

def parent? (loc : Location) : Option Location :=
  match loc.level with
  | 0 => none
  | level + 1 => some ⟨level, loc.lx.map (· / 2)⟩

def child (loc : Location) (o : Octant) : Location :=
  ⟨loc.level + 1, .ofFn fun axis => 2 * loc.lx axis + (o.isSet axis).toInt⟩

def octant (loc : Location) : Octant := .pack (loc.lx.map (· % 2 == 1))

/-- The octant taken at a depth below `loc.level` on the way down from the root. -/
def octantAt (loc : Location) (depth : Nat) : Octant :=
  .pack (loc.lx.map fun (x : Int) => (x >>> (loc.level - depth - 1)) % 2 == 1)

def path (loc : Location) : List Octant := (List.range loc.level).map loc.octantAt

def ofPath (path : List Octant) : Location := path.foldl child root

def ancestor? (loc : Location) : Nat → Option Location
  | 0 => some loc
  | n + 1 => loc.parent?.bind fun up => up.ancestor? n

def ancestors (loc : Location) : List Location :=
  (List.range loc.level).filterMap fun n => loc.ancestor? (n + 1)

/-- The place one step in a direction, at the same level. It may lie outside of the domain. -/
def shifted (loc : Location) (r : Region) : Location :=
  ⟨loc.level, .ofFn fun axis => loc.lx axis + (r.side axis).offset⟩

def contains (loc other : Location) : Bool :=
  loc.level ≤ other.level &&
    Axis.all.all fun axis => other.lx axis >>> (other.level - loc.level) = loc.lx axis

def compare (a b : Location) : Ordering :=
  (Ord.compare a.level b.level).then <|
    (Ord.compare a.lx.x1 b.lx.x1).then <|
      (Ord.compare a.lx.x2 b.lx.x2).then (Ord.compare a.lx.x3 b.lx.x3)

def sort (locs : List Location) : List Location :=
  locs.mergeSort fun a b => (a.compare b).isLE

def describeCoordinates (loc : Location) : String :=
  s!"[{loc.lx.x1}, {loc.lx.x2}, {loc.lx.x3}]"

def describe (loc : Location) : String :=
  s!"LogicalLocation \x7b level: {loc.level}, lx: {loc.describeCoordinates} \x7d"

@[simp] theorem level_child (loc : Location) (o : Octant) :
    (loc.child o).level = loc.level + 1 := rfl

@[simp] theorem lx_child (loc : Location) (o : Octant) (axis : Axis) :
    (loc.child o).lx axis = 2 * loc.lx axis + (o.isSet axis).toInt := by
  simp [child]

@[simp] theorem lx_shifted (loc : Location) (r : Region) (axis : Axis) :
    (loc.shifted r).lx axis = loc.lx axis + (r.side axis).offset := by
  simp [shifted]

@[simp] theorem length_path (loc : Location) : loc.path.length = loc.level := by
  simp [path]

theorem parent?_child (loc : Location) (o : Octant) : (loc.child o).parent? = some loc := by
  have halves : (loc.child o).lx.map (· / 2) = loc.lx := by
    apply Triple.ext_get
    intro axis
    simp only [Triple.get_map, lx_child]
    cases o.isSet axis
    · simp [Bool.toInt]
    · simp [Bool.toInt]
      omega
  simp only [parent?, level_child, halves]

theorem octant_child (loc : Location) (o : Octant) : (loc.child o).octant = o := by
  have bits : (loc.child o).lx.map (· % 2 == 1) = o.bits := by
    apply Triple.ext_get
    intro axis
    simp only [Triple.get_map, lx_child]
    show (_ == _) = o.isSet axis
    cases o.isSet axis <;> simp [Bool.toInt]
  cases o
  simp only [octant, Octant.pack, bits]

end Location

end AdaptiveMesh
