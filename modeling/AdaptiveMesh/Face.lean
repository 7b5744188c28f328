import AdaptiveMesh.Axis

/-!
# Faces

A block has two faces along each axis, an inner (lower) and an outer (upper) one. They are counted
inner before outer, axis by axis. `FaceMap` holds one value for each face.
-/

namespace AdaptiveMesh

set_option autoImplicit false

structure Face where
  axis : Axis
  outer : Bool
deriving DecidableEq, Repr

namespace Face

def linear (f : Face) : Nat := 2 * f.axis.val + f.outer.toNat

def ofLinear? (n : Nat) : Option Face :=
  if bound : n < 6 then some ⟨⟨n / 2, by omega⟩, n % 2 == 1⟩ else none

def onAxis? (axis : Nat) (outer : Bool) : Option Face :=
  if bound : axis < 3 then some ⟨⟨axis, bound⟩, outer⟩ else none

def reversed (f : Face) : Face := ⟨f.axis, !f.outer⟩

def all : List Face := Axis.all.flatMap fun axis => [⟨axis, false⟩, ⟨axis, true⟩]

def describe (f : Face) : String :=
  s!"Face \x7b axis: {f.axis.val}, side: {f.outer} \x7d"

theorem mem_all (f : Face) : f ∈ all := by
  obtain ⟨axis, outer⟩ := f
  revert axis outer
  decide

theorem linear_lt (f : Face) : f.linear < 6 := by
  obtain ⟨axis, outer⟩ := f
  revert axis outer
  decide

theorem ofLinear?_linear (f : Face) : ofLinear? f.linear = some f := by
  obtain ⟨axis, outer⟩ := f
  revert axis outer
  decide

end Face

/-- The stored label of a face: an axis number, not checked against the number of axes, and a
side. -/
structure FaceLabel where
  axis : Nat
  side : Bool
deriving DecidableEq, Repr

structure FaceMap (α : Type) where
  innerX1 : α
  outerX1 : α
  innerX2 : α
  outerX2 : α
  innerX3 : α
  outerX3 : α
deriving DecidableEq, Repr

namespace FaceMap

variable {α : Type}

def get (m : FaceMap α) : Face → α
  | ⟨0, false⟩ => m.innerX1
  | ⟨0, true⟩ => m.outerX1
  | ⟨1, false⟩ => m.innerX2
  | ⟨1, true⟩ => m.outerX2
  | ⟨2, false⟩ => m.innerX3
  | ⟨2, true⟩ => m.outerX3

instance : CoeFun (FaceMap α) fun _ => Face → α := ⟨get⟩

def ofFn (f : Face → α) : FaceMap α :=
  ⟨f ⟨Axis.x1, false⟩, f ⟨Axis.x1, true⟩, f ⟨Axis.x2, false⟩, f ⟨Axis.x2, true⟩,
    f ⟨Axis.x3, false⟩, f ⟨Axis.x3, true⟩⟩

def fill (a : α) : FaceMap α := ofFn fun _ => a

def set (m : FaceMap α) (face : Face) (a : α) : FaceMap α :=
  ofFn fun other => if other = face then a else m other

def toList (m : FaceMap α) : List α := Face.all.map m.get

def ofList? : List α → Option (FaceMap α)
  | [a, b, c, d, e, f] => some ⟨a, b, c, d, e, f⟩
  | _ => none

@[simp] theorem get_ofFn (f : Face → α) (face : Face) : (ofFn f) face = f face := by
  obtain ⟨axis, outer⟩ := face
  match axis, outer with
  | 0, false => rfl
  | 0, true => rfl
  | 1, false => rfl
  | 1, true => rfl
  | 2, false => rfl
  | 2, true => rfl

theorem ofList?_toList (m : FaceMap α) : ofList? m.toList = some m := rfl

end FaceMap

end AdaptiveMesh
