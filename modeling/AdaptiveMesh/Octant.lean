import AdaptiveMesh.Axis

/-!
# Octants

A tree node is halved along each axis, which leaves eight octants. An octant is known by three bits:
the bit of an axis is set if the octant is the upper half of its parent along that axis. Its linear
index reads the bits as a binary number, first axis lowest.
-/

namespace AdaptiveMesh

set_option autoImplicit false

structure Octant where
  bits : Triple Bool
deriving DecidableEq, Repr

namespace Octant

def empty : Octant := ⟨.fill false⟩

def isSet (o : Octant) (axis : Axis) : Bool := o.bits axis

def pack (bits : Triple Bool) : Octant := ⟨bits⟩

def setTo (o : Octant) (axis : Axis) (value : Bool) : Octant := ⟨o.bits.set axis value⟩

def toggled (o : Octant) (axis : Axis) : Octant := o.setTo axis (!o.isSet axis)

def linear (o : Octant) : Nat := o.bits.x1.toNat + 2 * o.bits.x2.toNat + 4 * o.bits.x3.toNat

def ofLinear (n : Nat) : Octant := ⟨⟨n.testBit 0, n.testBit 1, n.testBit 2⟩⟩

def all : List Octant := (List.range 8).map ofLinear

/-- The `2 ^ dim` octants that a node of a mesh with `dim` active axes can have. -/
def forDim (dim : Nat) : List Octant := (List.range (1 <<< dim)).map ofLinear

def isValidFor (o : Octant) (dim : Nat) : Bool := o.linear < 1 <<< dim

theorem linear_lt (o : Octant) : o.linear < 8 := by
  obtain ⟨⟨a, b, c⟩⟩ := o
  cases a <;> cases b <;> cases c <;> decide

@[simp] theorem ofLinear_linear (o : Octant) : ofLinear o.linear = o := by
  obtain ⟨⟨a, b, c⟩⟩ := o
  cases a <;> cases b <;> cases c <;> rfl

theorem linear_ofLinear {n : Nat} (small : n < 8) : (ofLinear n).linear = n := by
  have table : ∀ k : Fin 8, (ofLinear k).linear = k := by decide
  exact table ⟨n, small⟩

theorem mem_all (o : Octant) : o ∈ all :=
  List.mem_map.2 ⟨o.linear, List.mem_range.2 o.linear_lt, o.ofLinear_linear⟩

end Octant

/-- The label of an octant is one byte, whose lowest bits are the octant's. A label can carry bits for
eight axes; from eight on it names no octant, and is kept as it is. -/
structure OctantLabel where
  byte : UInt8
deriving DecidableEq, Repr

namespace OctantLabel

def mask (axis : Nat) : UInt8 := 1 <<< axis.toUInt8

def isSet (label : OctantLabel) (axis : Nat) : Bool := label.byte &&& mask axis ≠ 0

def setTo (label : OctantLabel) (axis : Nat) (value : Bool) : OctantLabel :=
  ⟨if value then label.byte ||| mask axis else label.byte &&& ~~~mask axis⟩

def toggled (label : OctantLabel) (axis : Nat) : OctantLabel := ⟨label.byte ^^^ mask axis⟩

def octant? (label : OctantLabel) : Option Octant :=
  if label.byte < 8 then some (.ofLinear label.byte.toNat) else none

end OctantLabel

namespace Octant

def label (o : Octant) : OctantLabel := ⟨o.linear.toUInt8⟩

@[simp] theorem octant?_label (o : Octant) : o.label.octant? = some o := by
  obtain ⟨⟨a, b, c⟩⟩ := o
  cases a <;> cases b <;> cases c <;> rfl

theorem label_isSet (o : Octant) (axis : Axis) : o.label.isSet axis = o.isSet axis := by
  obtain ⟨⟨a, b, c⟩⟩ := o
  revert axis
  cases a <;> cases b <;> cases c <;> decide

theorem label_setTo (o : Octant) (axis : Axis) (value : Bool) :
    (o.setTo axis value).label = o.label.setTo axis value := by
  obtain ⟨⟨a, b, c⟩⟩ := o
  revert axis
  cases value <;> cases a <;> cases b <;> cases c <;> decide

theorem label_toggled (o : Octant) (axis : Axis) :
    (o.toggled axis).label = o.label.toggled axis := by
  obtain ⟨⟨a, b, c⟩⟩ := o
  revert axis
  cases a <;> cases b <;> cases c <;> decide

end Octant

end AdaptiveMesh
