/-!
# Axes

Positions, extents and directions have one component for each of three axes. A mesh with fewer
active axes keeps the remaining ones degenerate: a single block spans them. `Triple` is a value per
axis, read through `Triple.get`; the lemmas here say what each operation does to that reading.
-/

namespace AdaptiveMesh

set_option autoImplicit false

abbrev Axis := Fin 3

abbrev Axis.x1 : Axis := ⟨0, by decide⟩

abbrev Axis.x2 : Axis := ⟨1, by decide⟩

abbrev Axis.x3 : Axis := ⟨2, by decide⟩

def Axis.all : List Axis := [Axis.x1, Axis.x2, Axis.x3]

theorem Axis.mem_all (axis : Axis) : axis ∈ Axis.all := by
  revert axis
  decide

structure Triple (α : Type) where
  x1 : α
  x2 : α
  x3 : α
deriving DecidableEq, Repr

namespace Triple

variable {α β : Type}

def get (t : Triple α) : Axis → α
  | 0 => t.x1
  | 1 => t.x2
  | 2 => t.x3

instance : CoeFun (Triple α) fun _ => Axis → α := ⟨get⟩

def ofFn (f : Axis → α) : Triple α := ⟨f Axis.x1, f Axis.x2, f Axis.x3⟩

def fill (a : α) : Triple α := ⟨a, a, a⟩

def map (f : α → β) (t : Triple α) : Triple β := ⟨f t.x1, f t.x2, f t.x3⟩

def set (t : Triple α) (axis : Axis) (a : α) : Triple α :=
  ofFn fun other => if other = axis then a else t other

def toList (t : Triple α) : List α := [t.x1, t.x2, t.x3]

def ofList? : List α → Option (Triple α)
  | [a, b, c] => some ⟨a, b, c⟩
  | _ => none

theorem ext_get {s t : Triple α} (same : ∀ axis, s axis = t axis) : s = t := by
  cases s
  cases t
  have first := same Axis.x1
  have second := same Axis.x2
  have third := same Axis.x3
  simp only [get] at first second third
  subst first second third
  rfl

@[simp] theorem get_ofFn (f : Axis → α) (axis : Axis) : (ofFn f) axis = f axis := by
  match axis with
  | 0 => rfl
  | 1 => rfl
  | 2 => rfl

@[simp] theorem get_fill (a : α) (axis : Axis) : (fill a) axis = a := by
  match axis with
  | 0 => rfl
  | 1 => rfl
  | 2 => rfl

@[simp] theorem get_map (f : α → β) (t : Triple α) (axis : Axis) :
    (t.map f) axis = f (t axis) := by
  match axis with
  | 0 => rfl
  | 1 => rfl
  | 2 => rfl

@[simp] theorem get_set (t : Triple α) (axis other : Axis) (a : α) :
    (t.set axis a) other = if other = axis then a else t other := by
  simp [set]

theorem ofList?_toList (t : Triple α) : ofList? t.toList = some t := rfl

end Triple

end AdaptiveMesh
