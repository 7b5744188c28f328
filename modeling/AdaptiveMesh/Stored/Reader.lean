import AdaptiveMesh.Axis
import AdaptiveMesh.Face
import AdaptiveMesh.Stored.Value

/-!
# Reading stored values

A reader turns a value into a domain type or says what is wrong with it. Records are read field by
field: the fields that are given are read in alphabetical order, unknown ones are skipped, and only
then are missing ones reported, in the order in which the record declares them. In place of a record
there may be a list of its fields in the order of declaration.

Checkpoints are JSON and run configurations are TOML. Both hold the same kinds of values, except that
TOML has no null. They differ in how closely a list has to fit what is read from it, and in what stands
for an empty content.
-/

namespace AdaptiveMesh

set_option autoImplicit false

inductive Format where
  | json
  | toml
deriving DecidableEq, Repr

namespace Format

def ignoresSurplus : Format → Bool
  | json => false
  | toml => true

def isEmptyContent : Format → Value → Bool
  | json, .null => true
  | toml, .list [] => true
  | toml, .record [] => true
  | _, _ => false

end Format

/-- Reads a value of some type from a file of some format. -/
abbrev Reader (α : Type) := Format → Value → Except ReadError α

namespace Reader

variable {α β : Type}

def mapped (convert : α → β) (read : Reader α) : Reader β := fun format value =>
  (read format value).map convert

def integerBetween (low high : Int) (kind : String) : Reader Int
  | _, .integer value =>
      if low ≤ value ∧ value < high then .ok value else .error (.outOfRange value kind)
  | _, value => .error (.wrongKind value.describe kind)

def unsigned (bits : Nat) (kind : String) : Reader Nat :=
  (integerBetween 0 (1 <<< bits) kind).mapped Int.toNat

def byte : Reader Nat := unsigned 8 "u8"

def level : Reader Nat := unsigned 32 "u32"

def size : Reader Nat := unsigned 64 "usize"

def coordinate : Reader Int := integerBetween (-9223372036854775808) 9223372036854775808 "i64"

def entryField : Reader Int := integerBetween (-2147483648) 2147483648 "i32"

def bool : Reader Bool
  | _, .bool value => .ok value
  | _, value => .error (.wrongKind value.describe "a boolean")

def number : Reader Float
  | _, .number value => .ok value
  | _, .integer value => .ok (Float.ofInt value)
  | _, value => .error (.wrongKind value.describe "f64")

def choose (choices : List (String × α)) (name : String) : Except ReadError α :=
  match choices.lookup name with
  | some value => .ok value
  | none => .error (.unknownVariant name (choices.map Prod.fst))

/-- One of a fixed choice of names. In place of a name there may be a record whose only field has
that name and an empty content. -/
def variant (choices : List (String × α)) : Reader α
  | _, .text name => choose choices name
  | format, .record [(name, content)] => do
      let value ← choose choices name
      if format.isEmptyContent content then return value
      throw (.wrongKind content.describe "unit")
  | _, .record _ => .error .notOneField
  | _, value => .error (.wrongKind value.describe "string or map")

def list (item : Reader α) : Reader (List α)
  | format, .list items => items.mapM (item format)
  | _, value => .error (.wrongKind value.describe "a sequence")

def refuseSurplus (format : Format) (taken : Nat) (items : List Value) : Except ReadError Unit :=
  if items.length ≤ taken || format.ignoresSurplus then .ok ()
  else .error (.wrongLength items.length "fewer elements in array")

def exactly (length : Nat) (build : List α → Option β) (item : Reader α) : Reader β
  | format, .list items => do
      let values ← (items.take length).mapM (item format)
      refuseSurplus format length items
      match build values with
      | some result => return result
      | none => throw (.wrongLength items.length s!"an array of length {length}")
  | _, value => .error (.wrongKind value.describe s!"an array of length {length}")

def triple (item : Reader α) : Reader (Triple α) := exactly 3 Triple.ofList? item

def faceMap (item : Reader α) : Reader (FaceMap α) := exactly 6 FaceMap.ofList? item

end Reader

/-- Reads the fields of a record. `checks` says how each known field is read. `build` takes the
fields in the order of declaration, and reports one that has to be given and is not by what it makes
of its name. -/
structure RecordReader (α : Type) where
  checks : List (String × Reader Unit)
  build : Format → (missing : String → ReadError) → List (String × Value) → Except ReadError α

namespace RecordReader

variable {α β : Type}

instance : Applicative RecordReader where
  pure a := ⟨[], fun _ _ _ => .ok a⟩
  seq f a := ⟨f.checks ++ (a ()).checks, fun format missing fields => do
    let g ← f.build format missing fields
    let x ← (a ()).build format missing fields
    return g x⟩

def required (name : String) (read : Reader α) : RecordReader α where
  checks := [(name, read.mapped fun _ => ())]
  build format missing fields :=
    match fields.lookup name with
    | some value => read format value
    | none => .error (missing name)

def optional (name : String) (default : α) (read : Reader α) : RecordReader α where
  checks := [(name, read.mapped fun _ => ())]
  build format _ fields :=
    match fields.lookup name with
    | some value => read format value
    | none => .ok default

def readGiven (reader : RecordReader α) (format : Format) (fields : List (String × Value)) :
    Except ReadError Unit :=
  fields.forM fun (name, value) =>
    match reader.checks.lookup name with
    | some check => check format value
    | none => .ok ()

def fullTitle (reader : RecordReader α) (title : String) : String :=
  let count := reader.checks.length
  s!"struct {title} with {count} " ++ if count = 1 then "element" else "elements"

def reader (reader : RecordReader α) (title : String) : Reader α
  | format, .record fields => do
      reader.readGiven format (fields.mergeSort fun a b => a.1 ≤ b.1)
      reader.build format .missingField fields
  | format, .list items => do
      let fields := (reader.checks.map Prod.fst).zip items
      let tooShort := ReadError.wrongLength items.length (reader.fullTitle title)
      let result ← reader.build format (fun _ => tooShort) fields
      Reader.refuseSurplus format reader.checks.length items
      return result
  | _, value => .error (.wrongKind value.describe ("struct " ++ title))

def checked (reader : RecordReader α) (title : String) (accept : α → Except String β) : Reader β :=
  fun format value => do
    match accept (← reader.reader title format value) with
    | .ok result => return result
    | .error message => throw (.rejected message)

end RecordReader

end AdaptiveMesh
