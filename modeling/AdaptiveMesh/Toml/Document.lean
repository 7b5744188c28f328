import AdaptiveMesh.Signed64
import AdaptiveMesh.Stored.Value
import AdaptiveMesh.Toml.Scan

/-!
# TOML documents

A TOML document is read into a plain record. Its statements set values at paths of keys: a header
names the table under which the following keys go, and a doubled header adds a table to a list of
tables. A key can be set once only. Integers are signed 64-bit words. Keys have less than 80 parts,
and lists and tables within a line stand inside each other less than 80 deep.
-/

namespace AdaptiveMesh

set_option autoImplicit false

namespace Toml

def changeField (name : String) (change : Option Value → Except String Value) :
    List (String × Value) → Except String (List (String × Value))
  | [] => return [(name, ← change none)]
  | (other, value) :: rest =>
      if other = name then return (other, ← change (some value)) :: rest
      else return (other, value) :: (← changeField name change rest)

/-- Changes the value at a path of keys. Records on the way are made where they are missing, and a
list of tables stands for its last table. -/
def changeAt : List String → (Option Value → Except String Value) → Option Value →
    Except String Value
  | [], change, value => change value
  | name :: rest, change, value =>
      let inside (fields : List (String × Value)) : Except String Value := do
        return .record (← changeField name (changeAt rest change) fields)
      match value with
      | none => inside []
      | some (.record fields) => inside fields
      | some (.list items) =>
          match items.getLast? with
          | some (.record fields) => do return .list (items.dropLast ++ [← inside fields])
          | _ => .error s!"{name} is not in a table"
      | some _ => .error s!"{name} is not in a table"

def dotted (path : List String) : String := String.intercalate "." path

def assign (path : List String) (value : Value) (document : Value) : Except String Value :=
  changeAt path (fun
    | none => .ok value
    | some _ => .error (dotted path ++ " is set twice")) (some document)

def openTable (path : List String) (document : Value) : Except String Value :=
  changeAt path (fun
    | none => .ok (.record [])
    | some (.record fields) => .ok (.record fields)
    | some _ => .error (dotted path ++ " is not a table")) (some document)

def addTable (path : List String) (document : Value) : Except String Value :=
  changeAt path (fun
    | none => .ok (.list [.record []])
    | some (.list items) => .ok (.list (items ++ [.record []]))
    | some _ => .error (dotted path ++ " is not a list of tables")) (some document)

def integer? (word : List Char) : Option Int := do
  let based (base : Nat) (digits : List Char) : Option Int := do
    let clean ← withoutUnderscores (fun c => (digit? base c).isSome) false digits
    let n ← number? base clean
    return n
  let decimal (digits : List Char) : Option Int :=
    match digits with
    | '0' :: _ :: _ => none
    | _ => based 10 digits
  match word with
  | '0' :: 'x' :: digits => based 16 digits
  | '0' :: 'o' :: digits => based 8 digits
  | '0' :: 'b' :: digits => based 2 digits
  | '+' :: digits => decimal digits
  | '-' :: digits => (decimal digits).map (- ·)
  | digits => decimal digits

/-- Scales digits by a power of ten. Exponents beyond four digits give zero or infinity, like those
of four. -/
def scale (digits : Nat) (exponent : Int) : Float :=
  if digits = 0 then 0.0
  else Float.ofScientific digits (exponent < 0) (min exponent.natAbs 99999)

def fraction? : List Char → Option (List Char × List Char)
  | '.' :: rest =>
      let digits := rest.takeWhile Char.isDigit
      if digits.isEmpty then none else some (digits, rest.dropWhile Char.isDigit)
  | rest => some ([], rest)

def exponent? : List Char → Option Int
  | [] => some 0
  | e :: rest =>
      if e = 'e' || e = 'E' then
        match rest with
        | '-' :: digits => (number? 10 digits).map fun n => -(n : Int)
        | '+' :: digits => (number? 10 digits).map Int.ofNat
        | digits => (number? 10 digits).map Int.ofNat
      else none

def magnitude? (word : List Char) : Option Float := do
  let clean ← withoutUnderscores Char.isDigit false word
  let whole := clean.takeWhile Char.isDigit
  let (fraction, rest) ← fraction? (clean.dropWhile Char.isDigit)
  let exponent ← exponent? rest
  let padded : Bool := 1 < whole.length && whole.head? = some '0'
  if whole.isEmpty || padded then none
  else return scale (← number? 10 (whole ++ fraction)) (exponent - fraction.length)

def float? (word : List Char) : Option Float :=
  let unsigned (digits : List Char) : Option Float :=
    if digits = ['i', 'n', 'f'] then some (1.0 / 0.0)
    else if digits = ['n', 'a', 'n'] then some (0.0 / 0.0)
    else magnitude? digits
  match word with
  | '+' :: digits => unsigned digits
  | '-' :: digits => (unsigned digits).map fun x => -x
  | digits => unsigned digits

def bareValue (word : List Char) : Except String Value :=
  if word = ['t', 'r', 'u', 'e'] then .ok (.bool true)
  else if word = ['f', 'a', 'l', 's', 'e'] then .ok (.bool false)
  else
    match integer? word, float? word with
    | some n, _ =>
        if Signed64.Fits n then .ok (.integer n)
        else .error s!"{String.ofList word} does not fit into 64 bits"
    | none, some x => .ok (.number x)
    | none, none => .error s!"{String.ofList word} is not a value"

/-- The most parts that a key has, and the most lists and tables within a line that stand inside
each other. -/
def maxNesting : Nat := 79

def keyOfAtMost : (parts : Nat) → Scan (List String)
  | 0 => throw "key is too long"
  | parts + 1 => do
      skipBlanks
      let first ← keyPart
      skipBlanks
      if ← accept ['.'] then return first :: (← keyOfAtMost parts)
      return [first]

def key : Scan (List String) := keyOfAtMost maxNesting

mutual

/-- A value. `nesting` says how many more lists and tables can stand inside each other, and `size`
bounds how many values follow one another. -/
def value (nesting : Nat) : (size : Nat) → Scan Value
  | 0 => throw "value is too large"
  | size + 1 => do
      match ← peek? with
      | some '"' => return .text (← text)
      | some '\'' => return .text (← text)
      | some '[' => do
          skip 1
          if nesting = 0 then throw "value is nested too deep"
          return .list (← items (nesting - 1) size)
      | some '\x7b' => do
          skip 1
          if nesting = 0 then throw "value is nested too deep"
          skipBlanks
          if ← accept ['}'] then return .record []
          fields (nesting - 1) size (.record [])
      | _ => bareValue (← takeWhile fun c => !endsWord c)

def items (nesting : Nat) : (size : Nat) → Scan (List Value)
  | 0 => throw "list is too long"
  | size + 1 => do
      skipGaps
      if ← accept [']'] then return []
      let first ← value nesting size
      skipGaps
      if ← accept [','] then return first :: (← items nesting size)
      expect ']'
      return [first]

def fields (nesting : Nat) : (size : Nat) → (table : Value) → Scan Value
  | 0, _ => throw "table is too long"
  | size + 1, table => do
      let path ← key
      expect '='
      skipBlanks
      let content ← value nesting size
      let table ← assign path content table
      skipBlanks
      if ← accept [','] then return ← fields nesting size table
      expect '}'
      return table

end

/-- A document while it is being read: what it holds so far, the table under which keys go, and the
headers that can not come again. -/
structure Draft where
  content : Value
  table : List String
  headers : List (List String)

def statement (size : Nat) (draft : Draft) : Scan Draft := do
  if ← accept ['[', '['] then
    let path ← key
    expect ']'
    expect ']'
    endLine
    let headers := draft.headers.filter fun other => !path.isPrefixOf other
    return { content := ← addTable path draft.content, table := path, headers }
  else if ← accept ['['] then
    let path ← key
    expect ']'
    endLine
    if draft.headers.contains path then throw (dotted path ++ " is opened twice")
    return {
      content := ← openTable path draft.content
      table := path
      headers := path :: draft.headers }
  else
    let path ← key
    expect '='
    skipBlanks
    let content ← value maxNesting size
    endLine
    return { draft with content := ← assign (draft.table ++ path) content draft.content }

/-- Reads statements until the document ends. Each one takes at least one character, so `count` may
be the length of the document. -/
def statements (size : Nat) : (count : Nat) → Draft → Scan Value
  | 0, draft => return draft.content
  | count + 1, draft => do
      skipGaps
      if (← get).isEmpty then return draft.content
      statements size count (← statement size draft)

def document (source : String) : Except String Value := do
  let chars := source.toList
  let bound := chars.length + 1
  let (content, _) ← statements bound bound ⟨.record [], [], []⟩ chars
  return content

end Toml

end AdaptiveMesh
