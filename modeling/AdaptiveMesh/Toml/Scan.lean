/-!
# Scanning TOML

The lexical parts of a TOML document: gaps between statements, keys, texts, and the bare words that
stand for numbers and truth values. A scanner takes characters off the front of what is left of the
document. Dates and times are not scanned.
-/

namespace AdaptiveMesh

set_option autoImplicit false

namespace Toml

/-- Takes characters off the front of a text, or says what is wrong with it. -/
abbrev Scan (α : Type) := StateT (List Char) (Except String) α

def isBlank (c : Char) : Bool := c = ' ' || c = '\t'

def isKeyChar (c : Char) : Bool := c.isAlphanum || c = '_' || c = '-'

def endsWord (c : Char) : Bool :=
  isBlank c || c = '\n' || c = '\r' || c = ',' || c = ']' || c = '}' || c = '#'

def afterGaps : (inComment : Bool) → List Char → List Char
  | _, [] => []
  | true, c :: rest => afterGaps (c ≠ '\n') rest
  | false, c :: rest =>
      if c = '#' then afterGaps true rest
      else if isBlank c || c = '\n' || c = '\r' then afterGaps false rest
      else c :: rest

def skipGaps : Scan Unit := modify (afterGaps false)

def skipBlanks : Scan Unit := modify (·.dropWhile isBlank)

def peek? : Scan (Option Char) := do return (← get).head?

def skip (count : Nat) : Scan Unit := modify (·.drop count)

def takeWhile (p : Char → Bool) : Scan (List Char) :=
  modifyGet fun rest => (rest.takeWhile p, rest.dropWhile p)

def expect (c : Char) : Scan Unit := do
  if (← peek?) = some c then skip 1 else throw s!"expected {c}"

def accept (wanted : List Char) : Scan Bool := do
  if wanted.isPrefixOf (← get) then
    skip wanted.length
    return true
  else return false

def endLine : Scan Unit := do
  skipBlanks
  if (← peek?) = some '#' then
    let _ ← takeWhile (· ≠ '\n')
  if ← accept ['\r', '\n'] then return
  if ← accept ['\n'] then return
  if (← get).isEmpty then return
  throw "expected the end of a line"

def digit? (base : Nat) (c : Char) : Option Nat :=
  let value :=
    if '0' ≤ c ∧ c ≤ '9' then some (c.toNat - '0'.toNat)
    else if 'a' ≤ c ∧ c ≤ 'f' then some (c.toNat - 'a'.toNat + 10)
    else if 'A' ≤ c ∧ c ≤ 'F' then some (c.toNat - 'A'.toNat + 10)
    else none
  value.filter (· < base)

def number? (base : Nat) (digits : List Char) : Option Nat :=
  if digits.isEmpty then none
  else digits.foldlM (fun n c => (digit? base c).map (base * n + ·)) 0

def codePoint? (digits : List Char) : Option Char := do
  let code ← number? 16 digits
  if h : code.isValidChar then some (Char.ofNatAux code h) else none

def escape? : Char → Option Char
  | 'b' => some '\x08'
  | 't' => some '\t'
  | 'n' => some '\n'
  | 'f' => some '\x0c'
  | 'r' => some '\r'
  | '"' => some '"'
  | '\\' => some '\\'
  | _ => none

/-- The rest of a text in double quotes, and what follows it. `long` texts end at three quotes and
may go over several lines; a backslash at the end of a line joins it to the next word, and
`joining` holds until that word. -/
def quoted (long : Bool) : (joining : Bool) → List Char → Except String (List Char × List Char)
  | _, [] => .error "text is not closed"
  | _, '"' :: rest =>
      if !long then .ok ([], rest)
      else
        match rest with
        | '"' :: '"' :: '"' :: _ => do
            let (text, after) ← quoted long false rest
            return ('"' :: text, after)
        | '"' :: '"' :: after => .ok ([], after)
        | _ => do
            let (text, after) ← quoted long false rest
            return ('"' :: text, after)
  | _, '\\' :: 'u' :: a :: b :: c :: d :: rest => do
      let some char := codePoint? [a, b, c, d] | throw "no such character"
      let (text, after) ← quoted long false rest
      return (char :: text, after)
  | _, '\\' :: 'U' :: a :: b :: c :: d :: e :: f :: g :: h :: rest => do
      let some char := codePoint? [a, b, c, d, e, f, g, h] | throw "no such character"
      let (text, after) ← quoted long false rest
      return (char :: text, after)
  | _, '\\' :: c :: rest =>
      match escape? c with
      | some char => do
          let (text, after) ← quoted long false rest
          return (char :: text, after)
      | none =>
          if long && (isBlank c || c = '\n' || c = '\r') then quoted long true rest
          else .error "unknown escape"
  | joining, c :: rest =>
      if joining && (isBlank c || c = '\n' || c = '\r') then quoted long true rest
      else if !long && c = '\n' then .error "text is not closed"
      else do
        let (text, after) ← quoted long false rest
        return (c :: text, after)

def literal (long : Bool) : List Char → Except String (List Char × List Char)
  | [] => .error "text is not closed"
  | '\'' :: rest =>
      if !long then .ok ([], rest)
      else
        match rest with
        | '\'' :: '\'' :: '\'' :: _ => do
            let (text, after) ← literal long rest
            return ('\'' :: text, after)
        | '\'' :: '\'' :: after => .ok ([], after)
        | _ => do
            let (text, after) ← literal long rest
            return ('\'' :: text, after)
  | c :: rest =>
      if !long && c = '\n' then .error "text is not closed"
      else do
        let (text, after) ← literal long rest
        return (c :: text, after)

/-- A text in quotes of either kind. The line end right after three opening quotes is not part of
it. -/
def text : Scan String := do
  let body (read : List Char → Except String (List Char × List Char)) : Scan String := do
    let (chars, after) ← read (← get)
    set after
    return String.ofList chars
  let opened : Scan Unit := do
    unless ← accept ['\r', '\n'] do
      let _ ← accept ['\n']
  if ← accept ['"', '"', '"'] then
    opened
    body (quoted true false)
  else if ← accept ['"'] then body (quoted false false)
  else if ← accept ['\'', '\'', '\''] then
    opened
    body (literal true)
  else
    expect '\''
    body (literal false)

def keyPart : Scan String := do
  match ← peek? with
  | some '"' => text
  | some '\'' => text
  | _ =>
      let word ← takeWhile isKeyChar
      if word.isEmpty then throw "expected a key"
      return String.ofList word

/-- Drops the underscores of a number, each of which must stand between two digits. -/
def withoutUnderscores (isDigit : Char → Bool) : (afterDigit : Bool) → List Char → Option (List Char)
  | _, [] => some []
  | true, '_' :: c :: rest =>
      if isDigit c then (withoutUnderscores isDigit true rest).map (c :: ·) else none
  | _, c :: rest =>
      if c = '_' then none
      else (withoutUnderscores isDigit (isDigit c) rest).map (c :: ·)

end Toml

end AdaptiveMesh
