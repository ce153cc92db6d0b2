import SignatureCache.Number.Reading
import SignatureCache.Path.Basic
import SignatureCache.Text.Blank
import SignatureCache.Text.Separated

/-!
# Tables of increments

A file of increments has one row to a line: the parameter and the coordinates of an increment, with
commas between them. Blank lines and lines that start with `#` are passed over, and blanks around a
line or a number do not matter. The first row fixes the number of coordinates.

Lines are read in order and the first fault ends the reading; only a file whose rows are all sound
is looked at as a whole.
-/

namespace SignatureCache

/-- Why a file gives no path. -/
inductive TableError where
  | missing
  | notText
  | number (field : String) (line : Nat) (cause : Decimal.ReadError)
  | coordinateCount (line found expected : Nat)
  | noRows
  | path (cause : PathError)
deriving DecidableEq

/-- The error's texts, from what was attempted down to the cause. -/
def TableError.messages (file : String) : TableError → List String
  | .missing => [s!"failed to open {file}", "No such file or directory (os error 2)"]
  | .notText => ["stream did not contain valid UTF-8"]
  | .number field line cause => [s!"invalid number '{field}' on line {line}", cause.message]
  | .coordinateCount line found expected =>
    [s!"line {line} has {found} coordinates, expected {expected}"]
  | .noRows => [s!"no increments in {file}"]
  | .path cause => [s!"invalid path data in {file}", (Error.path cause).message]

namespace Path

/-- The increment of one line. -/
structure Row where
  parameter : Float
  coordinates : List Float

namespace Row

/-- Cuts a file into lines. A line break ends a line, so the last one opens none. -/
def lines (bytes : List UInt8) : List (List UInt8) :=
  let pieces := Separated.pieces 10 bytes
  if pieces.getLast? = some [] then pieces.dropLast else pieces

/-- Reads one number of a line. -/
def readField (line : Nat) (field : List Char) : Except TableError Float :=
  let field := String.ofList (Blank.trim field)
  match Decimal.read field with
  | .ok x => .ok x
  | .error cause => .error (.number field line cause)

/-- Reads one line; blank lines and remarks hold no row. -/
def readLine (line : Nat) (bytes : List UInt8) : Except TableError (Option Row) := do
  let some text := String.fromUTF8? ⟨bytes.toArray⟩ | throw .notText
  let cs := Blank.trim text.toList
  if cs.isEmpty || cs.head? == some '#' then return none
  match ← (Separated.pieces ',' cs).mapM (readField line) with
  | parameter :: coordinates => return some ⟨parameter, coordinates⟩
  | [] => return none

/-- Reads lines from the given number on; rows have as many coordinates as expected, and the first
one says how many that is. -/
def readLines (line : Nat) (expected? : Option Nat) :
    List (List UInt8) → Except TableError (List Row)
  | [] => .ok []
  | bytes :: rest => do
    match ← readLine line bytes with
    | none => readLines (line + 1) expected? rest
    | some row =>
      let found := row.coordinates.length
      let expected := expected?.getD found
      if found ≠ expected then throw (.coordinateCount line found expected)
      return row :: (← readLines (line + 1) (some expected) rest)

end Row

/-- Loads a path from the content of a file, cut off at the given depth. -/
def ofTable? (content? : Option (List UInt8)) (depth : Nat) : Except TableError (Path Float) := do
  let some content := content? | throw .missing
  let rows ← Row.readLines 1 none (Row.lines content)
  let some first := rows.head? | throw .noRows
  match Path.ofData? first.coordinates.length depth (rows.map Row.parameter)
      (rows.flatMap Row.coordinates) with
  | .ok path => return path
  | .error cause => throw (.path cause)

end Path

end SignatureCache
