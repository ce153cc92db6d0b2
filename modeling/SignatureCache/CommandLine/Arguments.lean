import SignatureCache.Number.Reading
import SignatureCache.Number.Word
import SignatureCache.DyadicInterval.Basic

/-!
# Arguments

A command line is a command name followed by a file and by options, in any order. An option that
takes a value has it after `=` or as the next argument. An argument that starts with a hyphen is an
option, so a value that does can only be given after `=`, except for the options that may be
negative integers. After `--` there are no more options. No option may be given twice.
-/

namespace SignatureCache

namespace CommandLine

/-- What an option takes. -/
inductive OptionKind where
  | flag
  /-- A value; `hyphen` tells whether the next argument is the value even if it looks like an
  option. -/
  | value (hyphen : Bool)

/-- The arguments of a command, sorted. -/
structure Sorted where
  flags : List String := []
  values : List (String × String) := []
  positionals : List String := []

/-- Whether an argument can be the value of an option that takes no hyphens. -/
def isPlain (argument : String) : Bool :=
  argument == "-" || !argument.startsWith "-"

/-- The name of a long option, and its value if one is attached. -/
def splitLong (argument : String) : String × Option String :=
  let cs := argument.toList.drop 2
  let name := cs.takeWhile (· ≠ '=')
  match cs.dropWhile (· ≠ '=') with
  | _ :: value => (String.ofList name, some (String.ofList value))
  | [] => (String.ofList name, none)

/-- The flags in a group of short options; the only short option asks for a verbose log. -/
def shortFlags? (argument : String) : Option (List String) :=
  let letters := argument.toList.drop 1
  if letters.all (· == 'v') then some (letters.map fun _ => "verbose") else none

/-- Sorts the arguments of a command whose options are of the given kinds. -/
def sort? (kind? : String → Option OptionKind) : List String → Option Sorted
  | [] => some {}
  | "--" :: rest => some { positionals := rest }
  | argument :: rest =>
    if argument.startsWith "--" then
      let (name, attached?) := splitLong argument
      match kind? name, attached? with
      | some .flag, none => do
        let sorted ← sort? kind? rest
        return { sorted with flags := name :: sorted.flags }
      | some (.value _), some value => do
        let sorted ← sort? kind? rest
        return { sorted with values := (name, value) :: sorted.values }
      | some (.value hyphen), none =>
        match rest with
        | value :: rest =>
          if hyphen || isPlain value then do
            let sorted ← sort? kind? rest
            return { sorted with values := (name, value) :: sorted.values }
          else none
        | [] => none
      | _, _ => none
    else if isPlain argument then do
      let sorted ← sort? kind? rest
      return { sorted with positionals := argument :: sorted.positionals }
    else do
      let flags ← shortFlags? argument
      let sorted ← sort? kind? rest
      return { sorted with flags := flags ++ sorted.flags }

/-- Whether every option is given at most once. -/
def Sorted.singleUse (s : Sorted) : Bool :=
  decide (s.flags.Nodup) && decide ((s.values.map Prod.fst).Nodup)

/-- The value given for an option. -/
def Sorted.value? (s : Sorted) (name : String) : Option String :=
  s.values.lookup name

/-- The only positional argument, the name of a file. -/
def Sorted.file? (s : Sorted) : Option String :=
  match s.positionals with
  | [file] => if file.isEmpty then none else some file
  | _ => none

/-- Reads an integer in decimal digits with an optional sign, if it fits. -/
def readInteger? (fits : Int → Bool) (text : String) : Option Int :=
  let (negative, cs) := Decimal.splitSign text.toList
  let (digits, rest) := Decimal.splitDigits cs
  if digits.isEmpty || !rest.isEmpty then none
  else
    let n : Int := Decimal.digitsValue digits
    let n := if negative then -n else n
    if fits n then some n else none

/-- Reads a power or a resolution. -/
def readPower? : String → Option Int :=
  readInteger? Word.fits32

/-- Reads a depth, a number from 0 to 255. Minus zero is one too. -/
def readDepth? (text : String) : Option Nat :=
  (readInteger? (fun n => decide (0 ≤ n) && decide (n ≤ 0xff)) text).map Int.toNat

/-- Reads a count, a number of up to 64 bits without a minus sign. -/
def readCount? (text : String) : Option Nat :=
  if text.startsWith "-" then none
  else (readInteger? (fun n => decide (n ≤ 0xffffffffffffffff)) text).map Int.toNat

/-- Reads a number. -/
def readNumber? (text : String) : Option Float :=
  (Decimal.read text).toOption

/-- The file to load and how. -/
structure Input where
  file : String
  depth : Nat
  exact : Bool

/-- What to compute from the path of the file. -/
inductive Task where
  /-- The log-signature over `[start, stop)`, several times in a row. -/
  | real (start stop : Float) (resolution : Int) (rounds : Nat) (maxResolution : Int)
  | dyadic (interval : DyadicInterval) (resolution : Int)

/-- A command line that makes sense. -/
structure Request where
  input : Input
  task : Task

/-- An option's value as read, or its default if the option is absent. -/
def Sorted.read? {α : Type} (s : Sorted) (name : String) (read : String → Option α)
    (default? : Option α) : Option α :=
  match s.value? name with
  | some text => read text
  | none => default?

/-- The options that say what to load. -/
def Sorted.input? (s : Sorted) : Option Input := do
  let file ← s.file?
  let depth ← s.read? "depth" readDepth? (some 2)
  return ⟨file, depth, s.flags.contains "exact"⟩

/-- The options of the command for real intervals. -/
def queryKind? : String → Option OptionKind
  | "verbose" | "exact" => some .flag
  | "start" | "end" | "resolution" | "depth" | "repeat" | "max-resolution" => some (.value false)
  | _ => none

/-- The options of the command for dyadic intervals. -/
def dyadicKind? : String → Option OptionKind
  | "verbose" | "exact" => some .flag
  | "resolution" | "depth" => some (.value false)
  | "offset" | "power" => some (.value true)
  | _ => none

/-- Reads the arguments of the command for real intervals. -/
def readQuery? (arguments : List String) : Option Request := do
  let s ← sort? queryKind? arguments
  guard s.singleUse
  let input ← s.input?
  let start ← s.read? "start" readNumber? none
  let stop ← s.read? "end" readNumber? none
  let resolution ← s.read? "resolution" readPower? (some 8)
  let rounds ← s.read? "repeat" readCount? (some 1)
  let maxResolution ← s.read? "max-resolution" readPower? (some 32)
  return ⟨input, .real start stop resolution rounds maxResolution⟩

/-- Reads the arguments of the command for dyadic intervals. -/
def readDyadic? (arguments : List String) : Option Request := do
  let s ← sort? dyadicKind? arguments
  guard s.singleUse
  let input ← s.input?
  let offset ← s.read? "offset" (readInteger? Word.fits64) none
  let power ← s.read? "power" readPower? none
  let resolution ← s.read? "resolution" readPower? (some 8)
  return ⟨input, .dyadic ⟨offset, power⟩ resolution⟩

/-- Reads a command line without the program's name; the log may be asked for before the command. -/
def read? (arguments : List String) : Option Request :=
  match arguments with
  | "-v" :: rest | "--verbose" :: rest => command? rest
  | _ => command? arguments
where
  command? : List String → Option Request
    | "query" :: rest => readQuery? rest
    | "dyadic" :: rest => readDyadic? rest
    | _ => none

end CommandLine

end SignatureCache
