import BpfLanes.Dump
import BpfLanes.Optimize
import BpfLanes.Rom
import BpfLanes.Text.Integer

/-! # The command line

`-i` names the dump to compile and `-o` the image to write. An option takes
its value from the rest of its argument or from the next one; long names may
be cut short as long as they stay clear; the last value of an option counts.
-/

namespace BpfLanes.Cli

/-! ## Arguments -/

/-- The options of the command line. -/
inductive Opt where
  | help
  | input
  | output
  deriving DecidableEq, Repr, Inhabited

/-- What the arguments ask for. -/
structure Request where
  input : String
  output : Option String
  deriving DecidableEq, Repr, Inhabited

/-- What came of reading the arguments. -/
inductive Outcome where
  | request (r : Request)
  | help
  | invalid
  deriving DecidableEq, Repr, Inhabited

def longNames : List (String × Opt) :=
  [("--help", .help), ("--input", .input), ("--output", .output)]

def short? : Char → Option Opt
  | 'h' => some .help
  | 'i' => some .input
  | 'o' => some .output
  | _ => none

/-- What one argument is. -/
inductive Argument where
  /-- an option whose value, if it takes one, is the next argument -/
  | option (o : Opt)
  | valued (o : Opt) (value : String)
  /-- a request for help with more short options behind it -/
  | cluster (rest : List Char)
  /-- a request for help with a value, which it does not take -/
  | misused
  | unknown
  /-- an option cut so short that it could be several -/
  | unclear
  /-- the mark after which nothing is an option -/
  | marker
  | plain (s : String)
  deriving DecidableEq, Repr, Inhabited

/-- The text before an equals sign and the text after it. -/
def cutAtEquals (s : String) : String × Option String :=
  let cs := s.toList
  let before := cs.takeWhile (· != '=')
  match cs.dropWhile (· != '=') with
  | _ :: after => (String.ofList before, some (String.ofList after))
  | [] => (s, none)

def isDigit (c : Char) : Bool :=
  (Integer.decimalDigit? c).isSome

/-- Whether a text is a negative number: a minus sign and digits, perhaps with a
    point among or before them, and perhaps a line end. -/
def isNegativeNumber (s : String) : Bool :=
  let cs := s.toList
  let cs := if cs.getLast? == some '\n' then cs.dropLast else cs
  match cs with
  | '-' :: rest =>
    match rest.dropWhile isDigit with
    | [] => !rest.isEmpty
    | '.' :: after => !after.isEmpty && after.all isDigit
    | _ => false
  | _ => false

/-- A text that looks like an option and is none: a negative number or a text with
    a blank is plain. -/
def noOption (s : String) : Argument :=
  if isNegativeNumber s || s.contains ' ' then .plain s else .unknown

/-- What a long option is: it may be cut short if only one name starts like it. -/
def long (s : String) : Argument :=
  let (name, value) := cutAtEquals s
  match longNames.filter fun n => n.1.startsWith name, value with
  | [], _ => noOption s
  | [(_, o)], none => .option o
  | [(_, .help)], some _ => .misused
  | [(_, o)], some v => .valued o v
  | _, _ => .unclear

/-- What an argument with one dash is. The value of a short option stands right
    behind it, perhaps after an equals sign. -/
def dashed (s : String) (c : Char) (rest : List Char) : Argument :=
  match short? c, rest with
  | none, _ => noOption s
  | some o, [] => .option o
  | some .help, '=' :: _ => .misused
  | some .help, _ => .cluster rest
  | some o, '=' :: value => .valued o (String.ofList value)
  | some o, _ => .valued o (String.ofList rest)

def classify (s : String) : Argument :=
  match s.toList with
  | ['-', '-'] => .marker
  | '-' :: '-' :: _ => long s
  | '-' :: c :: rest => dashed s c rest
  | _ => .plain s

/-- What the arguments are; after the mark all are plain. -/
def classifyAll : List String → List Argument
  | [] => []
  | s :: rest =>
    match classify s with
    | .marker => .marker :: rest.map Argument.plain
    | a => a :: classifyAll rest

/-- What the short options behind a request for help make of it, given the next
    argument. -/
def cluster (next : Option Argument) : List Char → Outcome
  | [] => .help
  | c :: rest =>
    if c == '-' then .invalid
    else match short? c with
      | none => .help
      | some .help =>
        match rest with
        | '=' :: _ => .invalid
        | _ => cluster next rest
      | some _ =>
        match rest, next with
        | [], some (.plain _) => .help
        | [], _ => .invalid
        | _, _ => .help

/-- The values found so far, and whether an argument was left over. -/
structure Found where
  input : Option String := none
  output : Option String := none
  leftOver : Bool := false
  deriving DecidableEq, Repr, Inhabited

def Found.keep (f : Found) (o : Opt) (value : String) : Found :=
  match o with
  | .input => { f with input := some value }
  | .output => { f with output := some value }
  | .help => f

/-- Reads arguments from the left. The first one that asks for help or is wrong
    decides; arguments left over are wrong at the end. -/
def scan (f : Found) : List Argument → Outcome
  | [] =>
    match f.input, f.leftOver with
    | some input, false => .request { input, output := f.output }
    | _, _ => .invalid
  | .option .help :: _ => .help
  | .option o :: .plain value :: rest => scan (f.keep o value) rest
  | .option _ :: _ => .invalid
  | .valued o value :: rest => scan (f.keep o value) rest
  | .cluster more :: rest => cluster rest.head? more
  | .misused :: _ => .invalid
  | _ :: rest => scan { f with leftOver := true } rest

/-- Reads the arguments. An option that is not clear is wrong wherever it stands. -/
def parse (arguments : List String) : Outcome :=
  let known := classifyAll arguments
  if known.contains .unclear then .invalid else scan {} known

def help : String :=
  "usage: parallelizer.py [-h] -i INPUT [-o OUTPUT]\n\nParallelize eBPF program\n\noptions:\n"
    ++ "  -h, --help            show this help message and exit\n"
    ++ "  -i INPUT, --input INPUT\n                        eBPF dump input file name\n"
    ++ "  -o OUTPUT, --output OUTPUT\n                        parallelized bin file name\n"

/-! ## Names of files -/

/-- A path without its extension: the last dot of the last name starts it, unless
    only dots stand before that dot. -/
def stem (path : String) : String :=
  let cs := path.toList
  let base := (cs.reverse.takeWhile (· != '/')).reverse
  let folder := cs.take (cs.length - base.length)
  let dots := base.takeWhile (· == '.')
  let rest := base.drop dots.length
  let after := (rest.reverse.takeWhile (· != '.')).reverse
  if after.length = rest.length then path
  else String.ofList (folder ++ dots ++ rest.take (rest.length - after.length - 1))

def Request.file (r : Request) : String :=
  (r.output.getD (stem r.input ++ ".bin")) ++ ".out"

/-! ## Running -/

/-- What a run prints, writes and ends with. -/
structure Run where
  printed : String := ""
  written : Option (String × String) := none
  fault : Option Fault := none
  deriving Repr, Inhabited

def Request.options (r : Request) : Options :=
  { name := some (stem r.input), branchAllLanes := false, forwardInLane := true }

def slotWords (c : Compilation) : List (List (Option Word)) :=
  c.table.toList.map fun row => row.toList.map fun slot =>
    (slot.bind fun id => c.store[id]?).map Instr.word

/-- Compiles the code of a program for a request and writes the image. What was
    written before a fault stays. -/
def compile (r : Request) (code : List (Word × String)) : Run :=
  let start := Compilation.start {} r.options (code.map Prod.fst).toArray
    (code.map Prod.snd).toArray
  match Optimize.run.run start with
  | .error e c => { printed := c.printed, fault := some e }
  | .ok _ c =>
    match (Rom.write (slotWords c)).run {} with
    | .ok _ w => { printed := c.printed ++ w.printed, written := some (r.file, w.file) }
    | .error e w =>
      { printed := c.printed ++ w.printed, written := some (r.file, w.file), fault := some e }

def run (file : String → Option String) (arguments : List String) : Run :=
  match parse arguments with
  | .help => { printed := help, fault := some (.halted 0) }
  | .invalid => { fault := some (.halted 2) }
  | .request r =>
    match file r.input with
    | none => { fault := some .noFile }
    | some dump => compile r (Dump.read dump)

end BpfLanes.Cli
