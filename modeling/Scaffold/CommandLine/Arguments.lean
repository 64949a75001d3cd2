import Scaffold.Pass

/-!
What a command line asks for. One argument is taken after the other; an option may wait for the
argument behind it as its value.
-/
namespace Scaffold.CommandLine

inductive Command where
  | generate
  | check
  | types
deriving DecidableEq, Repr

/-- An option with a value. -/
inductive Choice where
  | metadata
  | config
  | language
  | output
deriving DecidableEq, Repr

inductive Task where
  | generate (output : String)
  | check
  /-- Without a file the definitions are printed. -/
  | types (output : Option String)
deriving DecidableEq, Repr

structure Request where
  task : Task
  metadata : String
  /-- The settings file. -/
  config : String
  language : String
deriving DecidableEq, Repr

/-- Why a command line asks for no pass. -/
inductive Refusal where
  | help
  | misuse
deriving DecidableEq, Repr

namespace Command

def ofName? (name : String) : Option Command :=
  [("generate", .generate), ("check", .check), ("types", .types)].lookup name

def takes (c : Command) (choice : Choice) : Bool := choice ≠ .output || c ≠ .check

end Command

namespace Choice

def ofName? (name : String) : Option Choice :=
  [("metadata", .metadata), ("config", .config), ("language", .language),
    ("output", .output)].lookup name

def ofLetter? (letter : Char) : Option Choice :=
  [('m', .metadata), ('c', .config), ('l', .language), ('o', .output)].lookup letter

/-- The value is a path, which has to have a character. -/
def isPath (choice : Choice) : Bool := choice ≠ .language

end Choice

/-- The arguments of a command so far. -/
structure Reading where
  command : Command
  given : List (Choice × String)
  /-- The option whose value comes next. -/
  pending : Option Choice
  /-- Two dashes were seen: no option may follow. -/
  isClosed : Bool
deriving Repr

namespace Reading

/-- Every option is given at most once. -/
def give (r : Reading) (choice : Choice) (value : String) : Except Refusal Reading :=
  if (r.given.lookup choice).isSome ∨ (choice.isPath ∧ value = "") then .error .misuse
  else .ok { r with given := (choice, value) :: r.given, pending := none }

def accept (r : Reading) (found : Option Choice) : Except Refusal Choice :=
  match found with
  | some choice => if r.command.takes choice then .ok choice else .error .misuse
  | none => .error .misuse

/-- Takes the letters behind a dash. The letter of an option may be followed by its value, with
or without a sign of equality between. -/
def letters (r : Reading) : List Char → Except Refusal Reading
  | [] => .ok r
  | 'v' :: rest => r.letters rest
  | 'h' :: _ => .error .help
  | c :: rest => do
    let choice ← r.accept (Choice.ofLetter? c)
    match rest with
    | [] => pure { r with pending := some choice }
    | '=' :: value => r.give choice (String.ofList value)
    | value => r.give choice (String.ofList value)

/-- Takes the word behind two dashes. -/
def word (r : Reading) (s : List Char) : Except Refusal Reading :=
  let name := String.ofList (s.takeWhile (· ≠ '='))
  match s.dropWhile (· ≠ '=') with
  | [] =>
    if name = "verbose" then .ok r
    else if name = "help" then .error .help
    else do
      let choice ← r.accept (Choice.ofName? name)
      pure { r with pending := some choice }
  | _ :: value => do
    let choice ← r.accept (Choice.ofName? name)
    r.give choice (String.ofList value)

def step (r : Reading) (argument : String) : Except Refusal Reading :=
  if r.isClosed then .error .misuse
  else
    match argument.toList, r.pending with
    | ['-', '-'], none => .ok { r with isClosed := true }
    | '-' :: '-' :: s, none => r.word s
    | '-' :: c :: s, none => r.letters (c :: s)
    | '-' :: _ :: _, some _ => .error .misuse
    | _, some choice => r.give choice argument
    | _, none => .error .misuse

def steps (r : Reading) : List String → Except Refusal Reading
  | [] => .ok r
  | argument :: rest => do
    let r ← r.step argument
    r.steps rest

def request (r : Reading) : Except Refusal Request :=
  if r.pending.isSome then .error .misuse
  else
    let value (choice : Choice) (other : String) : String := (r.given.lookup choice).getD other
    let task : Task :=
      match r.command with
      | .generate => .generate (value .output Job.standard.output)
      | .check => .check
      | .types => .types (r.given.lookup .output)
    .ok ⟨task, value .metadata Job.standard.metadata, value .config "modelgen.toml",
      value .language Job.standard.language⟩

end Reading

/-- Help may be asked for by a command's name. -/
def helpOn : List String → Refusal
  | [] => .help
  | [name] => if name = "help" ∨ (Command.ofName? name).isSome then .help else .misuse
  | _ => .misuse

/-- The flags in front of the command: the letters behind a dash. -/
def flags : List Char → Except Refusal Unit
  | [] => .ok ()
  | 'v' :: rest => flags rest
  | 'h' :: _ => .error .help
  | _ => .error .misuse

def flag (argument : String) : Except Refusal Unit :=
  if argument = "--verbose" then .ok ()
  else if argument = "--help" then .error .help
  else
    match argument.toList with
    | '-' :: c :: s => flags (c :: s)
    | _ => .error .misuse

/-- Reads a command line. -/
def parse : List String → Except Refusal Request
  | [] => .error .misuse
  | argument :: rest =>
    match Command.ofName? argument with
    | some command => do
      let r ← (Reading.mk command [] none false).steps rest
      r.request
    | none =>
      if argument = "help" then .error (helpOn rest)
      else do
        flag argument
        parse rest

end Scaffold.CommandLine
