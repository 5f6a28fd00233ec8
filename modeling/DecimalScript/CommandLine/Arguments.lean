import DecimalScript.Text.Digit
import DecimalScript.Text.Shown

/-! The arguments of the command line: a script and its variables in one row, and
options anywhere around them. -/

namespace DecimalScript.CommandLine

/-! ### Options -/

inductive Flag where
  | help | trace
  deriving DecidableEq, Repr

def Flag.title : Flag → String
  | help => "-h/--help"
  | trace => "--trace"

def spellings : List (String × Flag) := [("-h", .help), ("--help", .help), ("--trace", .trace)]

inductive Complaint where
  | missing
  | unrecognized (items : List String)
  | ignoredArgument (flag : Flag) (text : String)
  | ambiguous (item : String) (spellings : List String)
  deriving DecidableEq, Repr

def Complaint.message : Complaint → String
  | missing => "the following arguments are required: script, vars"
  | unrecognized items => "unrecognized arguments: " ++ " ".intercalate items
  | ignoredArgument flag text =>
    "argument " ++ flag.title ++ ": ignored explicit argument " ++ Text.shown text
  | ambiguous item spellings =>
    "ambiguous option: " ++ item ++ " could match " ++ ", ".intercalate spellings

/-- What an argument is. -/
inductive Kind where
  | positional
  /-- The mark after which no argument is an option. -/
  | divider
  /-- An option; `short` tells the spelling of one letter. -/
  | option (flag : Flag) (short : Bool) (argument : Option String)
  | unknown
  deriving DecidableEq, Repr

/-- The part before the first equals sign and the part after it, if there is one. -/
def splitEquals (item : String) : String × Option String :=
  let chars := item.toList
  let before := String.ofList (chars.takeWhile (· != '='))
  match chars.dropWhile (· != '=') with
  | [] => (before, none)
  | _ :: after => (before, some (String.ofList after))

/-- A minus sign and a number. -/
def looksNegative (item : String) : Bool :=
  match item.toList with
  | '-' :: rest =>
    let rest := if rest.getLast? == some '\n' then rest.dropLast else rest
    match rest.dropWhile Text.isDigit with
    | [] => !rest.isEmpty
    | '.' :: digits => !digits.isEmpty && digits.all Text.isDigit
    | _ => false
  | _ => false

/-- The options that an argument may abbreviate: long ones by their first letters,
the short one with more letters after it. -/
def candidates (item : String) : List (String × Kind) :=
  match item.toList with
  | '-' :: '-' :: _ =>
    let (name, argument) := splitEquals item
    spellings.filterMap fun (spelling, flag) =>
      if name.toList.isPrefixOf (String.toList spelling) then
        some (spelling, .option flag false argument)
      else none
  | chars =>
    spellings.filterMap fun (spelling, flag) =>
      if chars.take 2 = String.toList spelling then
        some (spelling, .option flag true (some (String.ofList (chars.drop 2))))
      else none

/-- An argument that is no known spelling: an abbreviation, a negative number, a
text with blanks, or unknown. -/
def classifyOther (item : String) : Except Complaint Kind :=
  match candidates item with
  | [(_, kind)] => .ok kind
  | [] =>
    if looksNegative item || item.toList.contains ' ' then .ok .positional else .ok .unknown
  | several => .error (.ambiguous item (several.map (·.1)))

def classify (item : String) : Except Complaint Kind :=
  if !item.startsWith "-" || item = "-" then .ok .positional
  else
    match spellings.lookup item with
    | some flag => .ok (.option flag (item == "-h") none)
    | none =>
      let (name, argument) := splitEquals item
      match argument, spellings.lookup name with
      | some _, some flag => .ok (.option flag (name == "-h") argument)
      | _, _ => classifyOther item

def classifyAll : List String → Except Complaint (List (String × Kind))
  | [] => .ok []
  | item :: rest =>
    if item = "--" then .ok ((item, .divider) :: rest.map ((·, .positional)))
    else do
      let kind ← classify item
      return (item, kind) :: (← classifyAll rest)

/-! ### Reading the row -/

inductive Request where
  | help
  | run (script : String) (items : List String) (tracing : Bool)
  deriving DecidableEq, Repr

/-- What was read so far. -/
structure Reader where
  /-- The script and its variables, once they were found. -/
  found : Option (String × List String) := none
  extras : List String := []
  tracing : Bool := false

/-- The script and its variables in a row of arguments. A divider before or after
the script does not count, and neither does the first one among the variables. -/
def splitRow : List (String × Kind) → Option (String × List String)
  | [] => none
  | (_, .divider) :: rest => splitRow rest
  | (script, _) :: (_, .divider) :: rest => some (script, (rest.map (·.1)).erase "--")
  | (script, _) :: rest => some (script, (rest.map (·.1)).erase "--")

/-- Takes a row of arguments between two options. Only one row can have the script. -/
def Reader.takeRow (reader : Reader) (row : List (String × Kind)) : Reader :=
  match reader.found, splitRow row with
  | none, some found => { reader with found := some found }
  | _, _ => { reader with extras := reader.extras ++ row.map (·.1) }

/-- The letters after a short option are short options too; only `h` is one. -/
def shortLetters : List Char → Except Complaint Request
  | [] => .ok .help
  | letters@(c :: rest) =>
    if c = 'h' then shortLetters rest
    else .error (.ignoredArgument .help (String.ofList letters))

/-- Takes an option. The one for help ends the reading. -/
def Reader.takeOption (reader : Reader) (flag : Flag) (short : Bool) (argument : Option String) :
    Except Complaint (Reader ⊕ Request) :=
  match argument, flag with
  | none, .help => .ok (.inr .help)
  | none, .trace => .ok (.inl { reader with tracing := true })
  | some text, flag =>
    if short && text != "" then (shortLetters text.toList).map .inr
    else .error (.ignoredArgument flag text)

/-- The request, when all arguments were taken. -/
def Reader.finish (reader : Reader) : Except Complaint Request :=
  match reader.found with
  | none => .error .missing
  | some (script, items) =>
    if reader.extras.isEmpty then .ok (.run script items reader.tracing)
    else .error (.unrecognized reader.extras)

/-- Takes the arguments; `row` holds those since the last option. -/
def Reader.read (reader : Reader) (row : List (String × Kind)) :
    List (String × Kind) → Except Complaint Request
  | [] => (if row.isEmpty then reader else reader.takeRow row).finish
  | (item, kind) :: rest =>
    let flushed := if row.isEmpty then reader else reader.takeRow row
    match kind with
    | .positional | .divider => reader.read (row ++ [(item, kind)]) rest
    | .unknown => { flushed with extras := flushed.extras ++ [item] }.read [] rest
    | .option flag short argument =>
      match flushed.takeOption flag short argument with
      | .error complaint => .error complaint
      | .ok (.inr request) => .ok request
      | .ok (.inl reader) => reader.read [] rest

/-- What the arguments of the command line ask for. -/
def readArguments (items : List String) : Except Complaint Request := do
  ({} : Reader).read [] (← classifyAll items)

/-! ### Texts -/

def usage : String := "usage: cli.py [-h] [--trace] script [vars ...]\n"

def helpText : String :=
  usage ++ "\nRun DSL scripts.\n\npositional arguments:\n" ++
  "  script      Path to .clc script\n" ++
  "  vars        Variable overrides: name=value\n" ++
  "\noptions:\n" ++
  "  -h, --help  show this help message and exit\n" ++
  "  --trace     Enable trace mode for debugging\n"

def Complaint.report (complaint : Complaint) : String :=
  usage ++ "cli.py: error: " ++ complaint.message ++ "\n"

end DecimalScript.CommandLine
