import TableScript.Program

/-!
# The command line

The arguments of the command ask for help or name a program file, with an optional limit on
nested calls.  What the command prints and the code that it exits with are computed here from the
arguments, the file and the input; reading and printing them is left to `main`.
-/

namespace TableScript.CommandLine

/-! ## Arguments -/

/-- What the arguments ask for. -/
inductive Request where
  | help
  /-- The arguments make no sense. -/
  | refuse (message : String)
  | run (path : String) (callLimit : Nat)

/-- Why an argument is no limit. -/
inductive LimitProblem where
  | empty | invalidDigit | tooLarge

/-- The message about an argument that is no limit. -/
def LimitProblem.message : LimitProblem → String
  | empty => "cannot parse integer from empty string"
  | invalidDigit => "invalid digit found in string"
  | tooLarge => "number too large to fit in target type"

/-- Reads digits from left to right; the first character that is no digit, or that makes the
number too large for 64 bits, decides what is wrong. -/
def readDigits (value : Nat) : List Char → Except LimitProblem Nat
  | [] => .ok value
  | digit :: rest =>
    if digit.isDigit then
      let next := 10 * value + (digit.toNat - '0'.toNat)
      if Nat.pow 2 64 ≤ next then .error .tooLarge else readDigits next rest
    else .error .invalidDigit

/-- Reads a limit, which may have a plus sign. -/
def readLimit : List Char → Except LimitProblem Nat
  | [] => .error .empty
  | ['+'] => .error .invalidDigit
  | '+' :: digits => readDigits 0 digits
  | digits => readDigits 0 digits

/-- The option that sets the limit on nested calls. -/
def limitOption : String := "--max-call-depth"

/-- What the arguments other than options ask for. -/
def requestFor (callLimit : Nat) : List String → Request
  | [] => .refuse "missing input file"
  | [argument] =>
    if argument.startsWith "-" then .refuse ("unknown option `" ++ argument ++ "`")
    else .run argument callLimit
  | arguments => .refuse ("expected one input file, got " ++ toString arguments.length)

/-- What the arguments ask for.  A request for help wins over everything else. -/
def requestOf (arguments : List String) : Request :=
  if arguments.contains "-h" || arguments.contains "--help" then .help
  else
    let before := arguments.takeWhile (· ≠ limitOption)
    match arguments.drop before.length with
    | [] => requestFor defaultCallLimit arguments
    | [_] => .refuse ("the '" ++ limitOption ++ "' option doesn't have an associated value")
    | _ :: value :: after =>
      match readLimit value.toList with
      | .ok callLimit => requestFor callLimit (before ++ after)
      | .error problem => .refuse ("failed to parse '" ++ value ++ "': " ++ problem.message)

/-! ## Input -/

/-- Puts a byte in front of lines: it begins the first line, unless it is a line feed, which is a
line by itself. -/
def prependByte (byte : UInt8) : List (List UInt8) → List (List UInt8)
  | [] => [[byte]]
  | line :: lines => if byte = 10 then [byte] :: line :: lines else (byte :: line) :: lines

/-- Splits bytes after each line feed. -/
def splitLines (bytes : List UInt8) : List (List UInt8) := bytes.foldr prependByte []

/-- What is wrong with bytes that are no text. -/
def undecodable : String := "stream did not contain valid UTF-8"

/-- A line without its line feed and a carriage return before it.  A last line that has no line
feed keeps its carriage return. -/
def dropEnding (line : List UInt8) : List UInt8 :=
  match line.reverse with
  | 10 :: 13 :: rest => rest.reverse
  | 10 :: rest => rest.reverse
  | _ => line

/-- The input lines that bytes hold. -/
def inputLines (bytes : List UInt8) : List InputLine :=
  (splitLines bytes).map fun line =>
    match String.fromUTF8? (dropEnding line).toByteArray with
    | some text => .text text
    | none => .unreadable undecodable

/-- Whether tokens ask somewhere for an input line. -/
def readsInput : List Token → Bool
  | [] => false
  | token :: rest => (Parser.afterReadCall? (token :: rest)).isSome || readsInput rest

/-! ## Reports -/

/-- What the command prints and the code that it exits with. -/
structure Report where
  exitCode : UInt32
  output : String
  errors : String

/-- What was found under the path of a program file. -/
inductive SourceFile where
  | absent
  /-- Bytes that are no text. -/
  | undecodable
  | text (contents : String)

/-- How the command is used. -/
def usage : String := "Usage: lunet [--max-call-depth <n>] <file>\n"

/-- The help that the command gives. -/
def help : String :=
  usage ++ "Options:\n" ++ "  -h, --help: Print this help message\n"
    ++ "  --max-call-depth <n>: Maximum nested function calls (default: 200)\n"

/-- The report on a program file, whose program starts in a state given. -/
def reportOn (fuel : Nat) (path : String) (file : SourceFile) (start : State) : Report :=
  match file with
  | .absent => ⟨1, "", "error: file not found: " ++ path ++ "\n"⟩
  | .undecodable =>
    ⟨1, "", "error: cannot read " ++ path ++ ": " ++ undecodable ++ "\n"⟩
  | .text contents =>
    match compile contents with
    | .error diagnostics =>
      ⟨1, "", String.join (diagnostics.map fun found => path ++ ": " ++ found.text ++ "\n")⟩
    | .ok program =>
      match execute fuel program start with
      | .done _ later => ⟨0, later.output.taken, ""⟩
      | .failed fault later => ⟨1, later.output.taken, path ++ ": " ++ fault.text ++ "\n"⟩
      | .outOfFuel => ⟨1, "", ""⟩

/-- The report on a request, given what is found under the path that it names, the input and what
keeps lines from being printed. -/
def report (host : Host) (fuel : Nat) (request : Request) (file : SourceFile)
    (input : List InputLine) (problems : List (Option String)) : Report :=
  match request with
  | .help => ⟨0, help, ""⟩
  | .refuse message => ⟨2, "", "error: " ++ message ++ "\n" ++ usage⟩
  | .run path callLimit =>
    reportOn fuel path file (.start host callLimit input (.standard "" problems))

end TableScript.CommandLine
