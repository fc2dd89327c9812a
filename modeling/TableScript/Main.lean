import TableScript.CommandLine

/-!
# The command

Reads the program file and, if the program asks for input, the standard input; prints the report.
-/

namespace TableScript.CommandLine

/-- All bytes of a stream, after those already read. -/
partial def readRemaining (stream : IO.FS.Stream) (read : ByteArray) : IO ByteArray := do
  let bytes ← stream.read 65536
  if bytes.isEmpty then return read else readRemaining stream (read ++ bytes)

/-- What is found under a path. -/
def readSource (path : String) : IO SourceFile := do
  try
    let bytes ← IO.FS.readBinFile path
    return match String.fromUTF8? bytes with
      | some contents => .text contents
      | none => .undecodable
  catch _ => return .absent

/-- Whether the program in a file asks for input. -/
def asksForInput : SourceFile → Bool
  | .text contents => (tokenize contents).toOption.any fun tokens => readsInput tokens.list
  | _ => false

end TableScript.CommandLine

open TableScript TableScript.CommandLine

/-- Runs the command with its arguments. -/
def main (arguments : List String) : IO UInt32 := do
  let request := requestOf arguments
  let file ← match request with
    | .run path _ => readSource path
    | _ => pure SourceFile.absent
  let input ←
    if asksForInput file then readRemaining (← IO.getStdin) .empty else pure ByteArray.empty
  let outcome := report .plain ampleFuel request file (inputLines input.toList) []
  IO.print outcome.output
  IO.eprint outcome.errors
  return outcome.exitCode
