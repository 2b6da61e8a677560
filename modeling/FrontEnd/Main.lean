import FrontEnd.CommandLine

/-!
The program itself: it fetches what a run needs from the world and writes what the run says. The
prompt answers each line as soon as it has been read.
-/

namespace FrontEnd.Main

open CommandLine

/-- The bytes of the next line with its end, empty at the end of the input. -/
partial def readLine (input : IO.FS.Stream) (line : ByteArray) : IO ByteArray := do
  let byte ← input.read 1
  if byte.isEmpty then return line
  let line := line ++ byte
  if byte.data.contains Prompt.lineFeed then return line
  readLine input line

def writeLog (lines : List String) : IO Unit :=
  lines.forM IO.eprintln

def giveUp (e : Prompt.Failure) : IO UInt32 := do
  IO.eprint (ending e).2
  return (ending e).1

/-- Holds a session with the user, line by line. -/
partial def converse (options : Options) (input : IO.FS.Stream) : IO UInt32 := do
  IO.print Prompt.mark
  (← IO.getStdout).flush
  let bytes ← readLine input ByteArray.empty
  if bytes.isEmpty then return 0
  match Text.decode (Prompt.splitLine bytes.toList).1 with
  | .error e => giveUp (.unreadable e)
  | .ok line =>
      let s := Prompt.answer options.mode options.values line
      writeLog (options.level.shown s.log)
      IO.print s.output
      match s.failure with
      | none => converse options input
      | some e => giveUp e

def start (options : Options) : IO UInt32 := do
  match greeted (← IO.getEnv "USER") (← IO.getEnv "USERNAME") with
  | .error errors =>
      IO.eprint errors
      return 1
  | .ok name =>
      IO.print (Prompt.welcome name)
      writeLog (options.level.shown [.started options.mode])
      converse options (← IO.getStdin)

/-- The content of a file that can be read. -/
def content? (file : String) : IO (Option (List UInt8)) := do
  try
    return some (← IO.FS.readBinFile file).toList
  catch _ =>
    return none

def finish (e : Exit) : IO UInt32 := do
  writeLog e.log
  IO.eprint e.errors
  IO.print e.output
  return e.code

def runIn (arguments : List String) : IO UInt32 := do
  match Command.ofArguments arguments with
  | .ok (.run options) =>
      match options.file with
      | some file => finish (runFile file (← content? file) options)
      | none => start options
  | _ => finish (run ⟨⟨[], []⟩, [], none, none⟩ arguments)

end FrontEnd.Main

def main (arguments : List String) : IO UInt32 :=
  FrontEnd.Main.runIn arguments
