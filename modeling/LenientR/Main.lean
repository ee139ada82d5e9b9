import LenientR.Command

/-!
# The command line

Reads the file or the standard input, runs the command, writes its outcome.
-/

namespace LenientR.CommandLine

def commandOf? : List String → Option (Command × String)
  | ["check", file] => some (.check, file)
  | ["print", "tokens", file] => some (.listTokens, file)
  | ["print", "ast", file] => some (.drawTree, file)
  | ["query", file, offset] => offset.toNat?.map fun offset => (.query offset, file)
  | _ => none

def usage : String :=
  "usage: check FILE | print tokens FILE | print ast FILE | query FILE OFFSET\n"

def readAllInput (stream : IO.FS.Stream) : IO ByteArray := do
  let mut bytes := ByteArray.empty
  let mut chunk ← stream.read 65536
  while !chunk.isEmpty do
    bytes := bytes ++ chunk
    chunk ← stream.read 65536
  return bytes

def readContents (file : String) : IO (Option ByteArray) := do
  if file = "-" then
    return some (← readAllInput (← IO.getStdin))
  try
    return some (← IO.FS.readBinFile file)
  catch _ =>
    return none

end LenientR.CommandLine

open LenientR.CommandLine in
def main (args : List String) : IO UInt32 := do
  match commandOf? args with
  | none =>
    IO.eprint usage
    return 2
  | some (command, file) =>
    let outcome := command.run file (← readContents file)
    IO.print outcome.out
    IO.eprint outcome.err
    return outcome.exitCode.toUInt32
