import FrontEnd.Main.Arguments

/-!
The program: reading files and standard input, and writing what the commands answer.
-/

namespace FrontEnd

/-- The number of a system error, which may come negated in a word of 32 bits. -/
def errorNumber (code : UInt32) : Nat :=
  if code < 0x80000000 then code.toNat else 0x100000000 - code.toNat

def ReadError.ofSystem (code : UInt32) (description : String) : ReadError :=
  match errorNumber code with
  | 2 => .notFound
  | 20 => .notDirectory
  | 21 => .isDirectory
  | number => .system number description

def ReadError.ofFailure : IO.Error → ReadError
  | .noFileOrDirectory _ code description | .inappropriateType _ code description
  | .permissionDenied _ code description | .resourceExhausted _ code description
  | .invalidArgument _ code description | .noSuchThing _ code description
  | .otherError code description => .ofSystem code description
  | e => .system 0 (toString e)

def readFile (path : String) : IO (Except ReadError ByteArray) := do
  try return .ok (← IO.FS.readBinFile path) catch e => return .error (ReadError.ofFailure e)

partial def readLine (input : IO.FS.Stream) (line : ByteArray) : IO ByteArray := do
  let bytes ← input.read 1
  let line := line ++ bytes
  if bytes.isEmpty || bytes.toList == [10] then return line else readLine input line

/-- Answers each line as soon as it has been typed. -/
partial def converse (input output : IO.FS.Stream) : IO Outcome := do
  output.putStr Session.prompt
  output.flush
  let line ← readLine input .empty
  if line.isEmpty then return ⟨"", "", none⟩
  match Session.lineText? line with
  | none => return ⟨"", "", some .brokenInput⟩
  | some text =>
    output.putStr (Session.answer text)
    converse input output

def Options.perform (options : Options) : IO Exit := do
  match options.lex.or options.file with
  | some path =>
    let content ← readFile path
    return (options.run (fun _ => content) .empty).exit
  | none => return (← converse (← IO.getStdin) (← IO.getStdout)).exit

end FrontEnd

open FrontEnd in
def main (args : List String) : IO UInt32 := do
  let exit ← match Options.ofArguments args with
    | .ok options => options.perform
    | .error refusal => pure refusal.exit
  IO.print exit.out
  IO.eprint exit.err
  return exit.code.toUInt32
