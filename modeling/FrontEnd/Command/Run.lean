import FrontEnd.Command.File
import FrontEnd.Diagnostic.Render
import FrontEnd.Parser.Program
import FrontEnd.Tree.Print

/-!
Commands: dumping the tokens of a file, parsing a file and printing it back, and answering lines one by one.
-/

namespace FrontEnd

inductive CommandError
  | unreadable (path : String) (cause : ReadError)
  | diagnostics (count : Nat)
  | brokenInput
deriving DecidableEq, Repr

def CommandError.message : CommandError → String
  | unreadable path cause => "could not read " ++ quoted path ++ ": " ++ cause.message
  | diagnostics count => "aborting due to " ++ toString count ++ " parse error(s)"
  | brokenInput => ReadError.notText.message

/-- What a command wrote to its two outputs and how it ended. -/
structure Outcome where
  out : String
  err : String
  error? : Option CommandError
deriving DecidableEq, Repr

/-- The name by which diagnostics call a file: the last name on its path, or all of the path where that is no name. -/
def fileLabel (path : String) : String :=
  match (pathNames path).getLast? with
  | some name => if name = ".." then path else name
  | none => path

def dumpTokens (source : String) (label : String) : String :=
  String.join ((tokenize source (some label)).map fun t => t.dump ++ "\n")

def lexFile (path : String) (content : Except ReadError ByteArray) : Outcome :=
  match content.bind decodeText with
  | .error cause => ⟨"", "", some (.unreadable path cause)⟩
  | .ok source => ⟨dumpTokens source (fileLabel path), "", none⟩

/-- The program is printed only if there is nothing to report. -/
def parseFile (path : String) (content : Except ReadError ByteArray) : Outcome :=
  match content.bind decodeText with
  | .error cause => ⟨"", "", some (.unreadable path cause)⟩
  | .ok source =>
    match parse source (some (fileLabel path)) with
    | (program, []) => ⟨program.print ++ "\n", "", none⟩
    | (_, found) =>
      let shown := found.map fun d => d.render source (fileLabel path) ++ "\n"
      ⟨"", String.join shown, some (.diagnostics found.length)⟩

namespace Session

def prompt : String := ">> "

/-- What a line is answered; it does not depend on the lines before. -/
def answer (line : String) : String :=
  match parse line none with
  | (program, []) => program.print ++ "\n"
  | (_, found) => "parser errors:\n" ++ String.join (found.map fun d => "\t" ++ d.message ++ "\n")

/-- Cuts bytes behind each line break; `lines` and the bytes of `line` have been read before. -/
def linesOnto (lines : Array ByteArray) (line : ByteArray) : List UInt8 → Array ByteArray
  | [] => if line.isEmpty then lines else lines.push line
  | b :: bs => if b = 10 then linesOnto (lines.push (line.push b)) .empty bs else linesOnto lines (line.push b) bs

def lines (input : ByteArray) : List ByteArray :=
  (linesOnto #[] .empty input.toList).toList

def stripLast (byte : UInt8) (line : ByteArray) : ByteArray :=
  if line.toList.getLast? = some byte then line.extract 0 (line.size - 1) else line

/-- The text of a line without its line break, which may include a carriage return. -/
def lineText? (line : ByteArray) : Option String :=
  let text := stripLast 10 line
  String.fromUTF8? (if text.size < line.size then stripLast 13 text else text)

/-- Answers lines onto what has been written, up to one that is no text. -/
def answerOnto (out : String) : List ByteArray → Outcome
  | [] => ⟨out ++ prompt, "", none⟩
  | line :: lines =>
    match lineText? line with
    | some text => answerOnto (out ++ prompt ++ answer text) lines
    | none => ⟨out ++ prompt, "", some .brokenInput⟩

def run (input : ByteArray) : Outcome :=
  answerOnto "" (lines input)

end Session

/-- A file to be parsed, or one to be lexed. -/
structure Options where
  file : Option String
  lex : Option String
deriving DecidableEq, Repr

/-- Runs the command that the options ask for. -/
def Options.run (options : Options) (read : String → Except ReadError ByteArray) (input : ByteArray) : Outcome :=
  match options.lex, options.file with
  | some path, _ => lexFile path (read path)
  | none, some path => parseFile path (read path)
  | none, none => Session.run input

/-- What a process leaves behind. -/
structure Exit where
  code : Nat
  out : String
  err : String
deriving DecidableEq, Repr

def Outcome.exit (o : Outcome) : Exit :=
  match o.error? with
  | none => ⟨0, o.out, o.err⟩
  | some error => ⟨1, o.out, o.err ++ error.message ++ "\n"⟩

end FrontEnd
