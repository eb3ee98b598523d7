import FrontEnd.Command.Run

/-!
Command line arguments: at most one file, to be parsed or, behind `--lex`, to be lexed.
-/

namespace FrontEnd

/-- Why arguments start no command. -/
inductive Refusal
  | argumentConflict | unknownArgument | invalidValue | tooManyValues
  | helpAsked | versionAsked
deriving DecidableEq, Repr

namespace Options

/-- An argument that has been read and not yet checked. -/
inductive Pending
  | nothing
  | file (path : String)
  | lex (path : Option String)
deriving DecidableEq, Repr

/-- `plain` says that every further argument is a file, whatever it looks like. -/
structure Reading where
  options : Options
  pending : Pending
  plain : Bool
deriving DecidableEq, Repr

namespace Reading

/-- Checks the pending argument. That it was given twice is noticed before its value is looked at. -/
def settle (r : Reading) : Except Refusal Reading :=
  match r.pending with
  | .nothing => .ok r
  | .file path =>
    if path = "" then .error .invalidValue
    else .ok { r with options := { r.options with file := some path }, pending := .nothing }
  | .lex none => .error .invalidValue
  | .lex (some path) =>
    if r.options.lex.isSome then .error .argumentConflict
    else if path = "" then .error .invalidValue
    else .ok { r with options := { r.options with lex := some path }, pending := .nothing }

def hasFile (r : Reading) : Bool :=
  match r.pending with
  | .file _ => true
  | _ => r.options.file.isSome

def takeFile (r : Reading) (path : String) : Except Refusal Reading :=
  if r.hasFile then .error .unknownArgument
  else do return { ← r.settle with pending := .file path }

def refuse (r : Reading) (reason : Refusal) : Except Refusal Reading := do
  let _ ← r.settle
  .error reason

/-- Takes a long flag, given without its dashes. -/
def takeLong (r : Reading) (flag : List Char) : Except Refusal Reading :=
  let name := String.ofList (flag.takeWhile (· ≠ '='))
  let value := (flag.dropWhile (· ≠ '=')).tail?.map String.ofList
  match name, value with
  | "lex", none => do return { ← r.settle with pending := .lex none }
  | "lex", some path => do
    let r ← r.settle
    { r with pending := .lex (some path) }.settle
  | "help", none => r.refuse .helpAsked
  | "version", none => r.refuse .versionAsked
  | "help", some _ | "version", some _ => .error .tooManyValues
  | _, _ => .error .unknownArgument

def takeShort (r : Reading) (flag : Char) : Except Refusal Reading :=
  match flag with
  | 'h' => r.refuse .helpAsked
  | 'V' => r.refuse .versionAsked
  | _ => .error .unknownArgument

/-- A value or a file. -/
def takePlain (r : Reading) (arg : String) : Except Refusal Reading :=
  if r.pending = .lex none then .ok { r with pending := .lex (some arg) } else r.takeFile arg

def take (r : Reading) (arg : String) : Except Refusal Reading :=
  if r.plain then r.takeFile arg
  else
    match arg.toList with
    | ['-', '-'] => .ok { r with plain := true }
    | '-' :: '-' :: flag => r.takeLong flag
    | '-' :: flag :: _ => r.takeShort flag
    | _ => r.takePlain arg

end Reading

def ofArguments (args : List String) : Except Refusal Options := do
  let r ← args.foldlM Reading.take ⟨⟨none, none⟩, .nothing, false⟩
  let r ← r.settle
  if r.options.file.isSome && r.options.lex.isSome then .error .argumentConflict else .ok r.options

end Options

def versionLine : String := "monkey 0.1.0\n"

def usage : String := "Usage: monkey [--lex FILE] [FILE]\n"

def Refusal.exit : Refusal → Exit
  | helpAsked => ⟨0, usage, ""⟩
  | versionAsked => ⟨0, versionLine, ""⟩
  | _ => ⟨2, "", usage⟩

end FrontEnd
