/-!
# Command-line options

`Options.ofArgs` reads the arguments of the program: the file to read, and in any order

* `--filename NAME` or `--filename=NAME`, the name of the file in messages;
* `--tokens`, to print the tokens and not the syntax tree;
* `-v` and `-q`, each any number of times, for more or for less logging, but not both;
* `--`, after which nothing is an option.

`-h` or `--help` and `-V` or `--version` end the reading where they stand.
-/

namespace Offside.CommandLine

/-- What the program is asked to do. -/
structure Options where
  /-- The path of the file to read. -/
  file : String
  /-- The name of the file in messages, if not its own. -/
  name : Option String := none
  tokens : Bool := false
  /-- How much logging is wanted, beyond the usual or below it. -/
  verbosity : Int := 0
deriving DecidableEq, Repr

/-- Why arguments were rejected. -/
inductive UsageError where
  | unknownOption (option : String)
  | repeatedOption (option : String)
  | missingValue (option : String)
  /-- An argument too many. -/
  | unexpected (argument : String)
  | missingFile
  | emptyFile
  /-- Both more and less logging. -/
  | conflict
deriving DecidableEq, Repr

def UsageError.message : UsageError → String
  | unknownOption option => "there is no option '" ++ option ++ "'"
  | repeatedOption option => "the option '" ++ option ++ "' is given more than once"
  | missingValue option => "the option '" ++ option ++ "' needs a value"
  | unexpected argument => "the argument '" ++ argument ++ "' is one too many"
  | missingFile => "no file is given"
  | emptyFile => "the name of the file is empty"
  | conflict => "the options '-v' and '-q' exclude each other"

/-- Why there are no options to act on. -/
inductive Halt where
  | help
  | version
  | usage (error : UsageError)
deriving DecidableEq, Repr

/-- The options read so far. -/
structure Draft where
  file : Option String := none
  name : Option String := none
  tokens : Bool := false
  verbose : Nat := 0
  quiet : Nat := 0

namespace Draft

def setFile (draft : Draft) (path : String) : Except Halt Draft :=
  if path.isEmpty then throw (.usage .emptyFile)
  else if draft.file.isSome then throw (.usage (.unexpected path))
  else return { draft with file := path }

def setName (draft : Draft) (name : String) : Except Halt Draft :=
  if draft.name.isSome then throw (.usage (.repeatedOption "--filename"))
  else return { draft with name }

def setTokens (draft : Draft) : Except Halt Draft :=
  if draft.tokens then throw (.usage (.repeatedOption "--tokens"))
  else return { draft with tokens := true }

/-- Reads one letter of an argument such as `-vv`. -/
def setLetter (draft : Draft) : Char → Except Halt Draft
  | 'v' => return { draft with verbose := draft.verbose + 1 }
  | 'q' => return { draft with quiet := draft.quiet + 1 }
  | 'h' => throw .help
  | 'V' => throw .version
  | letter => throw (.usage (.unknownOption ("-" ++ letter.toString)))

/-- Reads one argument that is complete in itself. -/
def setArg (draft : Draft) (arg : String) : Except Halt Draft :=
  match arg with
  | "--tokens" => draft.setTokens
  | "--help" => throw .help
  | "--version" => throw .version
  | "-" => draft.setFile arg
  | _ =>
    let filename := "--filename=".toList
    if filename <+: arg.toList then draft.setName (String.ofList (arg.toList.drop filename.length))
    else
      match arg.toList with
      | '-' :: '-' :: _ => throw (.usage (.unknownOption arg))
      | '-' :: letters => letters.foldlM setLetter draft
      | _ => draft.setFile arg

/-- Whether an argument is read as options wherever it stands. -/
def isOption (arg : String) : Bool :=
  arg != "-" && arg.toList.head? == some '-'

def read (draft : Draft) : List String → Except Halt Draft
  | [] => return draft
  | "--" :: paths => paths.foldlM setFile draft
  | ["--filename"] => throw (.usage (.missingValue "--filename"))
  | "--filename" :: value :: args =>
    if isOption value then throw (.usage (.missingValue "--filename"))
    else do (← draft.setName value).read args
  | arg :: args => do (← draft.setArg arg).read args

/-- The options, if they are complete and go together. -/
def finish (draft : Draft) : Except Halt Options :=
  if draft.verbose != 0 && draft.quiet != 0 then throw (.usage .conflict)
  else
    match draft.file with
    | none => throw (.usage .missingFile)
    | some file =>
      return {
        file
        name := draft.name
        tokens := draft.tokens
        verbosity := draft.verbose - draft.quiet }

end Draft

/-- The options that the arguments stand for. -/
def Options.ofArgs (args : List String) : Except Halt Options := do
  (← Draft.read {} args).finish

/-- The last part of a path, unless the path leads upwards. -/
def fileName? (path : String) : Option String :=
  let parts := (path.splitOn "/").filter fun part => part != "" && part != "."
  parts.getLast?.filter (· != "..")

/-- The name of the file in messages. -/
def Options.displayName (options : Options) : Option String :=
  options.name <|> fileName? options.file

end Offside.CommandLine
