import Offside.CommandLine.Files
import Offside.CommandLine.Options
import Offside.Expr.Outline
import Offside.Program
/-!
# The command line

`CommandLine.run` is the program: it reads the arguments, reads the file with the function that it
is given, and answers what to print and the exit code. The code is 0 for success, 1 where the file
cannot be read or is rejected, and 2 where the arguments are.
-/

namespace Offside.CommandLine

/-- What a run of the program leaves behind. -/
structure Outcome where
  exitCode : Nat := 0
  stdout : String := ""
  stderr : String := ""
deriving DecidableEq, Repr

/-- What `--help` prints. -/
def helpText : String :=
  "usage: offside [--filename NAME] [--tokens] [-v | -q] FILE\n"

/-- What `--version` prints. -/
def versionText : String := "offside 0.1.0\n"

/-- The outcome where there are no options to act on. -/
def Halt.outcome : Halt → Outcome
  | .help => { stdout := helpText }
  | .version => { stdout := versionText }
  | .usage error => { exitCode := 2, stderr := "Error: " ++ error.message ++ "\n" ++ helpText }

/-- Whether the options ask for events of the given level. Without `-v` nothing is logged. -/
def Options.logs (options : Options) : Event.Level → Bool
  | .trace => 2 ≤ options.verbosity
  | .debug | .info => 1 ≤ options.verbosity

/-- The lines of the log that the options ask for. -/
def Options.log (options : Options) (events : List Event) : String :=
  String.join <| (events.filter fun event => options.logs event.level).map fun event =>
    event.message ++ String.join (event.fields.map fun (name, value) => " " ++ name ++ "=" ++ value)
      ++ "\n"

/-- One line for each token: where it stands, and what it is. -/
def listTokens (tokens : List Token) : String :=
  String.join <| tokens.map fun token =>
    toString token.line ++ ":" ++ toString token.column ++ "\t" ++ toString token ++ "\n"

/-- The account of why a parser gave up on the text `source`. -/
def reportStop (source : String) : Stop → String
  | .fault fault => fault.report source
  | .exhausted => "Error: the text nests too deep\n"

/-- The outcome for the text of the file. -/
def Options.process (options : Options) (source : String) : Outcome :=
  if options.tokens then
    let reading := tokenize source options.displayName
    let log := options.log reading.events
    match reading.result with
    | .ok tokens => { stdout := listTokens tokens, stderr := log }
    | .error fault => { exitCode := 1, stderr := log ++ fault.report source }
  else
    let reading := parse source options.displayName
    let log := options.log reading.events
    match reading.result with
    | .ok block => { stdout := (Expr.blockOutline block).spread 0 ++ "\n", stderr := log }
    | .error stop => { exitCode := 1, stderr := log ++ reportStop source stop }

/-- The text of a file. -/
def decode (contents : ByteArray) : Except ReadError String :=
  match String.fromUTF8? contents with
  | some text => return text
  | none => throw .notText

/-- Runs the program on its arguments. -/
def run {m : Type → Type} [Monad m] (read : String → m (Except ReadError ByteArray))
    (args : List String) : m Outcome := do
  match Options.ofArgs args with
  | .error halt => return halt.outcome
  | .ok options =>
    match (← read options.file) >>= decode with
    | .ok source => return options.process source
    | .error error =>
      return {
        exitCode := 1
        stderr := "Error: could not read " ++ options.file ++ ": " ++ error.message ++ "\n" }

end Offside.CommandLine
