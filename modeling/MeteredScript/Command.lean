import MeteredScript.Context
import MeteredScript.Dependency
import MeteredScript.Eval.Nodes
import MeteredScript.Files
import MeteredScript.Settings
import MeteredScript.Signature
import MeteredScript.Tree.Listing

namespace MeteredScript

/-! # Commands

What the command line can be asked to do, as a function of the arguments and of what files hold.
-/

/-- A request. Every one is about a source file; some take further files. -/
inductive Command where
  | tokens (source : String)
  | ast (source : String)
  | run (source : String) (context settings : Option String)
  | signature (source : String)
  | dependencies (source : String) (context : Option String)
deriving DecidableEq, Repr, Inhabited

/-! ## Arguments -/

/-- The arguments behind the name of a command, sorted. -/
structure Arguments where
  /-- File names. -/
  words : List String := []
  context : Option String := none
  settings : Option String := none
  verbose : Bool := false
deriving DecidableEq, Repr, Inhabited

namespace Arguments

/-- Whether an argument asks for messages about the stages of the work. -/
def isVerbose (argument : String) : Bool := argument = "-v" || argument = "--verbose"

/-- Whether an argument is written like an option. -/
def isOption (argument : String) : Bool := argument.startsWith "-" && argument ≠ "-"

/-- The options that name a file. -/
inductive FileOption where
  | context
  | settings
deriving DecidableEq, Repr, Inhabited

def FileOption.ofName? (name : String) : Option FileOption :=
  if name = "--context" then some context
  else if name = "--config" then some settings
  else none

/-- Notes the file of an option, which can be given only once. -/
def setFile? (known : Arguments) (option : FileOption) (file : String) : Option Arguments :=
  if file.isEmpty then none
  else
    match option, known.context, known.settings with
    | .context, none, _ => some { known with context := some file }
    | .settings, _, none => some { known with settings := some file }
    | _, _, _ => none

/-- Splits an option at its equals sign. -/
def splitOption? (argument : String) : Option (String × String) :=
  let cs := argument.toList
  match cs.dropWhile (· ≠ '=') with
  | [] => none
  | _ :: value => some (String.ofList (cs.takeWhile (· ≠ '=')), String.ofList value)

/-- Sorts further arguments behind those already `known`. -/
def sort? (known : Arguments) : List String → Option Arguments
  | [] => some known
  | "--" :: rest => some { known with words := known.words ++ rest }
  | argument :: rest =>
    if isVerbose argument then
      if known.verbose then none else sort? { known with verbose := true } rest
    else if !isOption argument then sort? { known with words := known.words ++ [argument] } rest
    else
      match splitOption? argument with
      | some (name, file) =>
        match (FileOption.ofName? name).bind fun option => known.setFile? option file with
        | some known => sort? known rest
        | none => none
      | none =>
        match FileOption.ofName? argument, rest with
        | some option, file :: rest =>
          if isOption file then none
          else
            match known.setFile? option file with
            | some known => sort? known rest
            | none => none
        | _, _ => none

end Arguments

def Command.ofName? (name : String) (arguments : List String) : Option Command := do
  let ⟨words, context, settings, _⟩ ← Arguments.sort? {} arguments
  match words with
  | [source] =>
    if source.isEmpty then none
    else
      match name, context, settings with
      | "tokens", none, none => some (.tokens source)
      | "ast", none, none => some (.ast source)
      | "run", context, settings => some (.run source context settings)
      | "signature", none, none => some (.signature source)
      | "deps", context, none => some (.dependencies source context)
      | _, _, _ => none
  | _ => none

/-- The request that arguments are. Messages can be asked for once in front of the name of the
command and once behind it. -/
def Command.ofArguments? : List String → Option Command
  | [] => none
  | first :: rest =>
    if Arguments.isVerbose first then
      match rest with
      | [] => none
      | name :: rest => ofName? name rest
    else ofName? first rest

/-! ## Reading -/

/-- The files that a command reads, in the order in which it does. -/
def Command.files : Command → List String
  | tokens source | ast source | signature source => [source]
  | run source context settings => source :: context.toList ++ settings.toList
  | dependencies source context => source :: context.toList

/-- Why a command fails. -/
inductive CommandFault where
  | noSource (fault : FileFault)
  | unreadable (file : String) (fault : FileFault)
  | badContext
  | badSettings
  | program (error : Error)
  | run (halt : Halt)
deriving DecidableEq, Repr, Inhabited

/-- The wording of a failure. -/
def CommandFault.text : CommandFault → String
  | noSource fault => fault.text
  | unreadable file fault => s!"cannot read {file}: {fault.text}"
  | badContext => "invalid JSON"
  | badSettings => "invalid TOML"
  | program error => error.text
  | run halt => halt.text

def CommandFault.ofHalt : Halt → CommandFault
  | .failed error => program error
  | halt => run halt

namespace Files

variable (files : Files)

def source (file : String) : Except CommandFault String := (files file).mapError .noSource

/-- The text in a file other than the source. -/
def extra (file : String) : Except CommandFault String := (files file).mapError (.unreadable file)

def context (file : Option String) : Except CommandFault RunContext :=
  match file with
  | none => .ok {}
  | some file => do
    match RunContext.parse? (← files.extra file) with
    | some context => .ok context
    | none => .error .badContext

/-- The limits in a file, or the usual ones. -/
def limits (file : Option String) : Except CommandFault Limits :=
  match file with
  | none => .ok {}
  | some file => do
    match Limits.parse? (← files.extra file) with
    | some limits => .ok limits
    | none => .error .badSettings

end Files

/-! ## Answers -/

def Command.output (files : Files) : Command → Except CommandFault String
  | tokens source => do
    let lexemes ← (tokenize (← files.source source)).mapError .program
    return (Json.array (lexemes.map Lexeme.toJson)).indented
  | ast source => do
    let arena ← (Arena.parse (← files.source source)).mapError .ofHalt
    return arena.table.toJson.indented
  | run source context settings => do
    let text ← files.source source
    let context ← files.context context
    let limits ← files.limits settings
    let arena ← (Arena.parse text).mapError .ofHalt
    let d ← (arena.run context limits {}).result.mapError .run
    return d.text
  | signature source => do
    let program ← (Program.parse (← files.source source)).mapError .program
    let signature ← program.signature.mapError .program
    return signature.text
  | dependencies source context => do
    let text ← files.source source
    let context ← files.context context
    let program ← (Program.parse text).mapError .program
    return (program.dependencies context).toJson.indented

/-- What a command leaves behind: its exit code, its output and what it says of a failure. -/
structure Report where
  exitCode : Nat
  output : String
  failure : Option String
deriving DecidableEq, Repr, Inhabited

def Command.report (files : Files) (command : Command) : Report :=
  match command.output files with
  | .ok text => ⟨0, text ++ "\n", none⟩
  | .error (.run (.crashed crash)) => ⟨101, "", some crash.text⟩
  | .error fault => ⟨1, "", some ("Error: " ++ fault.text)⟩

/-- What arguments that are no command lead to. -/
def Report.usage : Report := ⟨2, "", none⟩

/-- The first line of what is said of a failure. A line ends before `\n` or `\r\n`. -/
def Report.errorLine (report : Report) : Option String :=
  report.failure.map fun text =>
    let line := text.toList.takeWhile (· ≠ '\n')
    String.ofList (if line.getLast? = some '\r' then line.dropLast else line)

/-- How to write a command. -/
def usageText : String :=
  "usage: tokens FILE | ast FILE | run FILE [--context FILE] [--config FILE] | " ++
    "signature FILE | deps FILE [--context FILE]"

end MeteredScript
