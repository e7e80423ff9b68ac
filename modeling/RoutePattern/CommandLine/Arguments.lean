import RoutePattern.Method

/-!
# Arguments of the command line

The first argument that is no option names a command; the arguments behind it are its values and
options, in any order. `--name` and `-n` are options; several one-letter options may share a `-`,
and an option with a value takes the rest of such a cluster, what stands behind a `=`, or the next
argument. Behind `--` every argument is a value. A lone `-` is a value. Arguments are read from the
left, and the first one that is misused or asks for help decides.
-/

namespace RoutePattern.CommandLine

/-- What the program is asked to do. -/
inductive Command where
  /-- Match paths against a pattern, showing the first match of each or all. -/
  | matching (pattern : Text) (paths : List Text) (all : Bool)
  /-- Show how a pattern is compiled. -/
  | explain (pattern : Text)
  /-- Dispatch a request through the route table of a file. -/
  | routes (file : Text) (path : Text) (method : Method)
  /-- Build the route table of a file. -/
  | check (file : Text)

/-- The names of commands. -/
inductive CommandName where
  | matching
  | explain
  | routes
  | check
deriving Repr, DecidableEq

/-- The command of that name. -/
def CommandName.ofText? (name : Text) : Option CommandName :=
  if name = "match".toList then some .matching
  else if name = "explain".toList then some .explain
  else if name = "routes".toList then some .routes
  else if name = "check".toList then some .check
  else none

/-- How many values a command takes at most, if there is a limit. -/
def CommandName.maxValues? : CommandName → Option Nat
  | .matching => none
  | .explain => some 1
  | .routes => some 2
  | .check => some 1

/-- Options. -/
inductive Flag where
  | verbose
  | help
  | all
  /-- Takes the name of a method as its value. -/
  | method
deriving Repr, DecidableEq

/-- Whether a command knows an option; without a command, only those of all commands are known. -/
def Flag.belongsTo (flag : Flag) (command : Option CommandName) : Bool :=
  match flag with
  | .verbose => true
  | .help => true
  | .all => command == some .matching
  | .method => command == some .routes

/-- The option of a long name. -/
def Flag.ofLong? (name : Text) : Option Flag :=
  if name = "verbose".toList then some .verbose
  else if name = "help".toList then some .help
  else if name = "all".toList then some .all
  else if name = "method".toList then some .method
  else none

/-- The option of a letter. -/
def Flag.ofLetter? : Char → Option Flag
  | 'v' => some .verbose
  | 'h' => some .help
  | 'a' => some .all
  | 'm' => some .method
  | _ => none

/-- What help is about. -/
inductive HelpTopic where
  | program
  | command (name : CommandName)
  /-- The command that gives help. -/
  | help
deriving Repr, DecidableEq

/-- Why no command comes out of the arguments. -/
inductive Refusal where
  /-- They are not used as they should be. -/
  | misuse
  /-- Help is asked for. -/
  | help (about : HelpTopic)
deriving Repr, DecidableEq

/-- What the arguments so far have given. -/
structure Given where
  /-- The values, the last one first. -/
  values : List Text
  all : Bool
  method : Option Method

/-- Nothing is given. -/
def Given.nothing : Given := ⟨[], false, none⟩

/-- One more value, if the command has a place for it. -/
def Given.addValue (given : Given) (command : CommandName) (value : Text) :
    Except Refusal Given :=
  if command.maxValues?.any (· ≤ given.values.length) then .error .misuse
  else .ok { given with values := value :: given.values }

/-- The method is given, by its name and once. -/
def Given.addMethod (given : Given) (name : Text) : Except Refusal Given :=
  match given.method, Method.ofName? name with
  | none, some method => .ok { given with method := some method }
  | _, _ => .error .misuse

/-- An option without a value is given; only `verbose` may be given again. -/
def Given.addFlag (given : Given) (command : Option CommandName) : Flag → Except Refusal Given
  | .verbose => .ok given
  | .help => .error (.help (command.elim .program .command))
  | .all => if given.all then .error .misuse else .ok { given with all := true }
  | .method => .error .misuse

/-- An argument that begins with `-` and is not a value. -/
def isOption : Text → Bool
  | '-' :: _ :: _ => true
  | _ => false

/-- What an option leaves to the next argument. -/
inductive Awaiting where
  | nothing
  /-- It is the name of the method. -/
  | method

/-- The options of a cluster of letters. -/
def readCluster (command : Option CommandName) (given : Given) :
    Text → Except Refusal (Given × Awaiting)
  | [] => .ok (given, .nothing)
  | letter :: rest =>
    match Flag.ofLetter? letter with
    | none => .error .misuse
    | some flag =>
      if !flag.belongsTo command then .error .misuse
      else if flag = .method then
        match rest with
        | [] => .ok (given, .method)
        | '=' :: value => do return (← given.addMethod value, .nothing)
        | value => do return (← given.addMethod value, .nothing)
      else do readCluster command (← given.addFlag command flag) rest

/-- The option of a long name, with its value behind a `=` if it has one. -/
def readLong (command : Option CommandName) (given : Given) (argument : Text) :
    Except Refusal (Given × Awaiting) :=
  let name := argument.takeWhile (· != '=')
  let value := (argument.dropWhile (· != '=')).tail?
  match Flag.ofLong? name, value with
  | none, _ => .error .misuse
  | some flag, value =>
    if !flag.belongsTo command then .error .misuse
    else match flag, value with
      | .method, none => .ok (given, .method)
      | .method, some value => do return (← given.addMethod value, .nothing)
      | flag, none => do return (← given.addFlag command flag, .nothing)
      | _, some _ => .error .misuse

/-- An argument that begins with `-` and is not a value. -/
def readOption (command : Option CommandName) (given : Given) :
    Text → Except Refusal (Given × Awaiting)
  | '-' :: '-' :: name => readLong command given name
  | '-' :: letters => readCluster command given letters
  | _ => .error .misuse

/-- The arguments behind the name of a command. -/
def readArguments (command : CommandName) (given : Given) :
    Awaiting → List Text → Except Refusal Given
  | .nothing, [] => .ok given
  | .method, [] => .error .misuse
  | .method, argument :: rest =>
    if isOption argument then .error .misuse
    else do readArguments command (← given.addMethod argument) .nothing rest
  | .nothing, argument :: rest =>
    if argument = ['-', '-'] then
      rest.foldlM (fun given value => given.addValue command value) given
    else if isOption argument then do
      let (given, awaiting) ← readOption (some command) given argument
      readArguments command given awaiting rest
    else do readArguments command (← given.addValue command argument) .nothing rest

/-- The command that values and options form. -/
def Given.command (given : Given) (name : CommandName) : Except Refusal Command :=
  match name, given.values.reverse with
  | .matching, pattern :: path :: paths => .ok (.matching pattern (path :: paths) given.all)
  | .explain, [pattern] => .ok (.explain pattern)
  | .routes, [file, path] => .ok (.routes file path (given.method.getD .get))
  | .check, [file] => .ok (.check file)
  | _, _ => .error .misuse

/-- What the arguments behind `help` ask about. -/
def helpTopic? : List Text → Option HelpTopic
  | [] => some .program
  | [name] =>
    if name = "help".toList then some .help
    else (CommandName.ofText? name).map .command
  | _ => none

/-- The command that the arguments of the program ask for. -/
def readCommand : (arguments : List Text) → Except Refusal Command
  | [] => .error .misuse
  | argument :: rest =>
    if isOption argument && argument != ['-', '-'] then do
      let _ ← readOption none .nothing argument
      readCommand rest
    else if argument = "help".toList then
      .error ((helpTopic? rest).elim .misuse .help)
    else match CommandName.ofText? argument with
      | some command => do (← readArguments command .nothing .nothing rest).command command
      | none => .error .misuse

end RoutePattern.CommandLine
