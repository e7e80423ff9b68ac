import RoutePattern.CommandLine.Arguments
import RoutePattern.Json.Render
import RoutePattern.Node.Render
import RoutePattern.Router.Handlers
import RoutePattern.Table.Decode

/-!
# The commands

Each command is a function from its values, and from the text of the file that it names, to what
it prints. Lines hold a path or a handler, a tab, and the captures as a JSON object.
-/

namespace RoutePattern.CommandLine

/-- How a command ends. -/
inductive Outcome where
  /-- It prints this. -/
  | printed (output : Text)
  /-- It fails with this message. -/
  | failed (message : Text)
  /-- The file it names holds no route table. -/
  | unreadableTable

/-- The captures of a match as a JSON object. -/
def renderParams (params : Params) : Text :=
  Json.render (.object (params.entries.map fun (name, value) => (name, .string value)))

/-- A line. -/
def line (text : Text) : Text := text ++ ['\n']

/-- An indented line. -/
def item (text : Text) : Text := line (' ' :: ' ' :: text)

/-- Two columns. -/
def columns (left right : Text) : Text := line (left ++ '\t' :: right)

/-- What stands where nothing matches. -/
def noMatch : Text := "(no match)".toList

/-- An error of a pattern. -/
def failedPattern (error : PatternError) : Outcome := .failed error.message.toList

/-- The lines of a path. -/
def matchLines (automaton : Automaton Unit) (all : Bool) (path : Text) : Text :=
  let found := automaton.matchesOf path
  match if all then found.toList else found.take 1 with
  | [] => columns path noMatch
  | found => found.flatMap fun found => columns path (renderParams found.params)

/-- The matches of paths. -/
def runMatch (pattern : Text) (paths : List Text) (all : Bool) : Outcome :=
  match Automaton.ofPattern pattern with
  | .error error => failedPattern error
  | .ok automaton => .printed (paths.flatMap (matchLines automaton all))

/-- The word for a truth value. -/
def word (value : Bool) : Text := if value then "true".toList else "false".toList

/-- What the automaton of a pattern tells about its inputs. -/
def summary (automaton : Automaton Unit) : Text :=
  let most := match automaton.maxLength? with
    | some length => Text.ofNat length
    | none => "unbounded".toList
  let tails := (automaton.tails.map Text.quoted).mergeSort Text.le
  item ("paths:          ".toList ++ Text.ofNat automaton.pathCount) ++
    item ("min length:     ".toList ++ Text.ofNat automaton.minLength) ++
    item ("max length:     ".toList ++ most) ++
    item ("only fixed:     ".toList ++ word automaton.onlyFixed) ++
    item ("ends with:      ".toList ++ Text.join [',', ' '] tails) ++
    item ("has underscore: ".toList ++ word automaton.hasRemainder)

/-- The tree, the graph, the walks and the automaton of a pattern. -/
def explanation (pattern : Text) : Except PatternError Text := do
  let nodes ← parse pattern
  let graph ← compile nodes
  let paths ← walks graph
  let automaton ← Automaton.ofPattern pattern
  return line "Nodes:".toList ++ nodes.flatMap (fun node => item node.render) ++
    line "\nStates:".toList ++
    graph.toList.zipIdx.flatMap (fun (state, id) => item (state.display id)) ++
    line "\nPaths:".toList ++
    paths.flatMap (fun path => item (Text.join [' '] (path.map Kind.display))) ++
    line "\nOptimized:".toList ++ summary automaton

/-- How a pattern is compiled. -/
def runExplain (pattern : Text) : Outcome :=
  match explanation pattern with
  | .error error => failedPattern error
  | .ok text => .printed text

/-- The router of a file whose text is `content?`, or `none` if there is no such file. -/
def load (file : Text) (content? : Option Text) : Except Outcome (Router Text) :=
  match content? with
  | none =>
    .error (.failed ("failed to read \"".toList ++ file ++
      "\": No such file or directory (os error 2)".toList))
  | some content =>
    match Table.parse? content with
    | none => .error .unreadableTable
    | some entries =>
      match Table.build entries with
      | .error error => .error (.failed ("route table invalid: ".toList ++ error.message.toList))
      | .ok router => .ok router

/-- The handlers for a request. -/
def runRoutes (file : Text) (content? : Option Text) (path : Text) (method : Method) : Outcome :=
  match load file content? with
  | .error outcome => outcome
  | .ok router =>
    match router.handlers method path with
    | [] => .printed (line noMatch)
    | found => .printed (found.flatMap fun found => columns found.handler (renderParams found.params))

/-- The patterns of a table that can be built. -/
def runCheck (file : Text) (content? : Option Text) : Outcome :=
  match load file content? with
  | .error outcome => outcome
  | .ok router =>
    .printed (line ("Route table valid (".toList ++ Text.ofNat router.routes.length ++
      " routes)".toList) ++ router.patterns.flatMap item)

/-- The file that a command reads. -/
def Command.file? : Command → Option Text
  | routes file _ _ => some file
  | check file => some file
  | _ => none

/-- Runs a command; `content?` is the text of the file that it names. -/
def Command.run (command : Command) (content? : Option Text) : Outcome :=
  match command with
  | matching pattern paths all => runMatch pattern paths all
  | explain pattern => runExplain pattern
  | routes file path method => runRoutes file content? path method
  | check file => runCheck file content?

end RoutePattern.CommandLine
