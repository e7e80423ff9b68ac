import RoutePattern.CommandLine.Arguments

/-!
# Help

The text that is printed when help is asked for: what a command does, how it is called, and what
its values and options mean, in aligned columns.
-/

namespace RoutePattern.CommandLine

/-- A row of a table: what is explained, and the explanation. -/
structure HelpRow where
  term : String
  meaning : String

/-- What is known about a topic. -/
structure HelpPage where
  about : String
  usage : String
  commands : List HelpRow
  values : List HelpRow
  options : List HelpRow

/-- The rows of a table with their meanings in one column. -/
def renderRows (rows : List HelpRow) : Text :=
  let width := (rows.map fun row => row.term.length).foldl max 0
  rows.flatMap fun row =>
    "  ".toList ++ row.term.toList ++ List.replicate (width - row.term.length) ' ' ++
      "  ".toList ++ row.meaning.toList ++ ['\n']

/-- A table with its title and an empty line before it; nothing without rows. -/
def renderTable (title : String) (rows : List HelpRow) : Text :=
  if rows.isEmpty then [] else '\n' :: title.toList ++ ":\n".toList ++ renderRows rows

/-- A page as it is printed. -/
def HelpPage.render (page : HelpPage) : Text :=
  page.about.toList ++ "\n\nUsage: waypath ".toList ++ page.usage.toList ++ ['\n'] ++
    renderTable "Commands" page.commands ++ renderTable "Arguments" page.values ++
    renderTable "Options" page.options

/-- The options of every command. -/
def commonOptions : List HelpRow :=
  [⟨"-v, --verbose...", "Log verbosity (-v debug, -vv trace). Overrides RUST_LOG"⟩,
   ⟨"-h, --help", "Print help"⟩]

namespace CommandName

/-- What a command does. -/
def about : CommandName → String
  | matching => "Match paths against a single pattern"
  | explain => "Show how a pattern compiles"
  | routes => "Dispatch a path through a route table file"
  | check => "Validate a route table file"

/-- The page of a command. -/
def page (name : CommandName) : HelpPage :=
  match name with
  | matching =>
    { about := name.about
      usage := "match [OPTIONS] <PATTERN> <PATHS>..."
      commands := []
      values := [⟨"<PATTERN>", ""⟩, ⟨"<PATHS>...", ""⟩]
      options :=
        ⟨"-a, --all", "Print every match in priority order, not only the first"⟩ :: commonOptions }
  | explain =>
    { about := name.about
      usage := "explain [OPTIONS] <PATTERN>"
      commands := []
      values := [⟨"<PATTERN>", ""⟩]
      options := commonOptions }
  | routes =>
    { about := name.about
      usage := "routes [OPTIONS] <CONFIG> <PATH>"
      commands := []
      values := [⟨"<CONFIG>", ""⟩, ⟨"<PATH>", ""⟩]
      options := ⟨"-m, --method <METHOD>", "[default: GET]"⟩ :: commonOptions }
  | check =>
    { about := name.about
      usage := "check [OPTIONS] <CONFIG>"
      commands := []
      values := [⟨"<CONFIG>", ""⟩]
      options := commonOptions }

end CommandName

/-- What the command for help does. -/
def aboutHelp : String := "Print this message or the help of the given subcommand(s)"

/-- The page of a topic. -/
def HelpTopic.page : HelpTopic → HelpPage
  | program =>
    { about := "Compile route patterns and match paths against them"
      usage := "[OPTIONS] <COMMAND>"
      commands :=
        [⟨"match", CommandName.matching.about⟩, ⟨"explain", CommandName.explain.about⟩,
         ⟨"routes", CommandName.routes.about⟩, ⟨"check", CommandName.check.about⟩,
         ⟨"help", aboutHelp⟩]
      values := []
      options := commonOptions }
  | command name => name.page
  | help =>
    { about := aboutHelp
      usage := "help [COMMAND]..."
      commands := []
      values := [⟨"[COMMAND]...", "Print help for the subcommand(s)"⟩]
      options := [] }

end RoutePattern.CommandLine
