import RoutePattern.Router.Handlers
import RoutePattern.Table.Basic

/-!
# Suites of expectations

A suite states what patterns, or a route table, do with some inputs. `run` compares each case with
what really happens, and `holds` says whether the suite is right: every case passes, or building
fails with the expected kind of error.
-/

namespace RoutePattern.Suite

/-- What became of a case. -/
structure CaseResult (α : Type) where
  name : Text
  expected : List α
  actual : List α

/-- The case went as expected. -/
def CaseResult.passed {α : Type} [DecidableEq α] (result : CaseResult α) : Bool :=
  result.actual = result.expected

/-! ## Patterns -/

/-- A match by the place of its pattern. -/
structure PatternMatch where
  pattern : Nat
  params : Params
deriving DecidableEq

/-- An input with all its matches in order. -/
structure PatternCase where
  name : Text
  input : Text
  expected : List PatternMatch

/-- A suite for patterns that are compiled together. -/
structure PatternSuite where
  name : Text
  description : Text
  patterns : List Text
  /-- The kind of the error that compiling has to end with. -/
  expectedError : Option Text
  cases : List PatternCase

namespace PatternSuite

/-- The automaton of the patterns, each with its place as its tag. -/
def build (suite : PatternSuite) : Except PatternError (Automaton Nat) :=
  Automaton.ofPatterns suite.patterns.zipIdx

/-- The results of the cases. -/
def run (suite : PatternSuite) (automaton : Automaton Nat) : List (CaseResult PatternMatch) :=
  suite.cases.map fun test =>
    ⟨test.name, test.expected,
      (automaton.matchesOf test.input).toList.map fun found => ⟨found.tag, found.params⟩⟩

/-- Whether everything is as the suite states. -/
def holds (suite : PatternSuite) : Bool :=
  match suite.expectedError, suite.build with
  | some kind, .error error => error.kind.toList = kind
  | some _, .ok _ => false
  | none, .error _ => false
  | none, .ok automaton => (suite.run automaton).all CaseResult.passed

end PatternSuite

/-! ## Route tables -/

/-- A handler by its name. -/
structure ActionMatch where
  action : Text
  params : Params
deriving DecidableEq

/-- A request with all its handlers in order. -/
structure RequestCase where
  name : Text
  method : Method
  path : Text
  expected : List ActionMatch

/-- A suite for a route table. -/
structure TableSuite where
  name : Text
  description : Text
  routes : List (Table.Entry Text)
  cases : List RequestCase

namespace TableSuite

/-- The router of the table. -/
def build (suite : TableSuite) : Except PatternError (Router Text) := Table.build suite.routes

/-- The results of the cases. -/
def run (suite : TableSuite) (router : Router Text) : List (CaseResult ActionMatch) :=
  suite.cases.map fun test =>
    ⟨test.name, test.expected,
      (router.handlers test.method test.path).map fun found => ⟨found.handler, found.params⟩⟩

/-- Whether everything is as the suite states. -/
def holds (suite : TableSuite) : Bool :=
  match suite.build with
  | .error _ => false
  | .ok router => (suite.run router).all CaseResult.passed

end TableSuite

end RoutePattern.Suite
