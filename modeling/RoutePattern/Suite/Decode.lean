import RoutePattern.Json.Record
import RoutePattern.Suite.Basic
import RoutePattern.Table.Decode

/-!
# Suites in JSON

Suites, cases and expected matches are records. `expect_error` and `cases` of a suite of patterns
may be left out, and so may the `params` of an expected match.
-/

namespace RoutePattern.Suite

/-- Parameters: an object of strings. -/
def params? : Option Json → Option Params
  | none => some .empty
  | some (.object fields) => do
    return .ofCaptures (← fields.mapM fun (name, value) => return (name, ← value.text?))
  | some _ => none

/-- An expected match of a pattern. -/
def patternMatch? (record : Json) : Option PatternMatch := do
  match ← record.record? ["route", "params"] with
  | [some pattern, params] => return ⟨← pattern.nat?, ← params? params⟩
  | _ => none

/-- A case of a suite of patterns. -/
def patternCase? (record : Json) : Option PatternCase := do
  match ← record.record? ["name", "input", "expect"] with
  | [some name, some input, some expected] =>
    return ⟨← name.text?, ← input.text?, ← Json.list? patternMatch? expected⟩
  | _ => none

/-- The kind of an expected error; `null` expects none. -/
def expectedError? : Option Json → Option (Option Text)
  | none => some none
  | some .null => some none
  | some kind => kind.text?.map some

/-- The cases of a suite of patterns. -/
def patternCases? : Option Json → Option (List PatternCase)
  | none => some []
  | some cases => Json.list? patternCase? cases

/-- A suite of patterns. -/
def PatternSuite.ofJson? (record : Json) : Option PatternSuite := do
  match ← record.record? ["name", "description", "patterns", "expect_error", "cases"] with
  | [some name, some description, some patterns, error, cases] =>
    return ⟨← name.text?, ← description.text?, ← Json.list? Json.text? patterns,
      ← expectedError? error, ← patternCases? cases⟩
  | _ => none

/-- An expected handler. -/
def actionMatch? (record : Json) : Option ActionMatch := do
  match ← record.record? ["action", "params"] with
  | [some action, params] => return ⟨← action.text?, ← params? params⟩
  | _ => none

/-- A case of a suite for a route table. -/
def requestCase? (record : Json) : Option RequestCase := do
  match ← record.record? ["name", "method", "path", "expect"] with
  | [some name, some method, some path, some expected] =>
    return ⟨← name.text?, ← Table.method? false method, ← path.text?,
      ← Json.list? actionMatch? expected⟩
  | _ => none

/-- A suite for a route table. -/
def TableSuite.ofJson? (record : Json) : Option TableSuite := do
  match ← record.record? ["name", "description", "routes", "cases"] with
  | [some name, some description, some routes, some cases] =>
    return ⟨← name.text?, ← description.text?, ← Table.entries? routes,
      ← Json.list? requestCase? cases⟩
  | _ => none

end RoutePattern.Suite
