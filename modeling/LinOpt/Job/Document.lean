import LinOpt.Engine.Parameters
import LinOpt.Job.Basic

namespace LinOpt

open Json

/-- There is no number for an infinity or for no number, so these are written as null. -/
def Double.toJson (x : Double) : Json Double := if x.isFinite then .number x else .null

namespace Job

def VariableEntry.toJson (v : VariableEntry) : Json Double :=
  .record [("name", .text v.name), ("lowerBound", .optional Double.toJson v.lower),
    ("upperBound", .optional Double.toJson v.upper)]

def VariableEntry.ofJson? (j : Read) : Option VariableEntry := do
  let [name, lower, upper] ← fields ["name", "lowerBound", "upperBound"] j | none
  return {
    name := ← required string? name
    lower := ← withDefault none (nullable double?) lower
    upper := ← withDefault none (nullable double?) upper }

def Term.toJson (t : Term) : Json Double :=
  .record [("coefficient", t.coefficient.toJson), ("variable", .text t.variableName)]

def Term.ofJson? (j : Read) : Option Term := do
  let [coefficient, name] ← fields ["coefficient", "variable"] j | none
  return { coefficient := ← required double? coefficient, variableName := ← required string? name }

def ConstraintEntry.toJson (c : ConstraintEntry) : Json Double :=
  .record [("terms", .array (c.terms.map Term.toJson)),
    ("lowerBound", .optional Double.toJson c.lower),
    ("upperBound", .optional Double.toJson c.upper)]

def ConstraintEntry.ofJson? (j : Read) : Option ConstraintEntry := do
  let [terms, lower, upper] ← fields ["terms", "lowerBound", "upperBound"] j | none
  return {
    terms := ← required (list? Term.ofJson?) terms
    lower := ← withDefault none (nullable double?) lower
    upper := ← withDefault none (nullable double?) upper }

def ObjectiveEntry.toJson (o : ObjectiveEntry) : Json Double :=
  .record [("expression", .array (o.terms.map Term.toJson)), ("maximize", .bool o.maximize),
    ("offset", .optional Double.toJson o.offset)]

def ObjectiveEntry.ofJson? (j : Read) : Option ObjectiveEntry := do
  let [terms, maximize, offset] ← fields ["expression", "maximize", "offset"] j | none
  return {
    terms := ← required (list? Term.ofJson?) terms
    maximize := ← required bool? maximize
    offset := ← withDefault none (nullable double?) offset }

def Request.toJson (r : Request) : Json Double :=
  .record [("variables", .array (r.variables.map VariableEntry.toJson)),
    ("constraints", .array (r.constraints.map ConstraintEntry.toJson)),
    ("objective", r.objective.toJson)]

def Request.ofJson? (j : Read) : Option Request := do
  let [vars, constraints, objective] ← fields ["variables", "constraints", "objective"] j
    | none
  return {
    «variables» := ← required (list? VariableEntry.ofJson?) vars
    constraints := ← required (list? ConstraintEntry.ofJson?) constraints
    objective := ← required ObjectiveEntry.ofJson? objective }

def Response.toJson (r : Response) : Json Double :=
  .record [("isFeasible", .bool r.isFeasible), ("gap", .optional Double.toJson r.gap),
    ("objectiveValue", .optional Double.toJson r.objective), ("isOptimal", .bool r.isOptimal),
    ("solverResultStatus", .optional .text r.status),
    ("variableValues",
      .record (r.values.entries.map fun e => (e.1, .optional Double.toJson e.2)))]

/-- Of several values for one name the last counts. -/
def valuesOfJson? : Read → Option (OrderedMap String (Option Double))
  | .object members => do
    let pairs ← members.mapM fun m => do return (← m.1, ← nullable double? m.2)
    return OrderedMap.ofList pairs
  | _ => none

def Response.ofJson? (j : Read) : Option Response := do
  let [isFeasible, gap, objective, isOptimal, status, values] ← fields
    ["isFeasible", "gap", "objectiveValue", "isOptimal", "solverResultStatus", "variableValues"] j
    | none
  return {
    isFeasible := ← required bool? isFeasible
    gap := ← withDefault none (nullable double?) gap
    objective := ← withDefault none (nullable double?) objective
    isOptimal := ← required bool? isOptimal
    status := ← withDefault none (nullable string?) status
    values := ← withDefault {} valuesOfJson? values }

end Job

def Parameters.toJson (p : Parameters) : Json Double :=
  .record [("enableSolverOutput", .bool p.showLog),
    ("relativeGap", .optional Double.toJson p.relativeGap),
    ("timeLimitInMilliseconds", .optional (fun n => .number (.ofNat n.toNat)) p.timeLimitMs),
    ("numberOfThreads", .optional (fun n => .number (.ofNat n.toNat)) p.threadCount),
    ("additionalSolverSpecificParameters",
      .array (p.extra.map fun kv => .array [.text kv.1, .text kv.2])),
    ("exportModelFilePath", .optional .text p.exportPath)]

def Parameters.ofJson? (j : Read) : Option Parameters := do
  let [showLog, gap, timeLimit, threads, extra, exportPath] ← fields
    ["enableSolverOutput", "relativeGap", "timeLimitInMilliseconds", "numberOfThreads",
      "additionalSolverSpecificParameters", "exportModelFilePath"] j
    | none
  let p : Parameters := {}
  return {
    showLog := ← withDefault p.showLog bool? showLog
    relativeGap := ← withDefault p.relativeGap (nullable double?) gap
    timeLimitMs := ← withDefault p.timeLimitMs (nullable uint32?) timeLimit
    threadCount := ← withDefault p.threadCount (nullable uint32?) threads
    extra := ← withDefault p.extra (list? stringPair?) extra
    exportPath := ← withDefault p.exportPath (nullable string?) exportPath }

end LinOpt
