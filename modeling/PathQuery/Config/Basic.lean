import PathQuery.Config.Json
import PathQuery.Path.Traversal
import PathQuery.Text.Quoted

/-!
# Configuration

* `SchedulerConfig`, `EngineConfig`: the settings, with their defaults;
* `EngineConfig.ofText`, `EngineConfig.toText`: settings as a JSON document;
* `EngineConfig.overlay`: settings replaced by environment variables.
-/

namespace PathQuery

structure SchedulerConfig where
  /-- How many workers run queries; the machine decides if nothing is set. -/
  workers : Option Nat := none
  threadNamePrefix : String := "pathwise-worker"
  deriving DecidableEq, Repr

namespace SchedulerConfig

/-- The configured number of workers; there is always one. -/
def workerCount (c : SchedulerConfig) : Option Nat :=
  c.workers.map (max 1)

end SchedulerConfig

structure EngineConfig where
  maxHops : Option Nat := none
  maxVisited : Option Nat := none
  scheduler : SchedulerConfig := {}
  deriving DecidableEq, Repr

/-- A variable of the environment has no value that can be used. -/
structure VariableError where
  key : String
  raw : String
  deriving DecidableEq, Repr

namespace VariableError

def message (e : VariableError) : String :=
  s!"invalid value for {e.key}: " ++ Text.quote e.raw

end VariableError

namespace EngineConfig

def limits (c : EngineConfig) : Limits :=
  ⟨c.maxHops, c.maxVisited⟩

/-- Hops are counted in 32 bits. -/
def hopBound : Nat := 0x100000000

/-- All other numbers have 64 bits. -/
def sizeBound : Nat := 0x10000000000000000

/-! ## JSON -/

/-- A field that is missing has its default. -/
def fieldOr {α : Type} (default : α) (read : Json → Option α) : Option Json → Option α
  | none => some default
  | some j => read j

def schedulerOfJson (j : Json) : Option SchedulerConfig := do
  match ← j.record ["workers", "thread_name_prefix"] with
  | [workers, threadNamePrefix] =>
    let workers ← fieldOr none (Json.toOptionalNatBelow sizeBound) workers
    let threadNamePrefix ←
      fieldOr ({} : SchedulerConfig).threadNamePrefix Json.toText threadNamePrefix
    pure { workers, threadNamePrefix }
  | _ => none

def ofJson (j : Json) : Option EngineConfig := do
  match ← j.record ["max_hops", "max_visited", "scheduler"] with
  | [maxHops, maxVisited, scheduler] =>
    let maxHops ← fieldOr none (Json.toOptionalNatBelow hopBound) maxHops
    let maxVisited ← fieldOr none (Json.toOptionalNatBelow sizeBound) maxVisited
    let scheduler ← fieldOr {} schedulerOfJson scheduler
    pure { maxHops, maxVisited, scheduler }
  | _ => none

def ofText (text : String) : Option EngineConfig := do
  ofJson (← Json.ofText text)

def member (name : String) (value : Json) : List Nat × Json :=
  (name.toList.map Char.toNat, value)

def toJson (c : EngineConfig) : Json :=
  .object
    [member "max_hops" (.ofOptionalNat c.maxHops),
      member "max_visited" (.ofOptionalNat c.maxVisited),
      member "scheduler" (.object
        [member "workers" (.ofOptionalNat c.scheduler.workers),
          member "thread_name_prefix" (.ofString c.scheduler.threadNamePrefix)])]

def toText (c : EngineConfig) : String :=
  String.ofList c.toJson.render

/-- Whether the written settings are read back unchanged. -/
def roundTrips (c : EngineConfig) : Bool :=
  ofText c.toText = some c

/-! ## Environment variables -/

/-- Digits with an optional plus sign, blank characters around them. -/
def parseVariable (bound : Nat) (key raw : String) : Except VariableError Nat :=
  let digits := match Text.trimBlank raw.toList with
    | '+' :: digits => digits
    | digits => digits
  match (Json.natOfDigits digits).filter (· < bound) with
  | some n => .ok n
  | none => .error ⟨key, raw⟩

/-- The variable's value if it is set, else what was there. -/
def override (get : String → Option String) (bound : Nat) (key : String) (current : Option Nat) :
    Except VariableError (Option Nat) :=
  match get key with
  | none => .ok current
  | some raw => some <$> parseVariable bound key raw

def overlay (c : EngineConfig) (get : String → Option String) :
    Except VariableError EngineConfig := do
  let maxHops ← override get hopBound "PATHWISE_MAX_HOPS" c.maxHops
  let maxVisited ← override get sizeBound "PATHWISE_MAX_VISITED" c.maxVisited
  let workers ← override get sizeBound "PATHWISE_WORKERS" c.scheduler.workers
  pure { maxHops, maxVisited, scheduler := { c.scheduler with workers } }

def ofEnvironment (get : String → Option String) : Except VariableError EngineConfig :=
  overlay {} get

end EngineConfig

end PathQuery
