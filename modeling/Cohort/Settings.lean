import Cohort.Clustering
import Cohort.Document

/-!
Settings of the service: their presets, how they are checked, and how they are read.
-/

namespace Cohort

structure Settings where
  interval : Duration
  periods : Nat
  iterations : Nat
  statistics : Bool
  seed : Option Nat
  deriving DecidableEq, Repr

namespace Settings

def default : Settings where
  interval := .ofSeconds 300
  periods := 1
  iterations := 100
  statistics := false
  seed := none

instance : Inhabited Settings := ⟨default⟩

def testing : Settings :=
  { default with interval := .ofMillis 20, statistics := true, seed := some 0 }

/-- The first of the checks that fails tells what is wrong. -/
def validate (s : Settings) : Except Fault Unit :=
  if s.interval.isZero then .error (.settings .noInterval)
  else if s.periods = 0 then .error (.settings .noPeriods)
  else if s.iterations = 0 then .error (.settings .noIterations)
  else .ok ()

theorem validate_eq_ok {s : Settings} :
    s.validate = .ok () ↔ 0 < s.interval.nanos ∧ 0 < s.periods ∧ 0 < s.iterations := by
  simp only [validate, Duration.isZero, beq_iff_eq]
  grind

def method (s : Settings) : Method where
  cap := s.iterations
  seed := s.seed
  statistics := s.statistics

def orDefault {α : Type} (value : α) (read : Document → Option α) : Option Document → Option α
  | none => some value
  | some d => read d

def ofParts (interval periods iterations statistics seed : Option Document) :
    Option Settings := do
  return {
    interval := ← orDefault default.interval Document.duration? interval
    periods := ← orDefault default.periods Document.word? periods
    iterations := ← orDefault default.iterations Document.word? iterations
    statistics := ← orDefault default.statistics Document.flag? statistics
    seed := ← orDefault default.seed Document.optionalWord? seed }

/-- Settings are read by name, where other names do not matter, or in their order, where the last
ones may be left out. -/
def read : Document → Option Settings
  | .record fields =>
    let part := Document.field? fields
    ofParts (part "snapshot_interval") (part "period_count") (part "max_iterations")
      (part "gather_statistics") (part "seed")
  | .list items =>
    if items.length ≤ 5 then ofParts items[0]? items[1]? items[2]? items[3]? items[4]?
    else none
  | _ => none

end Settings

inductive LogFormat where
  | plain
  | json
  deriving DecidableEq, Repr, Inhabited

namespace LogFormat

def default : LogFormat := plain

def name : LogFormat → String
  | plain => "plain"
  | json => "json"

def ofName? (name : String) : Option LogFormat :=
  if name = "plain" then some plain
  else if name = "json" then some json
  else none

/-- A format is read from its name, or from a record with that one field and nothing in it. -/
def read : Document → Option LogFormat
  | .text name => ofName? name
  | .record [(name, .null)] => ofName? name
  | _ => none

@[simp] theorem read_name (format : LogFormat) : read (.text format.name) = some format := by
  cases format <;> simp [read, name, ofName?]

def install (_ : LogFormat) : Except Fault Unit :=
  .error (.logging "a global default trace dispatcher has already been set")

end LogFormat

end Cohort
