import Cohort.Duration

/-!
Structured documents, as settings are written in them, and how plain values are read.
-/

namespace Cohort

/-- A document; numbers that are not whole are told apart but not kept. -/
inductive Document where
  | null
  | bool (value : Bool)
  | whole (value : Int)
  | fraction
  | text (value : String)
  | list (items : List Document)
  | record (fields : List (String × Document))
  deriving Inhabited

namespace Document

def field? (fields : List (String × Document)) (name : String) : Option Document :=
  fields.lookup name

def below? (bound : Nat) : Document → Option Nat
  | whole (.ofNat n) => if n < bound then some n else none
  | _ => none

def word? (d : Document) : Option Nat :=
  d.below? wordBound

def flag? : Document → Option Bool
  | bool value => some value
  | _ => none

def optionalWord? : Document → Option (Option Nat)
  | null => some none
  | d => d.word?.map some

/-- Seconds and nanoseconds, by name or in this order, and nothing else. -/
def duration? : Document → Option Duration
  | list [seconds, nanos] => ofParts seconds nanos
  | record fields =>
    if fields.length = 2 then do
      let seconds ← field? fields "secs"
      let nanos ← field? fields "nanos"
      ofParts seconds nanos
    else none
  | _ => none
where
  ofParts (seconds nanos : Document) : Option Duration := do
    (Duration.ofParts (← seconds.word?) (← nanos.below? 4294967296)).toOption

end Document

end Cohort
