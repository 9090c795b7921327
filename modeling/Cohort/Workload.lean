import Cohort.Capacity
import Cohort.Group
import Cohort.Random.ChaCha
import Cohort.Random.Draw
import Cohort.Weight

/-!
Made-up access streams with planted communities.

Every community owns a pool of objects, from which its identities draw; noise redirects single
draws to the pools of other communities.
-/

namespace Cohort

open Cohort.Random (Source)

/-- The sizes of a stream, its noise, and the seed it is drawn from. -/
structure Workload where
  communities : Nat
  /-- Identities of each community. -/
  identities : Nat
  /-- Objects of each community. -/
  objects : Nat
  /-- Access events of each identity. -/
  accesses : Nat
  /-- Objects of each access event, as far as the pool has so many. -/
  perAccess : Nat
  noise : Float
  seed : Nat

structure Event where
  identity : Identity
  objects : List ObjectId
  deriving DecidableEq, Repr, Inhabited

namespace Workload

def default : Workload := ⟨8, 16, 32, 20, 4, 0.02, 42⟩

def light : Workload := ⟨4, 5, 3, 2, 3, 0.0, 42⟩

def heavy : Workload := ⟨32, 32, 64, 50, 6, 0.05, 42⟩

def identityCount (w : Workload) : Except Overflow Nat :=
  inWord .product (w.communities * w.identities)

def eventCount (w : Workload) : Except Overflow Nat := do
  let identities ← w.identityCount
  inWord .product (identities * w.accesses)

def poolBytes : Nat := 8

def eventBytes : Nat := 40

def groupBytes : Nat := 32

def memberBytes : Nat := 16

def probability (w : Workload) : Float :=
  if w.noise.isNaN || w.noise < 0.0 then 0.0
  else if 1.0 < w.noise then 1.0
  else w.noise

def identity (community number : Nat) : Identity :=
  String.ofList ('c' :: paddedDigits 10 3 community ++ '-' :: 'i' :: paddedDigits 10 3 number)

def object (w : Workload) (community number : Nat) : ObjectId :=
  1 + (community * w.objects + number)

def members (w : Workload) (community : Nat) : List Identity :=
  (List.range w.identities).map (identity community)

def planted (w : Workload) : List Group :=
  (List.range w.communities).map fun community => Group.ofList community (w.members community)

/-- The communities as groups, as far as there is room for them and for the members of each. -/
def plant (w : Workload) : Except Overflow (List Group) := do
  room groupBytes w.communities
  if 0 < w.communities then room memberBytes w.identities
  return w.planted

def everyone (w : Workload) : List (Nat × Nat) :=
  (List.range w.communities).flatMap fun community =>
    (List.range w.identities).map fun number => (community, number)

/-- Community and number of every event's identity, before the events are shuffled: everyone once
for each access. Where there is no one, accesses are not counted out. -/
def slots (w : Workload) : List (Nat × Nat) :=
  let everyone := w.everyone
  if everyone.isEmpty then [] else (List.replicate w.accesses everyone).flatten

theorem slots_eq (w : Workload) : w.slots = (List.replicate w.accesses w.everyone).flatten := by
  unfold slots
  dsimp only
  split
  next empty => simp [List.isEmpty_iff.mp empty]
  next => rfl

def serving (w : Workload) (community : Nat) (s : Source) : Nat × Source :=
  if 1 < w.communities then
    let (redirected, s) := s.chance w.probability
    if redirected then
      let (step, s) := s.below64 (w.communities - 1)
      ((community + (1 + step)) % w.communities, s)
    else (community, s)
  else (community, s)

def serve (w : Workload) (community : Nat) : List Nat → Source → List ObjectId × Source
  | [], s => ([], s)
  | number :: rest, s =>
    let (other, s) := w.serving community s
    let (objects, s) := w.serve community rest s
    (w.object other number :: objects, s)

def event (w : Workload) (slot : Nat × Nat) (s : Source) : Event × Source :=
  let (numbers, s) := s.sample w.objects w.perAccess
  let (objects, s) := w.serve slot.1 numbers s
  (⟨identity slot.1 slot.2, objects⟩, s)

def eventsFor (w : Workload) : List (Nat × Nat) → Array Event → Source → Array Event × Source
  | [], made, s => (made, s)
  | slot :: rest, made, s =>
    let (event, s) := w.event slot s
    w.eventsFor rest (made.push event) s

def events (w : Workload) (s : Source) : List Event × Source :=
  let (made, s) := w.eventsFor w.slots #[] s
  let (shuffled, s) := s.shuffle made
  (shuffled.toList, s)

def source (w : Workload) : Source :=
  .ofSeed w.seed.toUInt64

/-- The whole stream, as far as there is room for a pool and for the events, which have to be
counted before. -/
def stream (w : Workload) (s : Source) : Except Overflow (List Event × Source) := do
  room poolBytes w.objects
  let count ← w.eventCount
  room eventBytes count
  return w.events s

def streams (w : Workload) : Nat → Source → Except Overflow (List (List Event))
  | 0, _ => .ok []
  | n + 1, s => do
    let (events, s) ← w.stream s
    let rest ← w.streams n s
    return events :: rest

end Workload

end Cohort
