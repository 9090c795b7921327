import Cohort.Random.Source
import Std.Data.ExtTreeSet

/-!
Draws of numbers, orders and subsets from a random source.

A number below a bound is made by scaling a word: the high part of a product is the number, and
words with a low part beyond some zone are rejected, so that every number has equally many words.
-/

namespace Cohort.Random

namespace Source

/-- How often a draw may be repeated in a row before it settles for the least answer. No tape that
ends in zeros comes near it. -/
def patience : Nat := 4294967296

def zone (width n : Nat) : Nat :=
  n * Nat.pow 2 (width - 1 - n.log2) - 1

def wideZone (width n : Nat) : Nat :=
  Nat.pow 2 width - 1 - Nat.pow 2 width % n

/-- Draw words of the given width until the zone accepts one, and scale it to a number below
`n`. -/
def scale (width zone : Nat) (draw : Source → Nat × Source) (n : Nat) :
    Nat → Source → Nat × Source
  | 0, s => (0, s)
  | tries + 1, s =>
    let (word, s) := draw s
    if word * n % Nat.pow 2 width ≤ zone then (word * n / Nat.pow 2 width, s)
    else scale width zone draw n tries s

def scale32 (s : Source) (zone n : Nat) : Nat × Source :=
  scale 32 zone (fun s => let (word, s) := s.next; (word.toNat, s)) n patience s

def below32 (s : Source) (n : Nat) : Nat × Source :=
  s.scale32 (zone 32 n) n

def below64 (s : Source) (n : Nat) : Nat × Source :=
  scale 64 (zone 64 n) (fun s => let (word, s) := s.next64; (word.toNat, s)) n patience s

theorem scale_lt {width zone n : Nat} {draw : Source → Nat × Source} (tries : Nat) (s : Source)
    (positive : 0 < n) (fits : ∀ s, (draw s).1 < Nat.pow 2 width) :
    (scale width zone draw n tries s).1 < n := by
  induction tries generalizing s with
  | zero => exact positive
  | succ tries ih =>
    unfold scale
    dsimp only
    split
    · exact Nat.div_lt_of_lt_mul (Nat.mul_lt_mul_of_pos_right (fits s) positive)
    · exact ih _

theorem scale32_lt (s : Source) (zone : Nat) {n : Nat} (positive : 0 < n) :
    (s.scale32 zone n).1 < n :=
  scale_lt _ _ positive fun s => s.next.1.toNat_lt

theorem below32_lt (s : Source) {n : Nat} (positive : 0 < n) : (s.below32 n).1 < n :=
  s.scale32_lt _ positive

theorem below64_lt (s : Source) {n : Nat} (positive : 0 < n) : (s.below64 n).1 < n :=
  scale_lt _ _ positive fun s => s.next64.1.toNat_lt

def choose {α : Type} (s : Source) (candidates : List α) : Option α × Source :=
  match candidates with
  | [] => (none, s)
  | _ => let (i, s) := s.below32 candidates.length; (candidates[i]?, s)

@[simp] theorem choose_nil {α : Type} (s : Source) :
    s.choose ([] : List α) = (none, s) :=
  rfl

theorem choose_cons {α : Type} (s : Source) (first : α) (rest : List α) :
    ∃ chosen ∈ first :: rest, (s.choose (first :: rest)).1 = some chosen := by
  have inside := s.below32_lt (Nat.zero_lt_succ rest.length)
  refine ⟨(first :: rest)[(s.below32 (rest.length + 1)).1], List.getElem_mem _, ?_⟩
  exact List.getElem?_eq_getElem inside

theorem choose_map {α β : Type} (s : Source) (f : α → β) (candidates : List α) :
    s.choose (candidates.map f) = ((s.choose candidates).1.map f, (s.choose candidates).2) := by
  cases candidates with
  | nil => rfl
  | cons first rest =>
    simp only [choose, List.map_cons, List.length_cons, List.length_map, ← List.getElem?_map]

def shuffleFrom {α : Type} : Nat → Array α → Source → Array α × Source
  | 0, items, s => (items, s)
  | i + 1, items, s =>
    let (j, s) := s.below32 (i + 2)
    shuffleFrom i (items.swapIfInBounds (i + 1) j) s

def shuffle {α : Type} (s : Source) (items : Array α) : Array α × Source :=
  shuffleFrom (items.size - 1) items s

theorem swapIfInBounds_perm {α : Type} (items : Array α) (i j : Nat) :
    (items.swapIfInBounds i j).Perm items := by
  unfold Array.swapIfInBounds
  split
  · split
    · exact Array.swap_perm ..
    · exact .refl _
  · exact .refl _

theorem shuffleFrom_perm {α : Type} (i : Nat) (items : Array α) (s : Source) :
    (shuffleFrom i items s).1.Perm items := by
  induction i generalizing items s with
  | zero => exact .refl _
  | succ i ih => exact (ih _ _).trans (swapIfInBounds_perm ..)

theorem shuffle_perm {α : Type} (s : Source) (items : Array α) :
    (s.shuffle items).1.Perm items :=
  shuffleFrom_perm ..

/-- True with the given probability; certainty needs no draw. -/
def chance (s : Source) (probability : Float) : Bool × Source :=
  if probability == 1.0 then (true, s)
  else
    let (word, s) := s.next64
    (word < (probability * 18446744073709551616.0).toUInt64, s)

/-! Subsets are drawn in one of three ways, whichever is cheapest for the sizes at hand. Below
fifty elements the first way also draws their order. -/

/-- Put `j` in front of the first `old`, or at the end when `old` is not there. -/
def insertBefore (old j : Nat) : List Nat → List Nat
  | [] => [j]
  | i :: rest => if i = old then j :: i :: rest else i :: insertBefore old j rest

/-- Extend a selection from the numbers below `j` to one from the numbers up to `j`. -/
def extend (ordered : Bool) (selected : List Nat) (j : Nat) (s : Source) : List Nat × Source :=
  let (t, s) := s.below32 (j + 1)
  if t ∈ selected then
    (if ordered then insertBefore t j selected else selected ++ [j], s)
  else (selected ++ [t], s)

def extendFrom (ordered : Bool) : (count j : Nat) → List Nat → Source → List Nat × Source
  | 0, _, selected, s => (selected, s)
  | count + 1, j, selected, s =>
    let (selected, s) := extend ordered selected j s
    extendFrom ordered count (j + 1) selected s

def sampleByExtension (s : Source) (length amount : Nat) : List Nat × Source :=
  if amount < 50 then extendFrom true amount (length - amount) [] s
  else
    let (selected, s) := extendFrom false amount (length - amount) [] s
    let (items, s) := s.shuffle selected.toArray
    (items.toList, s)

/-- Exchange each of the first `count` elements from `i` on with one at or after it. -/
def mixFront : (count i : Nat) → Array Nat → Source → Array Nat × Source
  | 0, _, items, s => (items, s)
  | count + 1, i, items, s =>
    let (j, s) := s.below32 (items.size - i)
    mixFront count (i + 1) (items.swapIfInBounds i (i + j)) s

def sampleByMixing (s : Source) (length amount : Nat) : List Nat × Source :=
  let (items, s) := mixFront amount 0 (Array.range length) s
  (items.toList.take amount, s)

def firstUnseen (length : Nat) (seen : Std.ExtTreeSet Nat) : Nat :=
  ((List.range length).find? fun i => !seen.contains i).getD 0

def unseen (length : Nat) (seen : Std.ExtTreeSet Nat) : Nat → Source → Nat × Source
  | 0, s => (firstUnseen length seen, s)
  | tries + 1, s =>
    let (i, s) := s.scale32 (wideZone 32 length) length
    if seen.contains i then unseen length seen tries s else (i, s)

def addUnseen (length : Nat) :
    (count : Nat) → Std.ExtTreeSet Nat → Array Nat → Source → Array Nat × Source
  | 0, _, drawn, s => (drawn, s)
  | count + 1, seen, drawn, s =>
    let (i, s) := unseen length seen patience s
    addUnseen length count (seen.insert i) (drawn.push i) s

def sampleByRejection (s : Source) (length amount : Nat) : List Nat × Source :=
  let (items, s) := addUnseen length amount ∅ #[] s
  (items.toList, s)

def mixesFew (length amount : Nat) : Bool :=
  let size := Float32.ofNat amount
  11 < amount && Float32.ofNat length < (10.0 + 1.6 * size) * size

def mixesMany (length amount : Nat) : Bool :=
  let factor : Float32 := if length < 500000 then 270.0 else 330.0 / 9.0
  Float32.ofNat length < factor * Float32.ofNat amount

/-- Distinct numbers below `length`, at most `amount` of them, in random order. -/
def sample (s : Source) (length amount : Nat) : List Nat × Source :=
  let amount := min amount length
  if amount < 163 then
    if mixesFew length amount then s.sampleByMixing length amount
    else s.sampleByExtension length amount
  else
    if mixesMany length amount then s.sampleByMixing length amount
    else s.sampleByRejection length amount

end Source

end Cohort.Random
