import Cohort.Random.Source

/-!
The keystream of a twelve-round ChaCha cipher as a tape, keyed by a number.
-/

namespace Cohort.Random

def rotateLeft (word : UInt32) (bits : UInt32) : UInt32 :=
  word <<< bits ||| word >>> (32 - bits)

namespace Block

def mix (b : Block) (target addend mixed : Fin 16) (bits : UInt32) : Block :=
  let sum := b[target] + b[addend]
  let b := b.set target sum
  b.set mixed (rotateLeft (b[mixed] ^^^ sum) bits)

def quarterRound (b : Block) (i j k l : Fin 16) : Block :=
  ((((b.mix i j l 16).mix k l j 12).mix i j l 8).mix k l j 7)

def doubleRound (b : Block) : Block :=
  let b := b.quarterRound 0 4 8 12
  let b := b.quarterRound 1 5 9 13
  let b := b.quarterRound 2 6 10 14
  let b := b.quarterRound 3 7 11 15
  let b := b.quarterRound 0 5 10 15
  let b := b.quarterRound 1 6 11 12
  let b := b.quarterRound 2 7 8 13
  b.quarterRound 3 4 9 14

end Block

/-- The next state of the generator that spreads a seed over the key. -/
def seedStep (state : UInt64) : UInt64 :=
  state * 6364136223846793005 + 11634580027462260723

def seedWord (state : UInt64) : UInt32 :=
  let word := (((state >>> 18) ^^^ state) >>> 27).toUInt32
  rotateLeft word ((32 : UInt32) - (state >>> 59).toUInt32)

def seedStates (state : UInt64) : Nat → List UInt64
  | 0 => []
  | n + 1 => seedStep state :: seedStates (seedStep state) n

def seedKey (seed : UInt64) : List UInt32 :=
  (seedStates seed 8).map seedWord

def initialBlock (key : List UInt32) (n : Nat) : Block :=
  let number := UInt64.ofNat n
  let constants : List UInt32 := [0x61707865, 0x3320646e, 0x79622d32, 0x6b206574]
  let words := constants ++ key ++ [number.toUInt32, (number >>> 32).toUInt32, 0, 0]
  Vector.ofFn fun i => words.getD i.val 0

def keyBlock (key : List UInt32) (n : Nat) : Block :=
  let start := initialBlock key n
  let mixed := Nat.repeat Block.doubleRound 6 start
  Vector.zipWith (· + ·) mixed start

def Source.ofSeed (seed : UInt64) : Source :=
  let key := seedKey seed
  { block := keyBlock key, drawn := 0 }

end Cohort.Random
