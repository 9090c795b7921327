/-!
Random sources: an endless tape of 32-bit words and a place on it.

Drawing only moves the place. The tape comes in blocks of sixteen words, and the block of the
next word is kept at hand.
-/

namespace Cohort.Random

abbrev Block := Vector UInt32 16

/-- A tape and the number of words drawn from it. -/
structure Source where
  block : Nat → Block
  drawn : Nat
  current : Block := block (drawn / 16)
  current_eq : current = block (drawn / 16) := by rfl

namespace Source

def word (s : Source) (place : Nat) : UInt32 :=
  (s.block (place / 16))[place % 16]

def ofWords (words : Array UInt32) : Source where
  block n := Vector.ofFn fun i => words.getD (16 * n + i.val) 0
  drawn := 0

instance : Inhabited Source := ⟨ofWords #[]⟩

theorem ext {s t : Source} (block : s.block = t.block) (drawn : s.drawn = t.drawn) : s = t := by
  obtain ⟨_, _, _, rfl⟩ := s
  obtain ⟨_, _, _, rfl⟩ := t
  cases block; cases drawn; rfl

def advance (s : Source) : Source :=
  if same : (s.drawn + 1) / 16 = s.drawn / 16 then
    { s with drawn := s.drawn + 1, current_eq := by rw [same]; exact s.current_eq }
  else { block := s.block, drawn := s.drawn + 1 }

def next (s : Source) : UInt32 × Source :=
  (s.current[s.drawn % 16], s.advance)

@[simp] theorem block_advance (s : Source) : s.advance.block = s.block := by
  unfold advance
  split <;> rfl

@[simp] theorem drawn_advance (s : Source) : s.advance.drawn = s.drawn + 1 := by
  unfold advance
  split <;> rfl

@[simp] theorem next_fst (s : Source) : s.next.1 = s.word s.drawn := by
  simp [next, word, s.current_eq]

@[simp] theorem next_snd (s : Source) : s.next.2 = s.advance :=
  rfl

/-- Draw two words as one of 64 bits, the low half first. -/
def next64 (s : Source) : UInt64 × Source :=
  let (low, s) := s.next
  let (high, s) := s.next
  (high.toUInt64 <<< 32 ||| low.toUInt64, s)

end Source

end Cohort.Random
