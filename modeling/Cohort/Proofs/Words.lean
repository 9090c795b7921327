import Cohort.Tally.Share
import Cohort.Weight

/-! Loops that count in words. Every sum is checked when it is made, and what has outgrown a word is
not made smaller later on, so a loop gets through just when all it holds at the end fits. -/

namespace Cohort

variable {σ α : Type}

/-- When what does not fit never fits again, a loop that checks each step is one that checks the
end. -/
theorem foldlM_checked (step : σ → α → σ) (Fits : σ → Prop) [DecidablePred Fits]
    {checked : σ → α → Except Overflow σ} {cause : Overflow}
    (hback : ∀ state item, Fits (step state item) → Fits state)
    (hchecked : ∀ state item, Fits state → checked state item =
      if Fits (step state item) then .ok (step state item) else .error cause)
    {state : σ} (hstart : Fits state) (items : List α) : items.foldlM checked state =
      if Fits (items.foldl step state) then .ok (items.foldl step state) else .error cause := by
  have hlost {state : σ} (hnot : ¬ Fits state) (items : List α) :
      ¬ Fits (items.foldl step state) := by
    induction items generalizing state with
    | nil => exact hnot
    | cons item rest ih => exact ih (mt (hback state item) hnot)
  induction items generalizing state with
  | nil => exact (if_pos hstart).symm
  | cons item rest ih =>
    rw [List.foldlM_cons, List.foldl_cons, hchecked state item hstart]
    by_cases hnext : Fits (step state item)
    · rw [if_pos hnext]
      exact ih hnext
    · rw [if_neg hnext, if_neg (hlost hnext rest)]
      rfl

def addWords (numbers : List Nat) : Except Overflow Nat :=
  numbers.foldlM (fun sum n => inWord .sum (sum + n)) 0

theorem addWords_eq (numbers : List Nat) : addWords numbers = inWord .sum (addUp numbers) := by
  have hsum (start : Nat) (numbers : List Nat) :
      numbers.foldl (· + ·) start = start + addUp numbers := by
    induction numbers generalizing start with
    | nil => rfl
    | cons n rest ih => rw [List.foldl_cons, ih, addUp_cons, Nat.add_assoc]
  have hloop := foldlM_checked (fun sum n : Nat => sum + n) (· < wordBound)
    (fun sum n hfits => Nat.lt_of_le_of_lt (Nat.le_add_right sum n) hfits)
    (fun sum n _ => (rfl : inWord .sum (sum + n) = _)) (by decide : 0 < wordBound) numbers
  rw [hsum, Nat.zero_add] at hloop
  exact hloop

namespace Tally

variable {κ : Type} [Ord κ] [Std.TransOrd κ]

def InWords (t : Tally κ) : Prop :=
  ∀ entry ∈ t.entries, entry.2 < wordBound

instance (t : Tally κ) : Decidable t.InWords :=
  inferInstanceAs (Decidable (∀ entry ∈ t.entries, entry.2 < wordBound))

theorem inWords_empty : (∅ : Tally κ).InWords :=
  fun _ hmem => absurd hmem List.not_mem_nil

variable {t : Tally κ}

theorem InWords.of_total (hfits : t.total < wordBound) : t.InWords :=
  fun _ hmem => Nat.lt_of_le_of_lt (le_addUp (List.mem_map_of_mem hmem)) hfits

variable [Std.LawfulEqOrd κ]

theorem inWords_iff : t.InWords ↔ ∀ key, t.count key < wordBound := by
  constructor
  · intro hfits key
    by_cases hzero : t.count key = 0
    · rw [hzero]
      decide
    · exact hfits (key, t.count key) (mem_entries.mpr ⟨rfl, Nat.pos_of_ne_zero hzero⟩)
  · rintro hfits ⟨key, n⟩ hmem
    rw [← (mem_entries.mp hmem).1]
    exact hfits key

theorem InWords.of_le {u : Tally κ} (hfits : u.InWords) (hle : ∀ key, t.count key ≤ u.count key) :
    t.InWords :=
  inWords_iff.mpr fun key => Nat.lt_of_le_of_lt (hle key) (inWords_iff.mp hfits key)

def addInWord (t : Tally κ) (entry : κ × Nat) : Except Overflow (Tally κ) := do
  let _ ← inWord .sum (t.count entry.1 + entry.2)
  return t.add entry.1 entry.2

theorem count_le_add (t : Tally κ) (entry : κ × Nat) (key : κ) :
    t.count key ≤ (t.add entry.1 entry.2).count key := by
  rw [count_add]
  split
  next hsame =>
    rw [Std.LawfulEqCmp.eq_of_compare hsame]
    exact Nat.le_add_right _ _
  next => exact Nat.le_refl _

theorem inWords_add (hfits : t.InWords) (entry : κ × Nat) :
    (t.add entry.1 entry.2).InWords ↔ t.count entry.1 + entry.2 < wordBound := by
  rw [inWords_iff] at hfits ⊢
  simp only [count_add]
  constructor
  · intro hadded
    simpa using hadded entry.1
  · intro hsum key
    split
    next => exact hsum
    next => exact hfits key

theorem addInWord_eq (hfits : t.InWords) (entry : κ × Nat) : t.addInWord entry =
    if (t.add entry.1 entry.2).InWords then .ok (t.add entry.1 entry.2) else .error .sum := by
  simp only [inWords_add hfits, addInWord, inWord]
  split <;> rfl

def ofWords (counts : List (κ × Nat)) : Except Overflow (Tally κ) :=
  counts.foldlM addInWord ∅

theorem ofWords_eq (counts : List (κ × Nat)) : ofWords counts =
    if (ofList counts).InWords then .ok (ofList counts) else .error .sum := by
  apply foldlM_checked _ InWords
  · exact fun t entry hfits => hfits.of_le (t.count_le_add entry)
  · exact fun _ entry hfits => addInWord_eq hfits entry
  · exact inWords_empty

end Tally

end Cohort
