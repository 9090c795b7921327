import Cohort.Random.Draw
import Mathlib.Data.List.Perm.Subperm

/-! Draws with a known outcome: a sample consists of distinct numbers below its bound, whichever
way it is drawn, and what has no chance does not happen. -/

namespace Cohort.Random

structure Selected (bound amount : Nat) (numbers : List Nat) : Prop where
  nodup : numbers.Nodup
  below : ∀ n ∈ numbers, n < bound
  length : numbers.length = amount

namespace Selected

variable {bound amount : Nat} {numbers : List Nat}

theorem nil (bound : Nat) : Selected bound 0 [] :=
  ⟨List.nodup_nil, by simp, rfl⟩

theorem range (bound : Nat) : Selected bound bound (List.range bound) :=
  ⟨List.nodup_range, fun _ => List.mem_range.mp, List.length_range⟩

theorem perm (h : Selected bound amount numbers) {others : List Nat}
    (hperm : others.Perm numbers) : Selected bound amount others where
  nodup := hperm.nodup_iff.mpr h.nodup
  below n hmem := h.below n (hperm.mem_iff.mp hmem)
  length := hperm.length_eq.trans h.length

theorem cons (h : Selected bound amount numbers) {n : Nat} (hn : n < bound) (hnew : n ∉ numbers) :
    Selected bound (amount + 1) (n :: numbers) where
  nodup := List.nodup_cons.mpr ⟨hnew, h.nodup⟩
  below := by simpa [hn] using h.below
  length := by rw [List.length_cons, h.length]

theorem weaken (h : Selected bound amount numbers) {larger : Nat} (hle : bound ≤ larger) :
    Selected larger amount numbers :=
  ⟨h.nodup, fun n hmem => Nat.lt_of_lt_of_le (h.below n hmem) hle, h.length⟩

theorem take (h : Selected bound amount numbers) {fewer : Nat} (hle : fewer ≤ amount) :
    Selected bound fewer (numbers.take fewer) where
  nodup := h.nodup.sublist (List.take_sublist _ _)
  below n hmem := h.below n (List.mem_of_mem_take hmem)
  length := by rw [List.length_take, h.length, Nat.min_eq_left hle]

theorem exists_missing (h : Selected bound amount numbers) (hless : amount < bound) :
    ∃ n < bound, n ∉ numbers := by
  by_contra hall
  simp only [not_exists, not_and, not_not] at hall
  have hsubset : List.range bound ⊆ numbers := fun n hmem => hall n (List.mem_range.mp hmem)
  have hlength := (List.subperm_of_subset List.nodup_range hsubset).length_le
  rw [List.length_range, h.length] at hlength
  omega

theorem mem_iff (h : Selected bound bound numbers) {n : Nat} : n ∈ numbers ↔ n < bound := by
  refine ⟨h.below n, fun hn => ?_⟩
  by_contra hmissing
  have hlonger := h.cons hn hmissing
  have hsubset : n :: numbers ⊆ List.range bound :=
    fun m hmem => List.mem_range.mpr (hlonger.below m hmem)
  have hlength := (List.subperm_of_subset hlonger.nodup hsubset).length_le
  rw [hlonger.length, List.length_range] at hlength
  omega

end Selected

namespace Source

theorem mixFront_perm (count i : Nat) (items : Array Nat) (s : Source) :
    (mixFront count i items s).1.Perm items := by
  induction count generalizing i items s with
  | zero => exact .refl _
  | succ count ih => exact (ih _ _ _).trans (swapIfInBounds_perm ..)

theorem selected_sampleByMixing (s : Source) {length amount : Nat} (h : amount ≤ length) :
    Selected length amount (s.sampleByMixing length amount).1 := by
  have hperm : (mixFront amount 0 (Array.range length) s).1.toList.Perm (List.range length) := by
    rw [← Array.toList_range]
    exact Array.perm_iff_toList_perm.mp (mixFront_perm amount 0 (Array.range length) s)
  exact ((Selected.range length).perm hperm).take h

theorem insertBefore_perm (old j : Nat) (numbers : List Nat) :
    (insertBefore old j numbers).Perm (j :: numbers) := by
  induction numbers with
  | nil => exact .refl _
  | cons i rest ih =>
    unfold insertBefore
    split
    next => exact .refl _
    next => exact (ih.cons i).trans (.swap ..)

theorem selected_extend (ordered : Bool) {selected : List Nat} {j count : Nat} (s : Source)
    (h : Selected j count selected) :
    Selected (j + 1) (count + 1) (extend ordered selected j s).1 := by
  have hdrawn := s.below32_lt (Nat.succ_pos j)
  have hnew : j ∉ selected := fun hmem => Nat.lt_irrefl j (h.below j hmem)
  have hwider := h.weaken (Nat.le_succ j)
  have hwith := hwider.cons (Nat.lt_succ_self j) hnew
  unfold extend
  dsimp only
  split
  next =>
    cases ordered with
    | true => exact hwith.perm (insertBefore_perm ..)
    | false => exact hwith.perm (List.perm_append_singleton ..)
  next hfree => exact (hwider.cons hdrawn hfree).perm (List.perm_append_singleton ..)

theorem selected_extendFrom (ordered : Bool) (count : Nat) {j amount : Nat}
    {selected : List Nat} (s : Source) (h : Selected j amount selected) :
    Selected (j + count) (amount + count) (extendFrom ordered count j selected s).1 := by
  induction count generalizing j amount selected s with
  | zero => exact h
  | succ count ih =>
    have hnext := ih (extend ordered selected j s).2 (selected_extend ordered s h)
    rwa [Nat.add_right_comm, Nat.add_right_comm amount] at hnext

theorem selected_sampleByExtension (s : Source) {length amount : Nat} (h : amount ≤ length) :
    Selected length amount (s.sampleByExtension length amount).1 := by
  have hextended (ordered : Bool) :
      Selected length amount (extendFrom ordered amount (length - amount) [] s).1 := by
    have hfrom := selected_extendFrom ordered amount s (Selected.nil (length - amount))
    rwa [Nat.sub_add_cancel h, Nat.zero_add] at hfrom
  unfold sampleByExtension
  split
  next => exact hextended true
  next =>
    have hshuffled := Array.perm_iff_toList_perm.mp (shuffle_perm
      (extendFrom false amount (length - amount) [] s).2
      (extendFrom false amount (length - amount) [] s).1.toArray)
    exact (hextended false).perm hshuffled

theorem firstUnseen_spec {length n : Nat} {seen : Std.ExtTreeSet Nat} (hn : n < length)
    (hnew : n ∉ seen) : firstUnseen length seen < length ∧ firstUnseen length seen ∉ seen := by
  unfold firstUnseen
  cases hfind : (List.range length).find? fun i => !seen.contains i with
  | none =>
    have hseen := List.find?_eq_none.mp hfind n (List.mem_range.mpr hn)
    simp [hnew] at hseen
  | some i =>
    have hunseen := List.find?_some hfind
    have hmem := List.mem_of_find?_eq_some hfind
    refine ⟨List.mem_range.mp hmem, fun hseen => ?_⟩
    rw [Std.ExtTreeSet.mem_iff_contains, Option.getD_some] at hseen
    simp [hseen] at hunseen

theorem unseen_spec {length n : Nat} {seen : Std.ExtTreeSet Nat} (hn : n < length)
    (hnew : n ∉ seen) (tries : Nat) (s : Source) :
    (unseen length seen tries s).1 < length ∧ (unseen length seen tries s).1 ∉ seen := by
  induction tries generalizing s with
  | zero => exact firstUnseen_spec hn hnew
  | succ tries ih =>
    unfold unseen
    dsimp only
    split
    next => exact ih _
    next hfree =>
      exact ⟨s.scale32_lt _ (Nat.zero_lt_of_lt hn), by simpa using hfree⟩

theorem selected_addUnseen {length : Nat} (count : Nat) {seen : Std.ExtTreeSet Nat}
    {drawn : Array Nat} (s : Source) (hseen : ∀ n, n ∈ seen ↔ n ∈ drawn.toList)
    (h : Selected length drawn.size drawn.toList) (hroom : drawn.size + count ≤ length) :
    Selected length (drawn.size + count) (addUnseen length count seen drawn s).1.toList := by
  induction count generalizing seen drawn s with
  | zero => exact h
  | succ count ih =>
    obtain ⟨m, hm, hmissing⟩ := h.exists_missing (by omega)
    obtain ⟨hbelow, hfree⟩ :=
      unseen_spec hm (fun hmem => hmissing ((hseen m).mp hmem)) patience s
    have hpushed := (h.cons hbelow fun hmem => hfree ((hseen _).mpr hmem)).perm
      (List.perm_append_singleton ..)
    rw [← Array.toList_push, ← Array.size_push] at hpushed
    have hinserted : ∀ n, n ∈ seen.insert (unseen length seen patience s).1 ↔
        n ∈ (drawn.push (unseen length seen patience s).1).toList := by
      intro n
      rw [Std.ExtTreeSet.mem_insert, Std.compare_eq_iff_eq, hseen, Array.toList_push,
        List.mem_append, List.mem_singleton, eq_comm, or_comm]
    have hnext := ih (unseen length seen patience s).2 hinserted hpushed
      (by rw [Array.size_push]; omega)
    rw [Array.size_push, Nat.add_right_comm] at hnext
    exact hnext

theorem selected_sampleByRejection (s : Source) {length amount : Nat} (h : amount ≤ length) :
    Selected length amount (s.sampleByRejection length amount).1 := by
  have hseen : ∀ n, n ∈ (∅ : Std.ExtTreeSet Nat) ↔ n ∈ (#[] : Array Nat).toList := by simp
  have hadded := selected_addUnseen amount s hseen (Selected.nil length) (by simpa using h)
  rwa [Array.size_empty, Nat.zero_add] at hadded

theorem selected_sample (s : Source) (length amount : Nat) :
    Selected length (min amount length) (s.sample length amount).1 := by
  have hle : min amount length ≤ length := Nat.min_le_right ..
  unfold sample
  dsimp only
  split
  next =>
    split
    next => exact selected_sampleByMixing s hle
    next => exact selected_sampleByExtension s hle
  next =>
    split
    next => exact selected_sampleByMixing s hle
    next => exact selected_sampleByRejection s hle

section Chance

open Float.Model

theorem unpack_one : (1.0 : Float).toModel.unpack =
    .finite .positive 4503599627370496 (-52) (by decide) :=
  rfl

theorem unpack_wordBound : (18446744073709551616.0 : Float).toModel.unpack =
    .finite .positive 4503599627370496 12 (by decide) :=
  rfl

theorem unpack_of_beq_zero {x : Float} (h : (x == 0.0) = true) :
    ∃ sign, x.toModel.unpack = .zero sign := by
  have hcompare : x.toModel.unpack.compare (.zero .positive) = some .eq := beq_iff_eq.mp h
  cases hunpack : x.toModel.unpack with
  | zero sign => exact ⟨sign, rfl⟩
  | notANumber =>
    rw [hunpack] at hcompare
    cases hcompare
  | infinity sign =>
    rw [hunpack] at hcompare
    cases sign <;> cases hcompare
  | finite sign m e hm =>
    rw [hunpack] at hcompare
    cases sign <;> cases hcompare

theorem beq_one_of_zero {x : Float} {sign : UnpackedFloat.Sign}
    (h : x.toModel.unpack = .zero sign) : (x == 1.0) = false := by
  change (x.toModel.unpack.compare (1.0 : Float).toModel.unpack == some .eq) = false
  rw [h, unpack_one]
  rfl

theorem scaled_of_zero {x : Float} {sign : UnpackedFloat.Sign}
    (h : x.toModel.unpack = .zero sign) : (x * 18446744073709551616.0).toUInt64 = 0 := by
  change (Float.Model.pack (UnpackedFloat.mul .binary64 x.toModel.unpack
    (18446744073709551616.0 : Float).toModel.unpack)).unpack.toUInt64 = 0
  rw [h, unpack_wordBound]
  cases sign <;> rfl

theorem chance_of_zero {probability : Float} (h : (probability == 0.0) = true) (s : Source) :
    (s.chance probability).1 = false := by
  obtain ⟨sign, hunpack⟩ := unpack_of_beq_zero h
  unfold chance
  rw [beq_one_of_zero hunpack, scaled_of_zero hunpack]
  simp

theorem chance_of_one {probability : Float} (h : (probability == 1.0) = true) (s : Source) :
    (s.chance probability).1 = true := by
  rw [chance, if_pos h]

theorem isLE_of_ne_lt {e e' : Int} {m m' : Nat}
    (h : (compare e' e).then (compare m' m) ≠ .lt) :
    ((compare e e').then (compare m m')).isLE := by
  have hexponent : compare e e' = (compare e' e).swap := Std.OrientedCmp.eq_swap
  have hmantissa : compare m m' = (compare m' m).swap := Std.OrientedCmp.eq_swap
  rw [hexponent, hmantissa, ← Ordering.swap_then]
  cases horder : (compare e' e).then (compare m' m) with
  | lt => exact absurd horder h
  | eq => rfl
  | gt => rfl

theorem le_of_not_lt {x : Float} (hnan : x.isNaN = false) (hlow : ¬ x < 0.0)
    (hhigh : ¬ 1.0 < x) : 0.0 ≤ x ∧ x ≤ 1.0 := by
  have hlt (x y : Float) : x < y ↔ x.toModel.unpack.lt y.toModel.unpack = true :=
    decide_eq_true_iff
  have hle (x y : Float) : x ≤ y ↔ x.toModel.unpack.le y.toModel.unpack = true :=
    decide_eq_true_iff
  have hzero : (0.0 : Float).toModel.unpack = .zero .positive := rfl
  rw [hlt, hzero] at hlow
  rw [hlt, unpack_one] at hhigh
  rw [hle, hle, hzero, unpack_one]
  change x.toModel.unpack.isNaN = false at hnan
  generalize x.toModel.unpack = unpacked at *
  cases unpacked with
  | notANumber => cases hnan
  | infinity sign =>
    cases sign with
    | negative => exact absurd rfl hlow
    | positive => exact absurd rfl hhigh
  | zero sign => exact ⟨rfl, rfl⟩
  | finite sign m e hm =>
    cases sign with
    | negative => exact absurd rfl hlow
    | positive =>
      refine ⟨rfl, isLE_of_ne_lt fun horder => hhigh ?_⟩
      exact beq_iff_eq.mpr (congrArg some horder)

end Chance

end Source

end Cohort.Random
