import Cohort.Sum

/-! Lists of steps cut at their marks. Stretch `n` is what lies between the marks number `n` and
`n + 1`; the first mark has number one, and stretch zero lies before it. -/

namespace Cohort

variable {α : Type} {mark : α → Bool}

def stretch (mark : α → Bool) (n : Nat) (steps : List α) : List α :=
  (steps.splitOnP mark)[n]?.getD []

theorem stretch_zero_of_mark {a : α} (h : mark a) (rest : List α) :
    stretch mark 0 (a :: rest) = [] := by
  simp [stretch, List.splitOnP_cons_eq_if_modifyHead, h]

theorem stretch_succ_of_mark {a : α} (h : mark a) (n : Nat) (rest : List α) :
    stretch mark (n + 1) (a :: rest) = stretch mark n rest := by
  simp [stretch, List.splitOnP_cons_eq_if_modifyHead, h]

theorem stretch_zero_of_plain {a : α} (h : mark a = false) (rest : List α) :
    stretch mark 0 (a :: rest) = a :: stretch mark 0 rest := by
  cases hsplit : rest.splitOnP mark with
  | nil => exact absurd hsplit (List.splitOnP_ne_nil mark rest)
  | cons first others => simp [stretch, List.splitOnP_cons_eq_if_modifyHead, h, hsplit]

theorem stretch_succ_of_plain {a : α} (h : mark a = false) (n : Nat) (rest : List α) :
    stretch mark (n + 1) (a :: rest) = stretch mark (n + 1) rest := by
  simp [stretch, List.splitOnP_cons_eq_if_modifyHead, h]

theorem stretch_concat_mark {a : α} (h : mark a) (n : Nat) (steps : List α) :
    stretch mark n (steps ++ [a]) = stretch mark n steps := by
  unfold stretch
  rw [List.splitOnP_append_cons steps [] h, List.splitOnP_nil, List.getElem?_append]
  split
  next => rfl
  next hbeyond =>
    rw [List.getElem?_eq_none (Nat.le_of_not_lt hbeyond)]
    cases (n - (steps.splitOnP mark).length) <;> rfl

theorem stretch_append_mark {a : α} (h : mark a) {n : Nat} {before : List α}
    (hn : n ≤ before.countP mark) (later : List α) :
    stretch mark n (before ++ a :: later) = stretch mark n before := by
  induction before generalizing n with
  | nil =>
    obtain rfl : n = 0 := Nat.le_zero.mp hn
    exact stretch_zero_of_mark h later
  | cons b before ih =>
    rw [List.countP_cons] at hn
    by_cases hmark : mark b
    · cases n with
      | zero => rw [List.cons_append, stretch_zero_of_mark hmark, stretch_zero_of_mark hmark]
      | succ n =>
        rw [if_pos hmark] at hn
        rw [List.cons_append, stretch_succ_of_mark hmark, stretch_succ_of_mark hmark]
        exact ih (Nat.le_of_succ_le_succ hn)
    · have hplain : mark b = false := by simpa using hmark
      rw [if_neg hmark] at hn
      cases n with
      | zero =>
        rw [List.cons_append, stretch_zero_of_plain hplain, stretch_zero_of_plain hplain]
        exact congrArg (b :: ·) (ih (Nat.zero_le _))
      | succ n =>
        rw [List.cons_append, stretch_succ_of_plain hplain, stretch_succ_of_plain hplain]
        exact ih hn

theorem stretch_of_lt {n : Nat} {steps : List α} (h : steps.countP mark < n) :
    stretch mark n steps = [] := by
  induction steps generalizing n with
  | nil =>
    obtain ⟨n, rfl⟩ := Nat.exists_eq_succ_of_ne_zero (Nat.ne_of_gt (Nat.zero_lt_of_lt h))
    rfl
  | cons a rest ih =>
    rw [List.countP_cons] at h
    cases n with
    | zero => exact absurd h (Nat.not_lt_zero _)
    | succ n =>
      by_cases hmark : mark a
      · rw [if_pos hmark] at h
        rw [stretch_succ_of_mark hmark]
        exact ih (by omega)
      · rw [if_neg hmark] at h
        rw [stretch_succ_of_plain (by simpa using hmark)]
        exact ih (by omega)

/-- A step that is no mark counts in its own stretch and in no other. -/
theorem addUp_stretch_insert (amount : α → Nat) {a : α} (h : mark a = false)
    (before later : List α) (n : Nat) :
    addUp ((stretch mark n (before ++ a :: later)).map amount) =
      addUp ((stretch mark n (before ++ later)).map amount) +
        if n = before.countP mark then amount a else 0 := by
  induction before generalizing n with
  | nil =>
    rw [List.nil_append, List.nil_append, List.countP_nil]
    cases n with
    | zero =>
      rw [stretch_zero_of_plain h, List.map_cons, addUp_cons, if_pos rfl]
      exact Nat.add_comm ..
    | succ n => simp [stretch_succ_of_plain h]
  | cons b before ih =>
    rw [List.cons_append, List.cons_append, List.countP_cons]
    by_cases hmark : mark b
    · cases n with
      | zero => simp [stretch_zero_of_mark hmark, hmark]
      | succ n =>
        rw [stretch_succ_of_mark hmark, stretch_succ_of_mark hmark, ih]
        simp [hmark]
    · have hplain : mark b = false := by simpa using hmark
      cases n with
      | zero =>
        rw [stretch_zero_of_plain hplain, stretch_zero_of_plain hplain, List.map_cons,
          List.map_cons, addUp_cons, addUp_cons, ih, Nat.add_assoc]
        simp [hmark]
      | succ n =>
        rw [stretch_succ_of_plain hplain, stretch_succ_of_plain hplain, ih]
        simp [hmark]

end Cohort
