import Cohort.Proofs.AccessGraph.Alike

/-! The projection in words. A pair has in common at most half of what the two use together, and
each identity is in one pair with every other, so all that is used in common is bounded by the use
of the whole graph. Below that bound no sum on the way to the projection leaves a word. -/

namespace Cohort

theorem addUp_map_pairs {names : List Identity} (hnodup : names.Nodup) (f : Identity → Nat) :
    addUp ((names ×ˢ names).map fun (first, second) =>
      if first < second then f first + f second else 0) =
        (names.length - 1) * addUp (names.map f) := by
  have hends : ∀ first second : Identity, (if first < second then f first + f second else 0) =
      (if first < second then f first else 0) + if first < second then f second else 0 := by
    intro first second
    split <;> rfl
  have hsides : ∀ first second : Identity, (if first < second then f first else 0) +
      (if second < first then f first else 0) = if second = first then 0 else f first := by
    intro first second
    by_cases hsame : second = first
    · simp [hsame]
    · rcases Std.lt_trichotomy first second with hlt | heq | hlt
      · simp [hsame, hlt, String.lt_asymm hlt]
      · exact absurd heq.symm hsame
      · simp [hsame, hlt, String.lt_asymm hlt]
  rw [addUp_map_product]
  simp only [hends, addUp_map_add]
  -- The second ends of all pairs are counted from the other side.
  rw [addUp_comm names names fun first second => if first < second then f second else 0,
    ← addUp_map_add]
  simp only [← addUp_map_add, hsides]
  rw [← addUp_map_mul]
  congr 1
  exact List.map_congr_left fun first hmem => addUp_map_others hnodup hmem (f first)

namespace AccessGraph

open SharingGraph (Draft)

section Bound

variable {g : AccessGraph}

def totalUse (g : AccessGraph) : Nat :=
  addUp (g.edgeList.map (·.2.2))

def usedBy (g : AccessGraph) (name : Identity) : Nat :=
  addUp (g.objects.map (g.use name))

theorem Sound.addUp_usedBy (sound : g.Sound) :
    addUp (g.identities.map g.usedBy) = g.totalUse := by
  have hlist : g.edgeList.map (·.2.2) = g.pairs.map fun pair => g.use pair.1 pair.2 := by
    rw [sound.edgeList_eq, List.map_map]
    rfl
  rw [totalUse, hlist, addUp_map_eq_of_subset sound.nodup_pairs
    (g.nodup_identities.product g.nodup_objects)]
  · exact (addUp_map_product g.identities g.objects fun pair => g.use pair.1 pair.2).symm
  · rintro ⟨name, object⟩ hmem
    obtain ⟨weight, hweight⟩ := Option.ne_none_iff_exists'.mp (sound.mem_pairs_iff.mp hmem)
    obtain ⟨hname, hobject⟩ := sound.contains_of_use (sound.use_pos.mpr ⟨weight, hweight⟩)
    exact List.pair_mem_product.mpr ⟨mem_identities.mpr hname, mem_objects.mpr hobject⟩
  · rintro ⟨name, object⟩ - habsent
    have hnone := not_ne_iff.mp (mt sound.mem_pairs_iff.mpr habsent)
    rw [use, hnone, Option.getD_none]

theorem two_common_le (g : AccessGraph) (first second : Identity) :
    2 * g.common first second ≤ g.usedBy first + g.usedBy second := by
  rw [common, ← addUp_map_mul, usedBy, usedBy, ← addUp_map_add]
  exact addUp_map_le fun object _ => by omega

theorem Sound.two_totalCommon_le (sound : g.Sound) :
    2 * g.totalCommon ≤ (g.identityCount - 1) * g.totalUse := by
  rw [totalCommon, ← addUp_map_mul, identityCount, ← sound.addUp_usedBy,
    ← addUp_map_pairs g.nodup_identities]
  refine addUp_map_le fun pair _ => ?_
  dsimp only
  split
  next => exact g.two_common_le pair.1 pair.2
  next => exact Nat.le_refl 0

end Bound

section Checked

namespace Walk

theorem meet_cases (walk : Walk) (m : Meeting) :
    (walk.meet m = walk ∧ walk.meetInWord m = .ok walk) ∨
      (walk.meet m = walk.take m ∧ walk.meetInWord m = walk.takeInWord m) := by
  unfold meet meetInWord
  by_cases hself : m.other = m.own
  · exact .inl ⟨if_pos hself, if_pos hself⟩
  · rw [if_neg hself, if_neg hself]
    by_cases hseen : m.path ∈ walk.seen
    · exact .inl ⟨if_pos hseen, if_pos hseen⟩
    · exact .inr ⟨if_neg hseen, if_neg hseen⟩

theorem count_le_meet (walk : Walk) (m : Meeting) (pair : Identity × Identity) :
    walk.weights.count pair ≤ (walk.meet m).weights.count pair := by
  rcases walk.meet_cases m with ⟨hmeet, -⟩ | ⟨hmeet, -⟩ <;> rw [hmeet]
  exact walk.weights.count_le_add (m.path.1, m.least) pair

theorem meetInWord_eq {walk : Walk} (hfits : walk.weights.InWords) (m : Meeting) :
    walk.meetInWord m =
      if (walk.meet m).weights.InWords then .ok (walk.meet m) else .error .sum := by
  rcases walk.meet_cases m with ⟨hmeet, hchecked⟩ | ⟨hmeet, hchecked⟩
  · rw [hmeet, hchecked, if_pos hfits]
  · rw [hmeet, hchecked, takeInWord, Tally.addInWord_eq hfits]
    change _ = if (walk.weights.add m.path.1 m.least).InWords then _ else _
    split <;> rfl

end Walk

theorem walkInWords_eq (g : AccessGraph) (names : List Identity) : g.walkInWords names =
    if (g.walk names).weights.InWords then .ok (g.walk names) else .error .sum := by
  apply foldlM_checked Walk.meet fun walk => walk.weights.InWords
  · exact fun walk m hfits => hfits.of_le (walk.count_le_meet m)
  · exact fun _ m hfits => Walk.meetInWord_eq hfits m
  · exact Tally.inWords_empty

def addLinkInWord (d : Draft) (entry : (Identity × Identity) × Weight) : Except Overflow Draft :=
  if entry.1.1 = entry.1.2 ∨ entry.2 = 0 then .ok d
  else do
    let _ ← inWord .sum (d.weights.count (Draft.pairOf entry.1.1 entry.1.2) + entry.2)
    return d.addLink entry.1.1 entry.1.2 entry.2

theorem addLinkInWord_eq {d : Draft} (hfits : d.weights.InWords)
    (entry : (Identity × Identity) × Weight) : addLinkInWord d entry =
      if (d.addLink entry.1.1 entry.1.2 entry.2).weights.InWords
        then .ok (d.addLink entry.1.1 entry.1.2 entry.2) else .error .sum := by
  unfold addLinkInWord
  split
  next hidle =>
    have hsame : d.addLink entry.1.1 entry.1.2 entry.2 = d := if_pos hidle
    rw [hsame, if_pos hfits]
  next hlinked =>
    have hweights : (d.addLink entry.1.1 entry.1.2 entry.2).weights =
        d.weights.add (Draft.pairOf entry.1.1 entry.1.2) entry.2 := by
      ext pair
      rw [Draft.count_addLink, Tally.count_add]
      simp only [(not_or.mp hlinked).1, ne_eq, not_false_eq_true, true_and, Std.compare_eq_iff_eq]
      split
      next hpair => rw [hpair]
      next => exact Nat.add_zero _
    rw [hweights]
    simp only [Tally.inWords_add hfits (Draft.pairOf entry.1.1 entry.1.2, entry.2), inWord]
    split <;> rfl

def addPairsInWords (d : Draft) (pairs : List ((Identity × Identity) × Weight)) :
    Except Overflow Draft :=
  pairs.foldlM addLinkInWord d

theorem addPairsInWords_eq {d : Draft} (hfits : d.weights.InWords)
    (pairs : List ((Identity × Identity) × Weight)) : addPairsInWords d pairs =
      if (addPairs d pairs).weights.InWords then .ok (addPairs d pairs) else .error .sum := by
  refine foldlM_checked _ (fun d : Draft => d.weights.InWords) (fun d entry hnext => ?_)
    (fun _ entry hfits => addLinkInWord_eq hfits entry) hfits pairs
  refine hnext.of_le fun pair => ?_
  rw [Draft.count_addLink]
  exact Nat.le_add_right _ _

def buildInWords (d : Draft) : Except Overflow SharingGraph := do
  let _ ← addWords (d.weights.entries.map (·.2))
  return d.graph

theorem buildInWords_eq (d : Draft) : buildInWords d = d.build := by
  rw [buildInWords, addWords_eq, Draft.build_eq, Tally.total, inWord]
  split <;> rfl

/-- All of the projection, with every sum checked when it is made. -/
def foldInWords (g : AccessGraph) (orders : Orders g) : Except Overflow SharingGraph := do
  let _ ← g.walkInWords orders.names
  let draft ← addPairsInWords (orders.vertices.foldl Draft.addVertex ∅) orders.pairs
  buildInWords draft

variable {g : AccessGraph}

theorem Sound.weights_walk (sound : g.Sound) (orders : Orders g) :
    (g.walk orders.names).weights = (draftOf orders.vertices orders.pairs).weights := by
  ext ⟨first, second⟩
  rw [sound.count_walk orders.names_perm, sound.count_draftOf]

/-- Checks on the way change nothing: the total is the largest of all sums. -/
theorem Sound.foldInWords_eq (sound : g.Sound) (orders : Orders g) :
    g.foldInWords orders = g.fold orders := by
  have hvertices : (orders.vertices.foldl Draft.addVertex ∅).weights.InWords := by
    rw [Draft.weights, pairs_addVertices]
    exact Tally.inWords_empty
  rw [foldInWords, walkInWords_eq, addPairsInWords_eq hvertices, sound.weights_walk orders, fold,
    ← draftOf]
  by_cases hfits : (draftOf orders.vertices orders.pairs).weights.InWords
  · rw [if_pos hfits, if_pos hfits]
    exact buildInWords_eq _
  · rw [if_neg hfits, Draft.build_eq, if_neg (mt Tally.InWords.of_total hfits)]
    rfl

theorem Sound.walkInWords_eq_ok (sound : g.Sound) (orders : Orders g)
    (hfits : g.totalCommon < wordBound) :
    g.walkInWords orders.names = .ok (g.walk orders.names) := by
  rw [walkInWords_eq, if_pos]
  rw [sound.weights_walk orders]
  apply Tally.InWords.of_total
  rwa [sound.total_draftOf]

end Checked

/-- Twice the weight of the projection is at most the weight of all edges, taken once for each
identity but one, and below twice what a word holds no sum overflows. -/
theorem projection_headroom (history : List Change) :
    2 * (after history).totalCommon ≤
      ((after history).identityCount - 1) * (after history).totalUse ∧
    (∀ orders : Orders (after history),
      (after history).foldInWords orders = (after history).fold orders) ∧
    (((after history).identityCount - 1) * (after history).totalUse < 2 ^ 65 →
      ∀ orders : Orders (after history),
        (after history).walkInWords orders.names = .ok ((after history).walk orders.names) ∧
        ∃ shared, (after history).foldInWords orders = .ok shared ∧
          (after history).Projects shared ∧
            shared.totalWeight = (after history).totalCommon) := by
  have sound := sound_after history
  have hbound := sound.two_totalCommon_le
  refine ⟨hbound, sound.foldInWords_eq, fun hsmall orders => ?_⟩
  have hfits : (after history).totalCommon < wordBound := by
    unfold wordBound
    omega
  have hfold := (sound.fold_eq orders).trans (if_pos hfits)
  exact ⟨sound.walkInWords_eq_ok orders hfits, _, (sound.foldInWords_eq orders).trans hfold,
    ((sound.fold_eq_ok orders).mp hfold).2, sound.totalWeight_of_fold orders hfold⟩

theorem projection_headroom_attained :
    let g := after [.increment "a" 7, .increment "b" 7, .increment "c" 7]
    2 * g.totalCommon = (g.identityCount - 1) * g.totalUse ∧
      ∃ shared, g.foldInWords default = .ok shared ∧ shared.totalWeight = 3 := by
  intro g
  obtain ⟨-, -, hfits⟩ := projection_headroom
    [.increment "a" 7, .increment "b" 7, .increment "c" 7]
  have htotal : g.totalCommon = 3 := by decide +kernel
  have huse : (g.identityCount - 1) * g.totalUse = 6 := by decide +kernel
  have hsmall : (g.identityCount - 1) * g.totalUse < 2 ^ 65 := by
    rw [huse]
    decide
  obtain ⟨-, shared, hfold, -, hweight⟩ := hfits hsmall default
  exact ⟨by rw [htotal, huse], shared, hfold, hweight.trans htotal⟩

end AccessGraph

end Cohort
