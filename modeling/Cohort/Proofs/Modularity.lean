import Cohort.Modularity
import Cohort.Proofs.Cliques
import Mathlib.Data.List.Induction

/-! The two sums that modularity is made of. A vertex counts for the last group that contains it;
an edge is inside a group when both of its ends count for it, and around a group with each end that
does. Seen from the edges, a group has no more weight inside than around it, and all groups together
have at most the weight of all edges, taken from both ends. -/

namespace Cohort

namespace SharingGraph

section Assignment

def LastIn (groups : List Group) (name : Identity) (group : Nat) : Prop :=
  (∃ last, groups[group]? = some last ∧ last.contains name = true) ∧
    ∀ later other, group < later → groups[later]? = some other → other.contains name = false

variable {groups : List Group} {name : Identity}

theorem lastGroup_concat (groups : List Group) (group : Group) (name : Identity) :
    lastGroup (groups ++ [group]) name =
      if group.contains name then some groups.length else lastGroup groups name := by
  unfold lastGroup
  rw [List.zipIdx_append, List.filter_append]
  by_cases hcontains : group.contains name <;> simp [hcontains]

theorem lastIn_concat {last : Group} {group : Nat} : LastIn (groups ++ [last]) name group ↔
    if last.contains name then groups.length = group else LastIn groups name group := by
  have hget (position : Nat) (other : Group) : (groups ++ [last])[position]? = some other ↔
      groups[position]? = some other ∨ position = groups.length ∧ last = other := by grind
  simp only [LastIn, hget]
  split
  next hcontains =>
    constructor
    · rintro ⟨⟨other, hother, -⟩, hlast⟩
      rcases hother with hbefore | ⟨rfl, -⟩
      · have hlt := (List.getElem?_eq_some_iff.mp hbefore).1
        cases hcontains.symm.trans (hlast groups.length last hlt (.inr ⟨rfl, rfl⟩))
      · rfl
    · rintro rfl
      refine ⟨⟨last, .inr ⟨rfl, rfl⟩, hcontains⟩, fun later other hlater hother => ?_⟩
      rcases hother with hbefore | ⟨rfl, -⟩
      · exact absurd (List.getElem?_eq_some_iff.mp hbefore).1 (Nat.lt_asymm hlater)
      · exact absurd hlater (Nat.lt_irrefl _)
  next habsent => grind

theorem lastGroup_eq_some {group : Nat} :
    lastGroup groups name = some group ↔ LastIn groups name group := by
  induction groups using List.reverseRecOn with
  | nil => simp [lastGroup, LastIn]
  | append_singleton groups last ih =>
    rw [lastGroup_concat, lastIn_concat, ← ih]
    split
    next => exact Option.some_inj
    next => rfl

theorem lastGroup_ne_none :
    lastGroup groups name ≠ none ↔ ∃ group ∈ groups, group.contains name = true := by
  induction groups using List.reverseRecOn with
  | nil => simp [lastGroup]
  | append_singleton groups last ih =>
    rw [lastGroup_concat]
    by_cases hcontains : last.contains name <;> simp [hcontains, ih, or_and_right, exists_or]

end Assignment

variable {g : SharingGraph} {groups : List Group}

/-- The group that a vertex counts for. -/
def groupAt (g : SharingGraph) (groups : List Group) (position : Nat) : Option Nat :=
  g.vertices[position]?.bind (lastGroup groups)

def linksInside (g : SharingGraph) (groups : List Group) (group : Nat) : List Link :=
  g.links.filter fun link =>
    g.groupAt groups link.left = some group ∧ g.groupAt groups link.right = some group

def positionsIn (g : SharingGraph) (groups : List Group) (group : Nat) : List Nat :=
  (List.range g.vertexCount).filter fun position => g.groupAt groups position = some group

/-- Twice the weight of the edges inside a group. -/
def inside (g : SharingGraph) (groups : List Group) (group : Nat) : Weight :=
  2 * addUp ((g.linksInside groups group).map (·.weight))

def around (g : SharingGraph) (groups : List Group) (group : Nat) : Weight :=
  addUp ((g.positionsIn groups group).map g.weightedDegree)

theorem groupAt_eq_some {position group : Nat} : g.groupAt groups position = some group ↔
    ∃ name, g.vertices[position]? = some name ∧ LastIn groups name group := by
  rw [groupAt, Option.bind_eq_some_iff]
  simp only [lastGroup_eq_some]

theorem lt_of_groupAt {position group : Nat} (h : g.groupAt groups position = some group) :
    group < groups.length := by
  obtain ⟨name, -, ⟨last, hlast, -⟩, -⟩ := groupAt_eq_some.mp h
  exact (List.getElem?_eq_some_iff.mp hlast).1

theorem inside_eq (g : SharingGraph) (groups : List Group) (group : Nat) :
    g.inside groups group = addUp (g.links.map fun link =>
      if g.groupAt groups link.left = some group ∧ g.groupAt groups link.right = some group
        then 2 * link.weight else 0) := by
  rw [inside, linksInside, addUp_filter, Nat.two_mul, ← addUp_map_add]
  congr 1
  refine List.map_congr_left fun link _ => ?_
  simp only [decide_eq_true_eq]
  split
  next => exact (Nat.two_mul _).symm
  next => rfl

theorem around_eq (simple : g.Simple) (groups : List Group) (group : Nat) :
    g.around groups group = addUp (g.links.map fun link =>
      (if g.groupAt groups link.left = some group then link.weight else 0) +
        if g.groupAt groups link.right = some group then link.weight else 0) := by
  rw [← addUp_ends simple fun position weight =>
    if g.groupAt groups position = some group then weight else 0, around, positionsIn, addUp_filter]
  congr 1
  apply List.map_congr_left
  intro position _
  by_cases hgroup : g.groupAt groups position = some group
  · simp [hgroup, weightedDegree]
  · simp only [hgroup, decide_false, if_false, Bool.false_eq_true]
    exact (addUp_eq_zero (by simp)).symm

theorem inside_le_around (simple : g.Simple) (groups : List Group) (group : Nat) :
    g.inside groups group ≤ g.around groups group := by
  rw [inside_eq, around_eq simple]
  refine addUp_map_le fun link _ => ?_
  split
  next hboth => simp only [hboth, if_true, Nat.two_mul, Nat.le_refl]
  next => exact Nat.zero_le _

/-- A group with more than half of the weight around it has the excess inside. -/
theorem two_around_le (simple : g.Simple) (groups : List Group) (group : Nat) :
    2 * g.around groups group ≤ g.inside groups group + 2 * g.totalWeight := by
  have hweight : 2 * g.totalWeight = addUp (g.links.map fun link => link.weight + link.weight) := by
    rw [addUp_map_add, totalWeight, Nat.two_mul]
  rw [inside_eq, around_eq simple, hweight, ← addUp_map_add, Nat.two_mul, ← addUp_map_add]
  refine addUp_map_le fun link _ => ?_
  by_cases hleft : g.groupAt groups link.left = some group <;>
    by_cases hright : g.groupAt groups link.right = some group <;>
      simp only [hleft, hright, if_true, if_false, and_self, and_true, true_and] <;> omega

section Totals

def Covered (g : SharingGraph) (groups : List Group) : Prop :=
  ∀ position name, g.vertices[position]? = some name → g.neighbours position ≠ [] →
    ∃ group ∈ groups, group.contains name = true

theorem addUp_around (g : SharingGraph) (groups : List Group) :
    addUp ((List.range groups.length).map (g.around groups)) =
      addUp ((List.range g.vertexCount).map fun position =>
        if (g.groupAt groups position).isSome then g.weightedDegree position else 0) := by
  change addUp ((List.range groups.length).map fun group => g.around groups group) = _
  simp only [around, positionsIn, addUp_filter]
  rw [addUp_comm]
  congr 1
  apply List.map_congr_left
  intro position _
  cases hgroup : g.groupAt groups position with
  | none => exact addUp_eq_zero (by simp)
  | some group =>
    have hmem : group ∈ List.range groups.length := List.mem_range.mpr (lt_of_groupAt hgroup)
    simp only [Option.some_inj, decide_eq_true_eq, @eq_comm _ group, addUp_map_ite_eq,
      List.nodup_range.count, hmem, if_true, Nat.one_mul, Option.isSome_some]

theorem addUp_weightedDegree (simple : g.Simple) :
    addUp ((List.range g.vertexCount).map g.weightedDegree) = 2 * g.totalWeight :=
  addUp_neighbours simple id

def outside (g : SharingGraph) (groups : List Group) : Weight :=
  addUp ((List.range g.vertexCount).map fun position =>
    if (g.groupAt groups position).isSome then 0 else g.weightedDegree position)

theorem addUp_around_add (simple : g.Simple) (groups : List Group) :
    addUp ((List.range groups.length).map (g.around groups)) + g.outside groups =
      2 * g.totalWeight := by
  rw [addUp_around, outside, ← addUp_map_add, ← addUp_weightedDegree simple]
  congr 1
  apply List.map_congr_left
  intro position _
  split
  next => exact Nat.add_zero _
  next => exact Nat.zero_add _

theorem addUp_around_le (simple : g.Simple) (groups : List Group) :
    addUp ((List.range groups.length).map (g.around groups)) ≤ 2 * g.totalWeight := by
  rw [← addUp_around_add simple groups]
  exact Nat.le_add_right _ _

theorem groupAt_isSome {position : Nat} {name : Identity}
    (hname : g.vertices[position]? = some name) :
    (g.groupAt groups position).isSome ↔ ∃ group ∈ groups, group.contains name = true := by
  rw [← lastGroup_ne_none, groupAt, hname, Option.bind_some, Option.isSome_iff_ne_none]

theorem Built.weightedDegree_eq_zero (built : g.Built) {position : Nat} :
    g.weightedDegree position = 0 ↔ g.neighbours position = [] := by
  rw [weightedDegree, addUp_map_eq_zero]
  constructor
  · intro hzero
    by_contra hne
    obtain ⟨seen, hmem⟩ := List.exists_mem_of_ne_nil _ hne
    exact Nat.ne_of_gt (built.neighbour hmem).2 (hzero seen hmem)
  · intro hnone seen hmem
    rw [hnone] at hmem
    cases hmem

theorem Built.outside_eq_zero (built : g.Built) : g.outside groups = 0 ↔ g.Covered groups := by
  rw [outside, addUp_map_eq_zero]
  constructor
  · intro hzero position name hname hneighbours
    rw [← groupAt_isSome hname]
    by_contra hnone
    have hinside : position < g.vertexCount := (Array.getElem?_eq_some_iff.mp hname).1
    have hdegree := hzero position (List.mem_range.mpr hinside)
    rw [if_neg hnone, built.weightedDegree_eq_zero] at hdegree
    exact hneighbours hdegree
  · intro hcovered position hposition
    have hname := Array.getElem?_eq_getElem (List.mem_range.mp hposition)
    split
    next => rfl
    next hnone =>
      rw [groupAt_isSome hname] at hnone
      rw [built.weightedDegree_eq_zero]
      by_contra hneighbours
      exact hnone (hcovered position _ hname hneighbours)

end Totals

def bump (sums : Array Weight) (entry : Nat × Weight) : Except Overflow (Array Weight) := do
  let sum ← inWord .sum (sums.getD entry.1 0 + entry.2)
  return sums.setIfInBounds entry.1 sum

theorem bump_eq {count : Nat} {sums : Nat → Weight} {entry : Nat × Weight}
    (hinside : entry.1 < count) (hfits : sums entry.1 + entry.2 < wordBound) :
    bump ((Array.range count).map sums) entry = .ok ((Array.range count).map fun place =>
      sums place + if compare entry.1 place = .eq then entry.2 else 0) := by
  have hold : ((Array.range count).map sums).getD entry.1 0 = sums entry.1 := by
    simp [Array.getD_eq_getD_getElem?, hinside]
  rw [bump, hold, inWord, if_pos hfits]
  refine congrArg Except.ok (Array.ext (by simp) fun place hplace _ => ?_)
  rw [Array.size_setIfInBounds] at hplace
  rw [Array.getElem_setIfInBounds hplace]
  by_cases hsame : entry.1 = place
  · simp [hsame]
  · simp [hsame]

/-- As long as no sum outgrows a word, each place gets what the entries hold for it. -/
theorem foldlM_bump {count : Nat} {entries : List (Nat × Weight)}
    (hinside : ∀ entry ∈ entries, entry.1 < count)
    (hfits : ∀ place < count, Tally.share place entries < wordBound) :
    entries.foldlM bump (Array.replicate count 0) =
      .ok ((Array.range count).map (Tally.share · entries)) := by
  induction entries using List.reverseRecOn with
  | nil => exact congrArg Except.ok (Array.ext (by simp) (by simp))
  | append_singleton entries entry ih =>
    have hbefore := ih (fun other hmem => hinside other (List.mem_append_left _ hmem))
      fun place hplace => Nat.lt_of_le_of_lt (by simp) (hfits place hplace)
    have hentry : entry.1 < count := hinside entry (by simp)
    have hsum : Tally.share entry.1 entries + entry.2 < wordBound := by
      simpa using hfits entry.1 hentry
    rw [List.foldlM_append, hbefore]
    change bump _ entry >>= pure = _
    rw [bind_pure, bump_eq hentry hsum]
    simp

def memberships (g : SharingGraph) (groups : List Group) : List (Nat × Nat) :=
  (List.range g.vertexCount).filterMap fun position =>
    (g.groupAt groups position).map (position, ·)

def incidentAlong (g : SharingGraph) (count : Nat) (walk : List (Nat × Nat)) :
    Except Overflow (Array Weight) :=
  walk.foldlM (fun sums (position, group) => bump sums (group, g.weightedDegree position))
    (Array.replicate count 0)

theorem mem_memberships {position group : Nat} :
    (position, group) ∈ g.memberships groups ↔ g.groupAt groups position = some group := by
  simp only [memberships, List.mem_filterMap, List.mem_range, Option.map_eq_some_iff,
    Prod.mk.injEq]
  constructor
  · rintro ⟨_, -, _, hgroup, rfl, rfl⟩
    exact hgroup
  · intro hgroup
    obtain ⟨name, hname, -⟩ := groupAt_eq_some.mp hgroup
    exact ⟨position, (Array.getElem?_eq_some_iff.mp hname).1, group, hgroup, rfl, rfl⟩

theorem nodup_memberships (g : SharingGraph) (groups : List Group) :
    ((g.memberships groups).map (·.1)).Nodup := by
  rw [List.Nodup, List.pairwise_map, memberships, List.pairwise_filterMap]
  refine List.nodup_range.imp fun hne entry hentry entry' hentry' => ?_
  obtain ⟨_, -, rfl⟩ := Option.map_eq_some_iff.mp hentry
  obtain ⟨_, -, rfl⟩ := Option.map_eq_some_iff.mp hentry'
  exact hne

theorem join_assignment (g : SharingGraph) (groups : List Group) (position : Nat) :
    (g.assignment groups)[position]?.join = g.groupAt groups position := by
  rw [assignment_eq, Array.getElem?_map, groupAt]
  cases g.vertices[position]? <;> rfl

theorem zipIdx_assignment (g : SharingGraph) (groups : List Group) :
    (g.assignment groups).toList.zipIdx =
      (List.range g.vertexCount).map fun position => (g.groupAt groups position, position) := by
  rw [assignment_eq]
  refine List.ext_getElem (by simp [vertexCount]) fun position _ hposition => ?_
  rw [List.length_map, List.length_range] at hposition
  have hname := Array.getElem?_eq_getElem hposition
  simp only [List.getElem_zipIdx, Array.getElem_toList, Array.getElem_map, List.getElem_map,
    List.getElem_range, groupAt, hname, Option.bind_some, Nat.zero_add]
  rfl

theorem incidentSums_eq (g : SharingGraph) (groups : List Group) :
    g.incidentSums groups = g.incidentAlong groups.length (g.memberships groups) := by
  rw [incidentSums, zipIdx_assignment, List.foldlM_map, incidentAlong, memberships,
    List.foldlM_filterMap]
  congr 1
  funext sums position
  cases g.groupAt groups position <;> rfl

theorem share_memberships (g : SharingGraph) (groups : List Group) (group : Nat) :
    Tally.share group ((g.memberships groups).map fun (position, group) =>
      (group, g.weightedDegree position)) = g.around groups group := by
  rw [around, positionsIn, memberships]
  induction List.range g.vertexCount with
  | nil => rfl
  | cons position rest ih =>
    rw [List.filterMap_cons, List.filter_cons]
    cases hgroup : g.groupAt groups position with
    | none => simpa using ih
    | some other =>
      by_cases hsame : other = group
      · simpa [hsame] using ih
      · simpa [hsame] using ih

theorem around_lt (simple : g.Simple) (hfits : 2 * g.totalWeight < wordBound) {group : Nat}
    (hgroup : group < groups.length) : g.around groups group < wordBound := by
  have hle : g.around groups group ≤ _ :=
    le_addUp (List.mem_map_of_mem (List.mem_range.mpr hgroup))
  exact Nat.lt_of_le_of_lt (Nat.le_trans hle (addUp_around_le simple groups)) hfits

theorem incidentAlong_eq (simple : g.Simple) (hfits : 2 * g.totalWeight < wordBound)
    {walk : List (Nat × Nat)} (hwalk : walk.Perm (g.memberships groups)) :
    g.incidentAlong groups.length walk = .ok ((Array.range groups.length).map (g.around groups)) := by
  have hshare (group : Nat) : Tally.share group (walk.map fun (position, group) =>
      (group, g.weightedDegree position)) = g.around groups group := by
    rw [Tally.share_perm (hwalk.map _), share_memberships]
  have hbumps : g.incidentAlong groups.length walk = (walk.map fun (position, group) =>
      (group, g.weightedDegree position)).foldlM bump (Array.replicate groups.length 0) := by
    rw [List.foldlM_map]
    rfl
  rw [hbumps, foldlM_bump]
  · simp only [hshare]
  · intro entry hmem
    obtain ⟨⟨position, group⟩, hlisted, rfl⟩ := List.mem_map.mp hmem
    exact lt_of_groupAt (mem_memberships.mp (hwalk.mem_iff.mp hlisted))
  · intro group hgroup
    rw [hshare]
    exact around_lt simple hfits hgroup

theorem groupOf_assignment {link : Link} {group : Nat} :
    groupOf (g.assignment groups) link = some group ↔
      g.groupAt groups link.left = some group ∧ g.groupAt groups link.right = some group := by
  rw [groupOf, join_assignment, join_assignment]
  cases g.groupAt groups link.left with
  | none => simp
  | some left =>
    cases g.groupAt groups link.right with
    | none => simp
    | some right =>
      by_cases hsame : left = right
      · simp [hsame]
      · have hneither : ¬ (left = group ∧ right = group) := by omega
        simp [hsame, hneither]

def internalEntry (g : SharingGraph) (groups : List Group) (link : Link) : Option (Nat × Weight) :=
  (groupOf (g.assignment groups) link).map (·, 2 * link.weight)

theorem foldlM_addInternal {links : List Link} (hfits : ∀ link ∈ links, 2 * link.weight < wordBound)
    (sums : Array Weight) : links.foldlM (addInternal (g.assignment groups)) sums =
      (links.filterMap (g.internalEntry groups)).foldlM bump sums := by
  induction links generalizing sums with
  | nil => rfl
  | cons link rest ih =>
    obtain ⟨hlink, hrest⟩ := List.forall_mem_cons.mp hfits
    rw [List.foldlM_cons, List.filterMap_cons, internalEntry, addInternal]
    cases groupOf (g.assignment groups) link with
    | none => exact ih hrest sums
    | some group =>
      have hdouble : inWord .product (2 * link.weight) = .ok (2 * link.weight) := if_pos hlink
      change (inWord .product (2 * link.weight) >>= fun double => bump sums (group, double)) >>= _ =
        List.foldlM bump sums ((group, 2 * link.weight) :: _)
      rw [hdouble, List.foldlM_cons]
      exact congrArg _ (funext fun next => ih hrest next)

theorem share_internal (g : SharingGraph) (groups : List Group) (group : Nat) :
    Tally.share group (g.links.filterMap (g.internalEntry groups)) = g.inside groups group := by
  rw [inside_eq]
  induction g.links with
  | nil => rfl
  | cons link rest ih =>
    rw [List.filterMap_cons, List.map_cons, addUp_cons, ← ih, internalEntry]
    cases hgroup : groupOf (g.assignment groups) link with
    | none =>
      rw [if_neg fun hboth => by rw [groupOf_assignment.mpr hboth] at hgroup; cases hgroup]
      exact (Nat.zero_add _).symm
    | some other =>
      rw [Option.map_some]
      dsimp only
      rw [Tally.share_cons]
      congr 1
      simp only [← groupOf_assignment, hgroup, Option.some_inj, Std.compare_eq_iff_eq]

theorem two_weight_lt (hfits : 2 * g.totalWeight < wordBound) {link : Link}
    (hlink : link ∈ g.links) : 2 * link.weight < wordBound := by
  have hle : link.weight ≤ g.totalWeight := le_addUp (List.mem_map_of_mem hlink)
  exact Nat.lt_of_le_of_lt (Nat.mul_le_mul_left 2 hle) hfits

theorem internalSums_eq (simple : g.Simple) (hfits : 2 * g.totalWeight < wordBound)
    (groups : List Group) :
    g.internalSums groups = .ok ((Array.range groups.length).map (g.inside groups)) := by
  rw [internalSums, foldlM_addInternal fun _ hlink => two_weight_lt hfits hlink, foldlM_bump]
  · simp only [share_internal]
  · intro entry hmem
    obtain ⟨link, -, hentry⟩ := List.mem_filterMap.mp hmem
    obtain ⟨group, hgroup, rfl⟩ := Option.map_eq_some_iff.mp hentry
    exact lt_of_groupAt (groupOf_assignment.mp hgroup).1
  · intro group hgroup
    rw [share_internal]
    exact Nat.lt_of_le_of_lt (inside_le_around simple groups group)
      (around_lt simple hfits hgroup)

end SharingGraph

end Cohort
