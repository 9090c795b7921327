import Cohort.Proofs.Ratio
import Cohort.Proofs.Sum
import Cohort.Weight
import Mathlib.Data.Finset.Powerset
import Mathlib.Data.List.Nodup
import Mathlib.Data.Nat.Choose.Basic

/-! Pairs of names that groups put together. The names of a group are looked up in another family
and counted by the id that is found, so what is counted are its pairs whose names are found under
one id. Families that consist of the same groups agree on all pairs. -/

namespace Cohort

theorem pairCount_eq (n : Nat) : pairCount n = n.choose 2 :=
  (Nat.choose_two_right n).symm

namespace Group

variable {group : Group}

def pairs (group : Group) : Finset (Finset Identity) :=
  group.names.toFinset.powersetCard 2

theorem mem_pairs {pair : Finset Identity} :
    pair ∈ group.pairs ↔ pair.card = 2 ∧ ∀ name ∈ pair, name ∈ group.members := by
  rw [pairs, Finset.mem_powersetCard, and_comm, Finset.subset_iff]
  simp only [List.mem_toFinset, mem_names]

theorem card_pairs (group : Group) : group.pairs.card = pairCount group.size := by
  rw [pairs, Finset.card_powersetCard, List.toFinset_card_of_nodup group.nodup_names, length_names,
    pairCount_eq]

end Group

namespace Agreement

theorem getElem?_membership {groups : List Group} (hdisjoint : (groups.flatMap (·.names)).Nodup)
    {name : Identity} {label : Label} : (membership groups)[name]? = some label ↔
      ∃ group ∈ groups, name ∈ group.members ∧ group.id = label := by
  have hkeys : (groups.flatMap fun group => group.names.map (·, group.id)).map (·.1) =
      groups.flatMap (·.names) := by
    rw [List.map_flatMap]
    simp [Function.comp_def]
  rw [membership, getElem?_ofList_eq_some (hkeys ▸ hdisjoint), List.mem_flatMap]
  simp [Group.mem_names]

def Joined (ids : Table Identity Label) (pair : Finset Identity) : Prop :=
  ∃ label, ∀ name ∈ pair, ids[name]? = some label

section Shared

variable (ids : Table Identity Label) (group : Group)

def found (label : Label) : Finset Identity :=
  {name ∈ group.names.toFinset | ids[name]? = some label}

def tallied : Tally Label :=
  .ofList (group.names.filterMap fun name => ids[name]?.map (·, 1))

theorem count_tallied (label : Label) :
    (tallied ids group).count label = (found ids group label).card := by
  have hlist : found ids group label =
      (group.names.filter fun name => ids[name]? = some label).toFinset := by
    ext name
    simp [found]
  rw [tallied, Tally.count_ofList, hlist,
    List.toFinset_card_of_nodup (group.nodup_names.filter _)]
  induction group.names with
  | nil => rfl
  | cons name rest ih =>
    rw [List.filterMap_cons, List.filter_cons]
    cases hid : ids[name]? with
    | none => simp [ih]
    | some id =>
      by_cases hsame : id = label
      · simp [hsame, ih, Nat.add_comm]
      · simp [hsame, ih]

open Classical in
theorem filter_joined : group.pairs.filter (Joined ids) =
    ((tallied ids group).entries.map (·.1)).toFinset.biUnion fun label =>
      (found ids group label).powersetCard 2 := by
  ext pair
  simp only [Finset.mem_filter, Group.mem_pairs, Finset.mem_biUnion, Finset.mem_powersetCard,
    List.mem_toFinset]
  constructor
  · rintro ⟨⟨hcard, hmembers⟩, label, hlabel⟩
    have hfound : pair ⊆ found ids group label := by
      intro name hname
      simp only [found, Finset.mem_filter, List.mem_toFinset]
      exact ⟨Group.mem_names.mpr (hmembers name hname), hlabel name hname⟩
    have hpositive : 0 < (found ids group label).card :=
      Nat.lt_of_lt_of_le (hcard ▸ Nat.two_pos) (Finset.card_le_card hfound)
    refine ⟨label, ?_, hfound, hcard⟩
    exact List.mem_map_of_mem (Tally.mem_entries.mpr ⟨count_tallied ids group label, hpositive⟩)
  · rintro ⟨label, -, hfound, hcard⟩
    have hname : ∀ name ∈ pair, name ∈ group.names ∧ ids[name]? = some label := by
      intro name hname
      simpa [found] using hfound hname
    exact ⟨⟨hcard, fun name hmem => Group.mem_names.mp (hname name hmem).1⟩,
      label, fun name hmem => (hname name hmem).2⟩

open Classical in
/-- What a group shares with a family are its pairs whose names are found under one id. -/
theorem sharedPairs_eq : sharedPairs ids group = (group.pairs.filter (Joined ids)).card := by
  have hentries : (tallied ids group).entries.map (fun entry => pairCount entry.2) =
      ((tallied ids group).entries.map (·.1)).map fun label =>
        ((found ids group label).powersetCard 2).card := by
    rw [List.map_map]
    refine List.map_congr_left fun entry hmem => ?_
    rw [Function.comp_apply, Finset.card_powersetCard, ← count_tallied,
      (Tally.mem_entries.mp hmem).1, pairCount_eq]
  rw [filter_joined, Finset.card_biUnion, ← addUp_map_eq_sum (Tally.nodup_keys _), ← hentries]
  · rfl
  · intro label _ other _ hne
    refine Finset.disjoint_left.mpr fun pair hpair hother => ?_
    obtain ⟨hfound, hcard⟩ := Finset.mem_powersetCard.mp hpair
    obtain ⟨name, hname⟩ := Finset.card_pos.mp (hcard ▸ Nat.two_pos)
    have hlabel := (Finset.mem_filter.mp (hfound hname)).2
    have hlabel' := (Finset.mem_filter.mp ((Finset.mem_powersetCard.mp hother).1 hname)).2
    exact hne (Option.some.inj (hlabel.symm.trans hlabel'))

end Shared

theorem sharedPairs_of_same {other : Table Identity Label} {group : Group} {label : Label}
    (h : ∀ name ∈ group.members, other[name]? = some label) :
    sharedPairs other group = pairCount group.size := by
  classical
  rw [sharedPairs_eq, Finset.filter_true_of_mem, Group.card_pairs]
  intro pair hpair
  exact ⟨label, fun name hname => h name ((Group.mem_pairs.mp hpair).2 name hname)⟩

theorem pairs_eq (groups : List Group) :
    pairs groups = addUp ((groups.map (·.members)).map fun members => pairCount members.size) := by
  rw [pairs, List.map_map]
  rfl

/-- Families with the same members agree on every pair that either puts together. -/
theorem ofGroups_of_perm {first second : List Group}
    (hdisjoint : (second.flatMap (·.names)).Nodup)
    (h : (first.map (·.members)).Perm (second.map (·.members))) :
    ofGroups first second = ⟨pairs second, pairs second⟩ := by
  have hpairs : pairs first = pairs second := by
    rw [pairs_eq, pairs_eq]
    exact addUp_perm (h.map _)
  have hshared : first.map (sharedPairs (membership second)) =
      first.map fun group => pairCount group.size := by
    apply List.map_congr_left
    intro group hgroup
    obtain ⟨other, hother, hsame⟩ := List.mem_map.mp (h.mem_iff.mp (List.mem_map_of_mem hgroup))
    apply sharedPairs_of_same
    intro name hname
    exact (getElem?_membership hdisjoint).mpr ⟨other, hother, hsame ▸ hname, rfl⟩
  have hboth : addUp (first.map (sharedPairs (membership second))) = pairs first :=
    congrArg addUp hshared
  simp only [ofGroups, hboth, hpairs, Nat.sub_self, Nat.add_zero]

theorem ratio_of_whole {pairs : Nat} (h : pairs < wordBound) :
    (Agreement.mk pairs pairs).ratio = 1.0 := by
  unfold ratio
  split
  next => rfl
  next hpairs =>
    have hvalue : pairs.toUInt64.toNat = pairs := Nat.mod_eq_of_lt h
    obtain ⟨sign, m, e, hm, hfinite⟩ := unpack_toFloat (n := pairs.toUInt64) (by
      rw [hvalue]
      exact Nat.pos_of_ne_zero hpairs)
    exact div_self_of_finite hfinite

end Agreement

end Cohort
