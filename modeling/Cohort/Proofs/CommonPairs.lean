import Cohort.Proofs.Agreement

/-! Families of groups compared pair by pair, where no name is in two groups of a family. If the ids
of the family in which names are looked up are distinct, the pairs that are counted are those that
both families put together, and the agreement is the same from both sides. -/

namespace Cohort

namespace Group

variable {groups : List Group} {group : Group}

def Separate (groups : List Group) : Prop :=
  groups.Pairwise fun group other => ∀ name ∈ group.names, name ∉ other.names

instance (groups : List Group) : Decidable (Separate groups) :=
  inferInstanceAs (Decidable (groups.Pairwise _))

theorem Separate.nodup_names (separate : Separate groups) :
    (groups.flatMap (·.names)).Nodup := by
  rw [List.nodup_flatMap]
  exact ⟨fun group _ => group.nodup_names, separate.imp fun hapart name => hapart name⟩

def together : List Group → Finset (Finset Identity)
  | [] => ∅
  | group :: rest => group.pairs ∪ together rest

theorem mem_together {pair : Finset Identity} :
    pair ∈ together groups ↔ ∃ group ∈ groups, pair ∈ group.pairs := by
  induction groups with
  | nil => simp [together]
  | cons group rest ih => rw [together, Finset.mem_union, ih, List.exists_mem_cons_iff]

theorem disjoint_pairs {other : Group} (hapart : ∀ name ∈ group.names, name ∉ other.names) :
    Disjoint group.pairs other.pairs := by
  rw [Finset.disjoint_left]
  intro pair hpair hother
  obtain ⟨hcard, hmembers⟩ := mem_pairs.mp hpair
  obtain ⟨name, hname⟩ := Finset.card_pos.mp (hcard ▸ Nat.two_pos)
  exact hapart name (mem_names.mpr (hmembers name hname))
    (mem_names.mpr ((mem_pairs.mp hother).2 name hname))

theorem Separate.card_filter (separate : Separate groups) (p : Finset Identity → Prop)
    [DecidablePred p] : ((together groups).filter p).card =
      addUp (groups.map fun group => (group.pairs.filter p).card) := by
  induction groups with
  | nil => rfl
  | cons group rest ih =>
    obtain ⟨hapart, hrest⟩ := List.pairwise_cons.mp separate
    have hdisjoint : Disjoint group.pairs (together rest) := by
      rw [Finset.disjoint_right]
      intro pair hpair
      obtain ⟨other, hmem, hother⟩ := mem_together.mp hpair
      exact Finset.disjoint_right.mp (disjoint_pairs (hapart other hmem)) hother
    rw [together, Finset.filter_union,
      Finset.card_union_of_disjoint (Finset.disjoint_filter_filter hdisjoint), ih hrest,
      List.map_cons, addUp_cons]

theorem Separate.card_together (separate : Separate groups) :
    (together groups).card = Agreement.pairs groups := by
  have hall := separate.card_filter fun _ => True
  simp only [Finset.filter_true, card_pairs] at hall
  exact hall

end Group

namespace Agreement

open Cohort.Group (together Separate)

variable {first second : List Group}

open Classical in
theorem both_ofGroups (separate : Separate first) (second : List Group) :
    (ofGroups first second).both = ((together first).filter (Joined (membership second))).card := by
  rw [separate.card_filter]
  simp only [← sharedPairs_eq]
  rfl

theorem joined_of_mem (separate : Separate second) {pair : Finset Identity}
    (h : pair ∈ together second) : Joined (membership second) pair := by
  obtain ⟨group, hgroup, hpair⟩ := Group.mem_together.mp h
  refine ⟨group.id, fun name hname => (getElem?_membership separate.nodup_names).mpr ?_⟩
  exact ⟨group, hgroup, (Group.mem_pairs.mp hpair).2 name hname, rfl⟩

theorem mem_of_joined (separate : Separate second) (hids : (second.map (·.id)).Nodup)
    {pair : Finset Identity} (hcard : pair.card = 2) (h : Joined (membership second) pair) :
    pair ∈ together second := by
  simp only [Joined, getElem?_membership separate.nodup_names] at h
  obtain ⟨label, hlabel⟩ := h
  obtain ⟨name, hname⟩ := Finset.card_pos.mp (hcard ▸ Nat.two_pos)
  obtain ⟨group, hgroup, -, rfl⟩ := hlabel name hname
  refine Group.mem_together.mpr ⟨group, hgroup, Group.mem_pairs.mpr ⟨hcard, fun other hother => ?_⟩⟩
  obtain ⟨group', hgroup', hmem, hid⟩ := hlabel other hother
  rwa [List.inj_on_of_nodup_map hids hgroup' hgroup hid] at hmem

theorem card_of_mem_together {pair : Finset Identity} (h : pair ∈ together first) :
    pair.card = 2 := by
  obtain ⟨group, -, hpair⟩ := Group.mem_together.mp h
  exact (Group.mem_pairs.mp hpair).1

/-- Every pair that both families put together is counted, and besides those the pairs of the first
family that the second one has under one id in different groups. -/
theorem both_eq_iff (separate : Separate first) (separate' : Separate second) :
    (ofGroups first second).both = (together first ∩ together second).card ↔
      ∀ pair ∈ together first, Joined (membership second) pair → pair ∈ together second := by
  classical
  have hsubset : together first ∩ together second ⊆
      (together first).filter (Joined (membership second)) := by
    intro pair hpair
    obtain ⟨hfirst, hsecond⟩ := Finset.mem_inter.mp hpair
    exact Finset.mem_filter.mpr ⟨hfirst, joined_of_mem separate' hsecond⟩
  rw [both_ofGroups separate]
  constructor
  · intro hcard pair hpair hjoined
    have hsame := Finset.eq_of_subset_of_card_le hsubset (Nat.le_of_eq hcard)
    have hmem : pair ∈ together first ∩ together second :=
      hsame ▸ Finset.mem_filter.mpr ⟨hpair, hjoined⟩
    exact (Finset.mem_inter.mp hmem).2
  · intro h
    refine congrArg Finset.card (Finset.Subset.antisymm (fun pair hpair => ?_) hsubset)
    obtain ⟨hfirst, hjoined⟩ := Finset.mem_filter.mp hpair
    exact Finset.mem_inter.mpr ⟨hfirst, h pair hfirst hjoined⟩

/-- Where the ids of the second family are distinct, the agreement counts the pairs that both
families and that any of them puts together. -/
theorem ofGroups_eq (separate : Separate first) (separate' : Separate second)
    (hids : (second.map (·.id)).Nodup) : ofGroups first second =
      ⟨(together first ∩ together second).card, (together first ∪ together second).card⟩ := by
  -- the shared pairs are a subset of either family's, so no difference is cut off at zero
  have hboth : addUp (first.map (sharedPairs (membership second))) =
      (together first ∩ together second).card :=
    (both_eq_iff separate separate').mpr fun _ hpair =>
      mem_of_joined separate' hids (card_of_mem_together hpair)
  have hunion := Finset.card_union_add_card_inter (together first) (together second)
  have hfirst : (together first ∩ together second).card ≤ (together first).card :=
    Finset.card_le_card Finset.inter_subset_left
  have hsecond : (together first ∩ together second).card ≤ (together second).card :=
    Finset.card_le_card Finset.inter_subset_right
  simp only [ofGroups, hboth, ← separate.card_together, ← separate'.card_together, mk.injEq,
    true_and]
  omega

/-- Where no name is in two groups and the second family has distinct ids, agreement counts the
pairs that both families put together, and those that at least one of them does. -/
theorem pairs_counted (separate : Separate first) (separate' : Separate second)
    (hids : (second.map (·.id)).Nodup) :
    let agreement := ofGroups first second
    agreement.both = (together first ∩ together second).card ∧
    agreement.total = (together first ∪ together second).card ∧
    agreement.both ≤ pairs first ∧ agreement.both ≤ pairs second ∧
    agreement.both ≤ agreement.total ∧
    ((first.map (·.id)).Nodup → ofGroups second first = agreement) ∧
    (agreement.total = 0 ↔ together first = ∅ ∧ together second = ∅) ∧
    (agreement.total = 0 → jaccard first second = 1.0) ∧
    (agreement.both = agreement.total ↔ together first = together second) := by
  intro agreement
  have hagreement : agreement = _ := ofGroups_eq separate separate' hids
  rw [← separate.card_together, ← separate'.card_together, hagreement]
  refine ⟨rfl, rfl, Finset.card_le_card Finset.inter_subset_left,
    Finset.card_le_card Finset.inter_subset_right,
    Finset.card_le_card Finset.inter_subset_union, fun hfirst => ?_, ?_, fun hnone => ?_, ?_⟩
  · rw [ofGroups_eq separate' separate hfirst, Finset.inter_comm, Finset.union_comm]
  · rw [Finset.card_eq_zero, Finset.union_eq_empty]
  · exact if_pos ((congrArg total hagreement).trans hnone)
  · constructor
    · intro hsame
      exact inf_eq_sup.mp
        (Finset.eq_of_subset_of_card_le Finset.inter_subset_union (Nat.le_of_eq hsame.symm))
    · intro hsame
      rw [hsame, Finset.inter_self, Finset.union_self]

theorem pairs_counted_overlap :
    let first : List Group := [.ofList 0 ["a", "b", "c"], .ofList 1 ["d", "e"]]
    let second : List Group := [.ofList 4 ["b", "a"], .ofList 3 ["c", "d", "x"], .ofList 5 []]
    (ofGroups first second).both = 1 ∧ (ofGroups first second).total = 7 ∧
      ofGroups second first = ofGroups first second := by
  intro first second
  have hseparate : Separate first ∧ Separate second := by decide +kernel
  obtain ⟨hboth, htotal, -, -, -, hswap, -⟩ :=
    pairs_counted hseparate.1 hseparate.2 (by decide +kernel)
  refine ⟨hboth.trans (by decide +kernel), htotal.trans (by decide +kernel),
    hswap (by decide +kernel)⟩

/-- Groups of the first family that share an id are taken for one when the families change sides. -/
theorem pairs_counted_one_way :
    let first : List Group := [.ofList 0 ["a"], .ofList 0 ["b"]]
    let second : List Group := [.ofList 0 ["a", "b"]]
    Separate first ∧ Separate second ∧ (second.map (·.id)).Nodup ∧
      ofGroups first second = ⟨0, 1⟩ ∧ ofGroups second first = ⟨1, 1⟩ := by
  decide +kernel

section Ids

variable {others : List Group}

/-- Whether two families hold the same groups in the same places, whatever their ids are. -/
def SameGroups (groups others : List Group) : Prop :=
  groups.map (·.members) = others.map (·.members)

def idAt (groups : List Group) (place : Nat) : Option Label :=
  groups[place]?.map (·.id)

theorem SameGroups.separate (same : SameGroups first others) (separate : Separate first) :
    Separate others := by
  have hmembers : (first.map (·.members)).Pairwise fun members other =>
      ∀ name ∈ members.toList, name ∉ other.toList := List.pairwise_map.mpr separate
  rw [same] at hmembers
  exact List.pairwise_map.mp hmembers

theorem SameGroups.exists_group (same : SameGroups first others) {place : Nat} {group : Group}
    (h : first[place]? = some group) :
    ∃ other, others[place]? = some other ∧ other.members = group.members := by
  have hplace := congrArg (·[place]?) same
  simp only [List.getElem?_map, h, Option.map_some] at hplace
  exact Option.map_eq_some_iff.mp hplace.symm

theorem shared_eq (ids : Table Identity Label) (groups : List Group) :
    groups.map (sharedPairs ids) =
      (groups.map (·.members)).map fun members => sharedPairs ids ⟨0, members⟩ := by
  rw [List.map_map]
  rfl

theorem Joined.of_same (separate : Separate first) (same : SameGroups first others)
    (hids : ∀ i j, idAt first i = idAt first j → idAt others i = idAt others j)
    {pair : Finset Identity} (hcard : pair.card = 2) (h : Joined (membership first) pair) :
    Joined (membership others) pair := by
  simp only [Joined, getElem?_membership separate.nodup_names,
    getElem?_membership (same.separate separate).nodup_names, List.mem_iff_getElem?] at h ⊢
  obtain ⟨label, hlabel⟩ := h
  obtain ⟨name, hname⟩ := Finset.card_pos.mp (hcard ▸ Nat.two_pos)
  obtain ⟨group, ⟨place, hplace⟩, -, hid⟩ := hlabel name hname
  obtain ⟨own, hown, -⟩ := same.exists_group hplace
  refine ⟨own.id, fun other hother => ?_⟩
  obtain ⟨group', ⟨place', hplace'⟩, hmem, hid'⟩ := hlabel other hother
  obtain ⟨own', hown', hmembers⟩ := same.exists_group hplace'
  have hshared := hids place' place (by simp [idAt, hplace, hplace', hid, hid'])
  simp only [idAt, hown, hown', Option.map_some, Option.some.injEq] at hshared
  exact ⟨own', ⟨place', hown'⟩, hmembers ▸ hmem, hshared⟩

theorem SameGroups.ofGroups_left (same : SameGroups first others) (second : List Group) :
    ofGroups others second = ofGroups first second := by
  unfold SameGroups at same
  simp only [ofGroups, shared_eq, pairs_eq, same]

theorem SameGroups.ofGroups_right (separate : Separate first) (separate' : Separate second)
    (same : SameGroups second others)
    (hids : ∀ i j, idAt second i = idAt second j ↔ idAt others i = idAt others j) :
    ofGroups first others = ofGroups first second := by
  classical
  have hjoined : ∀ pair ∈ together first,
      (Joined (membership others) pair ↔ Joined (membership second) pair) := by
    intro pair hpair
    have hcard := card_of_mem_together hpair
    exact ⟨Joined.of_same (same.separate separate') same.symm (fun i j => (hids i j).mpr) hcard,
      Joined.of_same separate' same (fun i j => (hids i j).mp) hcard⟩
  have hboth : (ofGroups first others).both = (ofGroups first second).both := by
    rw [both_ofGroups separate, both_ofGroups separate, Finset.filter_congr hjoined]
  have hpairs : pairs others = pairs second := by
    rw [pairs_eq, pairs_eq, same]
  change Agreement.mk (ofGroups first others).both ((ofGroups first others).both +
    (pairs first - (ofGroups first others).both) + (pairs others - (ofGroups first others).both)) = _
  rw [hboth, hpairs]
  rfl

end Ids

/-- The ids of the first family do not matter, and of those of the second only which groups share
one. Where ids are distinct in both families, the similarity is the same from both sides. -/
theorem ids_immaterial (separate : Separate first) (separate' : Separate second) :
    (∀ others, SameGroups first others → jaccard others second = jaccard first second) ∧
    (∀ others, SameGroups second others →
      (∀ i j, idAt second i = idAt second j ↔ idAt others i = idAt others j) →
        jaccard first others = jaccard first second) ∧
    ((ofGroups first second).both = (together first ∩ together second).card ↔
      ∀ pair ∈ together first, Joined (membership second) pair → pair ∈ together second) ∧
    ((first.map (·.id)).Nodup → (second.map (·.id)).Nodup →
      jaccard second first = jaccard first second) := by
  refine ⟨fun others same => ?_, fun others same hids => ?_, both_eq_iff separate separate',
    fun hids hids' => ?_⟩
  · exact congrArg ratio (same.ofGroups_left second)
  · exact congrArg ratio (same.ofGroups_right separate separate' hids)
  · unfold jaccard
    rw [ofGroups_eq separate separate' hids', ofGroups_eq separate' separate hids,
      Finset.inter_comm, Finset.union_comm]

theorem ids_immaterial_renamed :
    let first : List Group := [.ofList 0 ["a", "b"], .ofList 0 ["c", "d"]]
    let second : List Group := [.ofList 6 ["a", "b", "c"], .ofList 5 ["d"]]
    let renamed : List Group := [.ofList 0 ["a", "b", "c"], .ofList 9 ["d"]]
    jaccard [.ofList 4 ["a", "b"], .ofList 7 ["c", "d"]] second = jaccard first second ∧
      jaccard first renamed = jaccard first second ∧
      (ofGroups first second).both = 1 := by
  intro first second renamed
  have hseparate : Separate first ∧ Separate second := by decide +kernel
  obtain ⟨hleft, hright, hboth, -⟩ := ids_immaterial hseparate.1 hseparate.2
  refine ⟨hleft _ rfl, hright renamed rfl fun i j => ?_, ?_⟩
  · match i, j with
    | 0, 0 | 0, 1 | 0, j + 2 | 1, 0 | 1, 1 | 1, j + 2 | i + 2, 0 | i + 2, 1 | i + 2, j + 2 =>
      simp [idAt, second, renamed, Group.ofList]
  · refine (hboth.mpr fun pair hpair hjoined => ?_).trans (by decide +kernel)
    exact mem_of_joined (by decide +kernel) (by decide +kernel) (card_of_mem_together hpair) hjoined

/-- Two groups of the second family that share an id are taken for one. -/
theorem ids_confused :
    let first : List Group := [.ofList 0 ["a", "b"]]
    let second : List Group := [.ofList 0 ["a"], .ofList 0 ["b"]]
    let renamed : List Group := [.ofList 0 ["a"], .ofList 1 ["b"]]
    Separate first ∧ Separate second ∧ SameGroups second renamed ∧
      jaccard first second = 1.0 ∧ jaccard first renamed = 0.0 ∧ jaccard second first = 0.0 := by
  intro first second renamed
  have hwhole : ofGroups first second = ⟨1, 1⟩ := by decide +kernel
  have hnone : ofGroups first renamed = ⟨0, 1⟩ := by decide +kernel
  have hswapped : ofGroups second first = ⟨0, 1⟩ := by decide +kernel
  have hzero : (Agreement.mk 0 1).ratio = 0.0 := by decide +kernel
  refine ⟨by decide +kernel, by decide +kernel, rfl, ?_, ?_, ?_⟩
  · exact (congrArg ratio hwhole).trans (ratio_of_whole (by decide))
  · exact (congrArg ratio hnone).trans hzero
  · exact (congrArg ratio hswapped).trans hzero

end Agreement

end Cohort
