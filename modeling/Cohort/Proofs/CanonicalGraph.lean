import Cohort.Proofs.Cliques
import Cohort.Proofs.Projection
import Mathlib.Data.List.Dedup

/-! What is told to a draft decides the graph that is made of it: the names in their order, and one
edge for each two of them that were linked. The order of the telling leaves no trace, and the edges
and the rows of neighbours tell the same. -/

namespace Cohort

theorem Tally.total_ofList {κ : Type} [Ord κ] [Std.TransOrd κ] [Std.LawfulEqOrd κ] [DecidableEq κ]
    (entries : List (κ × Nat)) : (ofList entries).total = addUp (entries.map (·.2)) := by
  have hkeys : ∀ entry ∈ entries, entry.1 ∈ (entries.map (·.1)).dedup := fun entry hmem =>
    List.mem_dedup.mpr (List.mem_map_of_mem hmem)
  have hnodup := List.nodup_dedup (entries.map (·.1))
  rw [total_eq hnodup]
  · rw [funext (count_ofList entries)]
    generalize (entries.map (·.1)).dedup = keys at hkeys hnodup
    induction entries with
    | nil => exact addUp_eq_zero (by simp)
    | cons entry rest ih =>
      obtain ⟨hfirst, hrest⟩ := List.forall_mem_cons.mp hkeys
      have hown : addUp (keys.map fun key => if compare entry.1 key = .eq then entry.2 else 0) =
          entry.2 := by
        simp only [Std.compare_eq_iff_eq, @eq_comm _ entry.1, addUp_map_ite_eq,
          List.count_eq_one_of_mem hnodup hfirst, Nat.one_mul]
      simp only [share_cons, addUp_map_add, hown, ih hrest, List.map_cons, addUp_cons]
  · intro key hpositive
    rw [count_ofList] at hpositive
    exact List.mem_dedup.mpr (mem_keys_of_share_pos hpositive)

namespace SharingGraph

section Rows

variable {g : SharingGraph}

theorem indexOf?_eq_some (hnodup : g.vertices.toList.Nodup) {name : Identity} {position : Nat} :
    g.indexOf? name = some position ↔ g.identity? position = some name := by
  unfold indexOf? identity?
  generalize g.vertices = vertices at hnodup
  obtain ⟨names⟩ := vertices
  rw [List.idxOf?_toArray, List.idxOf?_eq_some_iff, List.getElem?_toArray,
    List.getElem?_eq_some_iff]
  constructor
  · rintro ⟨hinside, hname, -⟩
    exact ⟨hinside, hname⟩
  · rintro ⟨hinside, hname⟩
    refine ⟨hinside, hname, fun earlier hlt hsame => ?_⟩
    exact Nat.ne_of_lt hlt ((hnodup.getElem_inj_iff).mp (hsame.trans hname.symm))

theorem Simple.mem_neighbours (simple : g.Simple) {i j : Nat} {weight : Weight} :
    (j, weight) ∈ g.neighbours i ↔ ⟨min i j, max i j, weight⟩ ∈ g.links := by
  rw [SharingGraph.mem_neighbours]
  constructor
  · rintro ⟨-, ⟨left, right, w⟩, hmem, hseen⟩
    have hlt : left < right := simple.ordered _ hmem
    obtain ⟨rfl, ⟨rfl, rfl⟩ | ⟨rfl, rfl⟩⟩ := Link.seenFrom_eq_some.mp hseen
    · rwa [Nat.min_eq_left (Nat.le_of_lt hlt), Nat.max_eq_right (Nat.le_of_lt hlt)]
    · rwa [Nat.min_eq_right (Nat.le_of_lt hlt), Nat.max_eq_left (Nat.le_of_lt hlt)]
  · intro hmem
    have hlt : min i j < max i j := simple.ordered _ hmem
    have hinside : max i j < g.vertexCount := simple.inside _ hmem
    have hends : min i j = i ∧ max i j = j ∨ min i j = j ∧ max i j = i := by omega
    exact ⟨by omega, _, hmem, Link.seenFrom_eq_some.mpr ⟨rfl, hends⟩⟩

theorem Simple.mem_neighbours_comm (simple : g.Simple) {i j : Nat} {weight : Weight} :
    (j, weight) ∈ g.neighbours i ↔ (i, weight) ∈ g.neighbours j := by
  rw [simple.mem_neighbours, simple.mem_neighbours, Nat.min_comm, Nat.max_comm]

theorem Simple.neighbours_ascending (simple : g.Simple) (hlinks : g.links.Pairwise Link.Before)
    (position : Nat) : (g.neighbours position).Pairwise fun x y => x.1 < y.1 := by
  rw [neighbours_eq]
  split
  next =>
    rw [rowOf, List.pairwise_filterMap]
    refine hlinks.imp_of_mem fun {link link'} hmem hmem' hbefore seen hseen seen' hseen' => ?_
    have hlt := simple.ordered link hmem
    have hlt' := simple.ordered link' hmem'
    unfold Link.Before at hbefore
    unfold Link.seenFrom at hseen hseen'
    grind
  next => exact .nil

theorem lookup_eq_some {row : List (Nat × Weight)} (hrow : row.Pairwise fun x y => x.1 < y.1)
    {position : Nat} {weight : Weight} :
    row.lookup position = some weight ↔ (position, weight) ∈ row := by
  rw [List.lookup_eq_some_iff]
  constructor
  · rintro ⟨before, after, rfl, -⟩
    exact List.mem_append_right _ List.mem_cons_self
  · intro hmem
    obtain ⟨before, after, rfl⟩ := List.append_of_mem hmem
    refine ⟨before, after, rfl, fun seen hseen => bne_iff_ne.mpr ?_⟩
    exact Nat.ne_of_gt ((List.pairwise_append.mp hrow).2.2 seen hseen _ List.mem_cons_self)

end Rows

section Built

variable {g : SharingGraph} (built : g.Built)

include built

theorem Built.edgeWeight?_eq_some {first second : Identity} {weight : Weight} :
    g.edgeWeight? first second = some weight ↔ ∃ i j, g.identity? i = some first ∧
      g.identity? j = some second ∧ (j, weight) ∈ g.neighbours i := by
  have hrow := built.simple.neighbours_ascending built.links_ascending
  simp only [edgeWeight?, bind, Option.bind_eq_some_iff, indexOf?_eq_some built.nodup_vertices,
    lookup_eq_some (hrow _), exists_and_left]

theorem Built.edgeWeight?_comm (first second : Identity) :
    g.edgeWeight? first second = g.edgeWeight? second first := by
  ext weight
  rw [built.edgeWeight?_eq_some, built.edgeWeight?_eq_some]
  constructor <;>
  · rintro ⟨i, j, hi, hj, hmem⟩
    exact ⟨j, i, hj, hi, built.simple.mem_neighbours_comm.mp hmem⟩

end Built

namespace Draft

inductive Call
  | vertex (name : Identity)
  | link (first second : Identity) (weight : Weight)
  deriving DecidableEq

namespace Call

def flip : Call → Call
  | .vertex name => .vertex name
  | .link first second weight => .link second first weight

/-- Whether a call makes a name a vertex. A loop does not, nor does a link without weight. -/
def Names (name : Identity) : Call → Prop
  | .vertex added => added = name
  | .link first second weight => first ≠ second ∧ weight ≠ 0 ∧ (first = name ∨ second = name)

/-- Whether a call puts weight between two names, whichever it takes first. -/
def Links (first second : Identity) : Call → Prop
  | .vertex _ => False
  | .link a b weight => a ≠ b ∧ weight ≠ 0 ∧ (a = first ∧ b = second ∨ a = second ∧ b = first)

def weightBetween (first second : Identity) : Call → Weight
  | .vertex _ => 0
  | .link a b weight => if a = first ∧ b = second ∨ a = second ∧ b = first then weight else 0

def worth : Call → Weight
  | .vertex _ => 0
  | .link first second weight => if first = second then 0 else weight

variable {first second : Identity} {c : Call}

theorem names_flip {name : Identity} : c.flip.Names name ↔ c.Names name := by
  cases c with
  | vertex added => rfl
  | link a b weight => simp only [flip, Names, ne_comm, or_comm]

theorem weightBetween_flip : c.flip.weightBetween first second = c.weightBetween first second := by
  cases c with
  | vertex added => rfl
  | link a b weight => simp only [flip, weightBetween, and_comm, or_comm]

theorem links_comm : c.Links first second ↔ c.Links second first := by
  cases c with
  | vertex added => rfl
  | link a b weight => simp only [Links, or_comm]

theorem weightBetween_comm : c.weightBetween first second = c.weightBetween second first := by
  cases c with
  | vertex added => rfl
  | link a b weight => simp only [weightBetween, or_comm]

theorem Links.ne (h : c.Links first second) : first ≠ second := by
  cases c with
  | vertex added => exact h.elim
  | link a b weight =>
    obtain ⟨hne, -, ⟨rfl, rfl⟩ | ⟨rfl, rfl⟩⟩ := h
    · exact hne
    · exact hne.symm

theorem Links.names (h : c.Links first second) {name : Identity}
    (hname : name = first ∨ name = second) : c.Names name := by
  cases c with
  | vertex added => exact h.elim
  | link a b weight =>
    unfold Links at h
    unfold Names
    grind

theorem links_iff (hne : first ≠ second) : c.Links first second ↔
    0 < c.weightBetween first second := by
  cases c with
  | vertex added => simp [Links, weightBetween]
  | link a b weight =>
    unfold Links weightBetween
    grind

end Call

def call (d : Draft) : Call → Draft
  | .vertex name => d.addVertex name
  | .link first second weight => d.addLink first second weight

def ofCalls (calls : List Call) : Draft :=
  calls.foldl call ∅

theorem made_ofCalls (calls : List Call) : (ofCalls calls).Made := by
  have hmade (d : Draft) (made : d.Made) : (calls.foldl call d).Made := by
    induction calls generalizing d with
    | nil => exact made
    | cons c rest ih =>
      cases c with
      | vertex name => exact ih _ (made.vertex name)
      | link first second weight => exact ih _ (made.link first second weight)
  exact hmade ∅ .empty

theorem mem_ofCalls {calls : List Call} {name : Identity} :
    name ∈ (ofCalls calls).vertices ↔ ∃ c ∈ calls, c.Names name := by
  have hmem (d : Draft) : name ∈ (calls.foldl call d).vertices ↔
      name ∈ d.vertices ∨ ∃ c ∈ calls, c.Names name := by
    induction calls generalizing d with
    | nil => simp
    | cons c rest ih =>
      rw [List.foldl_cons, ih, List.exists_mem_cons_iff, ← or_assoc]
      apply or_congr_left
      cases c with
      | vertex added => rw [call, mem_addVertex, Call.Names, or_comm, eq_comm]
      | link first second weight =>
        rw [call, mem_addLink, Call.Names, ← and_assoc]
        simp only [@eq_comm _ name]
  rw [ofCalls, hmem]
  exact or_iff_right Std.ExtTreeSet.not_mem_empty

def told (first second : Identity) (calls : List Call) : Weight :=
  addUp (calls.map (Call.weightBetween first second))

theorem told_pos {first second : Identity} (hne : first ≠ second) {calls : List Call} :
    0 < told first second calls ↔ ∃ c ∈ calls, c.Links first second := by
  simp only [Call.links_iff hne]
  constructor
  · intro hpositive
    by_contra hnone
    refine Nat.ne_of_gt hpositive (addUp_eq_zero fun n hmem => ?_)
    obtain ⟨c, hc, rfl⟩ := List.mem_map.mp hmem
    exact Nat.eq_zero_of_not_pos fun h => hnone ⟨c, hc, h⟩
  · rintro ⟨c, hc, hpositive⟩
    exact Nat.lt_of_lt_of_le hpositive (le_addUp (List.mem_map_of_mem hc))

theorem told_comm (first second : Identity) (calls : List Call) :
    told first second calls = told second first calls := by
  exact congrArg addUp (List.map_congr_left fun _ _ => Call.weightBetween_comm)

theorem pairOf_eq_iff {first second a b : Identity} (hlt : first < second) :
    a ≠ b ∧ pairOf a b = (first, second) ↔ a = first ∧ b = second ∨ a = second ∧ b = first := by
  have hne : first ≠ second := by
    rintro rfl
    exact String.lt_irrefl _ hlt
  have hpair : pairOf first second = (first, second) := if_neg (String.lt_asymm hlt)
  constructor
  · rintro ⟨hab, heq⟩
    rcases pairOf_cases hab with ⟨-, hcase⟩ | ⟨-, hcase⟩ <;>
    · rw [hcase] at heq
      cases heq
      simp
  · rintro (⟨rfl, rfl⟩ | ⟨rfl, rfl⟩)
    · exact ⟨hne, hpair⟩
    · exact ⟨hne.symm, pairOf_comm .. ▸ hpair⟩

theorem count_ofCalls {first second : Identity} (hlt : first < second) (calls : List Call) :
    (ofCalls calls).weights.count (first, second) = told first second calls := by
  have hcount (d : Draft) : (calls.foldl call d).weights.count (first, second) =
      d.weights.count (first, second) + told first second calls := by
    induction calls generalizing d with
    | nil => rfl
    | cons c rest ih =>
      have hcall : (d.call c).weights.count (first, second) =
          d.weights.count (first, second) + c.weightBetween first second := by
        cases c with
        | vertex name => rfl
        | link a b weight =>
          rw [call, count_addLink]
          simp only [pairOf_eq_iff hlt, Call.weightBetween]
      rw [List.foldl_cons, ih, hcall, Nat.add_assoc]
      rfl
  rw [ofCalls, hcount]
  exact (congrArg (· + _) (Tally.count_empty _)).trans (Nat.zero_add _)

theorem total_ofCalls (calls : List Call) :
    (ofCalls calls).weights.total = addUp (calls.map Call.worth) := by
  have hsum (d : Draft) : addUp ((calls.foldl call d).pairs.map (·.2)) =
      addUp (d.pairs.map (·.2)) + addUp (calls.map Call.worth) := by
    induction calls generalizing d with
    | nil => rfl
    | cons c rest ih =>
      have hcall : addUp ((d.call c).pairs.map (·.2)) = addUp (d.pairs.map (·.2)) + c.worth := by
        cases c with
        | vertex name => rfl
        | link first second weight =>
          unfold call addLink Call.worth
          grind [addUp_cons, addVertex]
      rw [List.foldl_cons, ih, hcall, Nat.add_assoc, List.map_cons, addUp_cons]
  rw [weights, Tally.total_ofList, ofCalls, hsum]
  exact Nat.zero_add _

/-- Calls that tell the same: the same calls in some order, each link from either of its ends. -/
def Same (calls others : List Call) : Prop :=
  ∃ turned, List.Forall₂ (fun c d => d = c ∨ d = c.flip) calls turned ∧ turned.Perm others

theorem Same.told_eq {calls others : List Call} (same : Same calls others)
    (first second : Identity) : told first second others = told first second calls := by
  obtain ⟨turned, hturned, hperm⟩ := same
  rw [told, ← addUp_perm (hperm.map _)]
  clear hperm
  induction hturned with
  | nil => rfl
  | cons hcall _ ih =>
    rw [List.map_cons, addUp_cons, ih]
    obtain rfl | rfl := hcall
    · rfl
    · rw [Call.weightBetween_flip]
      rfl

theorem Same.names_iff {calls others : List Call} (same : Same calls others) (name : Identity) :
    (∃ c ∈ others, c.Names name) ↔ ∃ c ∈ calls, c.Names name := by
  obtain ⟨turned, hturned, hperm⟩ := same
  simp only [← hperm.mem_iff]
  clear hperm
  induction hturned with
  | nil => rfl
  | cons hcall _ ih =>
    rw [List.exists_mem_cons_iff, List.exists_mem_cons_iff, ih]
    obtain rfl | rfl := hcall
    · rfl
    · rw [Call.names_flip]

theorem Sound.count_eq_zero {d : Draft} (sound : d.Sound) {first second : Identity}
    (hnot : ¬ first < second) : d.weights.count (first, second) = 0 := by
  by_contra hne
  obtain ⟨weight, hmem⟩ := exists_pair_of_weights (Nat.pos_of_ne_zero hne)
  exact hnot (sound first second weight hmem).1

theorem Same.build_eq {calls others : List Call} (same : Same calls others) :
    (ofCalls others).build = (ofCalls calls).build := by
  apply build_congr
  · intro name
    rw [mem_ofCalls, mem_ofCalls, same.names_iff]
  · rintro ⟨first, second⟩
    by_cases hlt : first < second
    · rw [count_ofCalls hlt, count_ofCalls hlt, same.told_eq]
    · rw [(made_ofCalls others).sound.count_eq_zero hlt,
        (made_ofCalls calls).sound.count_eq_zero hlt]

/-- The graph that some calls tell of: the named vertices and the edges between those that were
linked, each in its order, and the same edges whichever way they are looked up. -/
structure Canonical (calls : List Call) (g : SharingGraph) : Prop where
  vertices_ascending : g.vertices.toList.Pairwise (· < ·)
  mem_vertices : ∀ name, name ∈ g.vertices ↔ ∃ c ∈ calls, c.Names name
  indexOf?_eq_some : ∀ name position,
    g.indexOf? name = some position ↔ g.identity? position = some name
  links_ascending : g.links.Pairwise Link.Before
  ends : ∀ link ∈ g.links, link.left < link.right ∧ link.right < g.vertexCount
  mem_links : ∀ link, link ∈ g.links ↔ ∃ first second,
    g.identity? link.left = some first ∧ g.identity? link.right = some second ∧ first < second ∧
      (∃ c ∈ calls, c.Links first second) ∧ link.weight = told first second calls
  mem_neighbours : ∀ i j weight,
    (j, weight) ∈ g.neighbours i ↔ ⟨min i j, max i j, weight⟩ ∈ g.links
  mem_neighbours_comm : ∀ i j weight, (j, weight) ∈ g.neighbours i ↔ (i, weight) ∈ g.neighbours j
  neighbours_ascending : ∀ position, (g.neighbours position).Pairwise fun x y => x.1 < y.1
  edgeWeight?_eq_some : ∀ first second weight, g.edgeWeight? first second = some weight ↔
    (∃ c ∈ calls, c.Links first second) ∧ weight = told first second calls
  edgeWeight?_comm : ∀ first second, g.edgeWeight? first second = g.edgeWeight? second first
  totalWeight_eq : g.totalWeight = addUp (g.links.map (·.weight))
  totalWeight_told : g.totalWeight = addUp (calls.map Call.worth)
  addUp_weightedDegrees :
    addUp ((List.range g.vertexCount).map g.weightedDegree) = 2 * g.totalWeight

section Canonical

variable {calls : List Call} {g : SharingGraph} (hbuild : (ofCalls calls).build = .ok g)

include hbuild

theorem mem_vertices_ofCalls (name : Identity) :
    name ∈ g.vertices ↔ ∃ c ∈ calls, c.Names name := by
  rw [(build_eq_ok.mp hbuild).2.1, List.mem_toArray, mem_names, mem_ofCalls]

theorem mem_links_ofCalls (link : Link) : link ∈ g.links ↔ ∃ first second,
    g.identity? link.left = some first ∧ g.identity? link.right = some second ∧ first < second ∧
      (∃ c ∈ calls, c.Links first second) ∧ link.weight = told first second calls := by
  have sound := (made_ofCalls calls).sound
  have hidentity (position : Nat) : g.identity? position = (ofCalls calls).names[position]? := by
    rw [identity?, (build_eq_ok.mp hbuild).2.1, List.getElem?_toArray]
  simp only [sound.mem_links hbuild, hidentity]
  refine exists_congr fun first => exists_congr fun second => and_congr_right fun _ =>
    and_congr_right fun _ => ?_
  constructor
  · rintro ⟨hcount, hpositive⟩
    have hlt : first < second := by
      by_contra hnot
      exact Nat.ne_of_gt hpositive (hcount ▸ sound.count_eq_zero hnot)
    rw [count_ofCalls hlt] at hcount
    exact ⟨hlt, (told_pos (Std.ne_of_lt hlt)).mp (hcount ▸ hpositive), hcount.symm⟩
  · rintro ⟨hlt, hlinked, hweight⟩
    rw [count_ofCalls hlt, hweight]
    exact ⟨rfl, (told_pos (Std.ne_of_lt hlt)).mpr hlinked⟩

theorem edgeWeight?_of_lt {first second : Identity} (hlt : first < second) (weight : Weight) :
    g.edgeWeight? first second = some weight ↔
      (∃ c ∈ calls, c.Links first second) ∧ weight = told first second calls := by
  have built : g.Built := ⟨_, made_ofCalls calls, hbuild⟩
  simp only [built.edgeWeight?_eq_some, built.simple.mem_neighbours, mem_links_ofCalls hbuild]
  constructor
  · rintro ⟨i, j, hi, hj, a, b, ha, hb, -, hlinked, hweight⟩
    have hij := built.position_lt hlt hi hj
    rw [Nat.min_eq_left (Nat.le_of_lt hij), hi] at ha
    rw [Nat.max_eq_right (Nat.le_of_lt hij), hj] at hb
    cases ha
    cases hb
    exact ⟨hlinked, hweight⟩
  · rintro ⟨hlinked, hweight⟩
    have hnamed : ∀ name, name = first ∨ name = second → ∃ i, g.identity? i = some name := by
      intro name hname
      obtain ⟨c, hc, hboth⟩ := hlinked
      refine Array.mem_iff_getElem?.mp ((mem_vertices_ofCalls hbuild name).mpr ⟨c, hc, ?_⟩)
      exact hboth.names hname
    obtain ⟨i, hi⟩ := hnamed first (.inl rfl)
    obtain ⟨j, hj⟩ := hnamed second (.inr rfl)
    have hij := built.position_lt hlt hi hj
    refine ⟨i, j, hi, hj, first, second, ?_, ?_, hlt, hlinked, hweight⟩
    · rwa [Nat.min_eq_left (Nat.le_of_lt hij)]
    · rwa [Nat.max_eq_right (Nat.le_of_lt hij)]

theorem edgeWeight?_ofCalls (first second : Identity) (weight : Weight) :
    g.edgeWeight? first second = some weight ↔
      (∃ c ∈ calls, c.Links first second) ∧ weight = told first second calls := by
  have built : g.Built := ⟨_, made_ofCalls calls, hbuild⟩
  rcases Std.lt_trichotomy first second with hlt | rfl | hlt
  · exact edgeWeight?_of_lt hbuild hlt weight
  · -- no name is linked to itself
    constructor
    · rw [built.edgeWeight?_eq_some]
      rintro ⟨i, j, hi, hj, hmem⟩
      obtain rfl := built.position_unique hi hj
      exact absurd (built.simple.ordered _ (built.simple.mem_neighbours.mp hmem)) (by simp)
    · rintro ⟨⟨c, -, hlinked⟩, -⟩
      exact absurd rfl hlinked.ne
  · rw [built.edgeWeight?_comm, edgeWeight?_of_lt hbuild hlt, told_comm]
    simp only [Call.links_comm]

theorem canonical_ofCalls : Canonical calls g :=
  have built : g.Built := ⟨_, made_ofCalls calls, hbuild⟩
  { vertices_ascending := built.ascending
    mem_vertices := mem_vertices_ofCalls hbuild
    indexOf?_eq_some := fun _ _ => indexOf?_eq_some built.nodup_vertices
    links_ascending := built.links_ascending
    ends := fun link hmem => ⟨built.simple.ordered link hmem, built.simple.inside link hmem⟩
    mem_links := mem_links_ofCalls hbuild
    mem_neighbours := fun _ _ _ => built.simple.mem_neighbours
    mem_neighbours_comm := fun _ _ _ => built.simple.mem_neighbours_comm
    neighbours_ascending := built.simple.neighbours_ascending built.links_ascending
    edgeWeight?_eq_some := edgeWeight?_ofCalls hbuild
    edgeWeight?_comm := built.edgeWeight?_comm
    totalWeight_eq := rfl
    totalWeight_told := by
      rw [graph_of_build hbuild, totalWeight_graph, total_ofCalls]
    addUp_weightedDegrees := addUp_neighbours built.simple id }

end Canonical

/-- However a draft is told what it is told, the graph of it is the canonical one, unless the whole
weight does not fit in a word. -/
theorem canonical_graph (calls : List Call) :
    (addUp (calls.map Call.worth) < wordBound →
      ∃ g, (ofCalls calls).build = .ok g ∧ Canonical calls g) ∧
    (wordBound ≤ addUp (calls.map Call.worth) → (ofCalls calls).build = .error .sum) ∧
    ∀ others, Same calls others → (ofCalls others).build = (ofCalls calls).build := by
  have hbuild := build_eq (ofCalls calls)
  rw [total_ofCalls] at hbuild
  refine ⟨fun hfits => ?_, fun hexceeds => ?_, fun _ same => same.build_eq⟩
  · rw [if_pos hfits] at hbuild
    exact ⟨_, hbuild, canonical_ofCalls hbuild⟩
  · rw [hbuild, if_neg (Nat.not_lt.mpr hexceeds)]

theorem canonical_graph_both_directions : ∃ g,
    (ofCalls [.link "b" "a" 3, .vertex "z", .link "a" "b" 2, .link "a" "a" 9]).build = .ok g ∧
      g.edgeWeight? "a" "b" = some 5 ∧ g.totalWeight = 5 ∧
      (ofCalls [.link "a" "a" 9, .link "b" "a" 2, .link "a" "b" 3, .vertex "z"]).build = .ok g := by
  obtain ⟨hfits, -, hsame⟩ :=
    canonical_graph [.link "b" "a" 3, .vertex "z", .link "a" "b" 2, .link "a" "a" 9]
  obtain ⟨g, hbuild, hcanonical⟩ := hfits (by decide)
  refine ⟨g, hbuild, ?_, ?_, ?_⟩
  · rw [hcanonical.edgeWeight?_eq_some]
    exact ⟨⟨.link "a" "b" 2, by simp, by simp [Call.Links]⟩, by decide⟩
  · rw [hcanonical.totalWeight_told]
    decide
  · rw [hsame, hbuild]
    refine ⟨[.link "a" "b" 3, .vertex "z", .link "b" "a" 2, .link "a" "a" 9], ?_, ?_⟩
    · simp [Call.flip]
    · decide

end Draft

end SharingGraph

end Cohort
