import Cohort.Proofs.Scaling
import Cohort.Proofs.Words

/-! Sums over the edges of a graph of shared use. A vertex sees every edge at most once, so weights
at a vertex and votes on it stay below the total weight, which is known to fit in a word. The sums
of modularity take every edge at most twice, so they fit when twice the total does. -/

namespace Cohort

open Cohort.Random (Source)

theorem Tally.share_le_addUp {κ : Type} [Ord κ] (key : κ) (entries : List (κ × Nat)) :
    share key entries ≤ addUp (entries.map (·.2)) := by
  refine addUp_map_le fun entry _ => ?_
  split
  next => exact Nat.le_refl _
  next => exact Nat.zero_le _

namespace SharingGraph

variable {g : SharingGraph}

def weightedDegreeInWord (g : SharingGraph) (position : Nat) : Except Overflow Weight :=
  addWords ((g.neighbours position).map (·.2))

def ballotInWords (g : SharingGraph) (labels : Labels) (position : Nat) :
    Except Overflow (Tally Label) :=
  Tally.ofWords (g.votes labels position)

def visitInWords (g : SharingGraph) (sweep : Sweep) (position : Nat) : Except Overflow Sweep :=
  match sweep.labels[position]? with
  | none => .ok sweep
  | some current => do
    let ballot ← g.ballotInWords sweep.labels position
    let leaders := ballot.leaders
    if current ∈ leaders then return sweep
    else
      match sweep.source.choose leaders with
      | (none, _) => return sweep
      | (some label, source) =>
        return { labels := sweep.labels.setIfInBounds position label
                 source
                 changes := sweep.changes + 1 }

def passInWords (g : SharingGraph) (order : List Nat) (labels : Labels) (source : Source) :
    Except Overflow Sweep :=
  order.foldlM g.visitInWords ⟨labels, source, 0⟩

def incidentInWords (g : SharingGraph) (count : Nat) (walk : List (Nat × Nat)) :
    Except Overflow (Array Weight) :=
  walk.foldlM (fun sums (position, group) => do
    let degree ← g.weightedDegreeInWord position
    bump sums (group, degree)) (Array.replicate count 0)

theorem weightedDegree_le (g : SharingGraph) (position : Nat) :
    g.weightedDegree position ≤ g.totalWeight := by
  rw [weightedDegree, neighbours_eq]
  split
  next =>
    exact addUp_filterMap_le
      (fun _ _ hseen => Nat.le_of_eq (Link.seenFrom_eq_some.mp hseen).1.symm) g.links
  next => exact Nat.zero_le _

theorem count_ballot_le (g : SharingGraph) (labels : Labels) (position : Nat) (label : Label) :
    (g.ballot labels position).count label ≤ g.weightedDegree position := by
  rw [ballot, Tally.count_ofList]
  refine Nat.le_trans (Tally.share_le_addUp label _) (addUp_filterMap_le ?_ (g.neighbours position))
  rintro seen _ hvote
  obtain ⟨_, -, rfl⟩ := Option.map_eq_some_iff.mp hvote
  exact Nat.le_refl _

theorem changes_visit_le (g : SharingGraph) (sweep : Sweep) (position : Nat) :
    (g.visit sweep position).changes ≤ sweep.changes + 1 := by
  rcases g.visit_cases sweep position with ⟨hsame, -⟩ | ⟨_, _, _, -, -, -, hchanged⟩
  · rw [hsame]
    exact Nat.le_succ _
  · rw [hchanged]

theorem changes_pass_le (g : SharingGraph) (order : List Nat) (labels : Labels) (source : Source) :
    (g.pass order labels source).changes ≤ order.length := by
  have hloop (sweep : Sweep) :
      (order.foldl g.visit sweep).changes ≤ sweep.changes + order.length := by
    induction order generalizing sweep with
    | nil => exact Nat.le_refl _
    | cons position rest ih =>
      have hvisit := g.changes_visit_le sweep position
      have hrest := ih (g.visit sweep position)
      rw [List.foldl_cons, List.length_cons]
      omega
  exact (hloop ⟨labels, source, 0⟩).trans_eq (Nat.zero_add _)

section Built

variable (built : g.Built)

include built

theorem Built.weightedDegreeInWord_eq (position : Nat) :
    g.weightedDegreeInWord position = .ok (g.weightedDegree position) := by
  rw [weightedDegreeInWord, addWords_eq]
  exact if_pos (Nat.lt_of_le_of_lt (g.weightedDegree_le position) built.totalWeight_lt)

theorem Built.ballotInWords_eq (labels : Labels) (position : Nat) :
    g.ballotInWords labels position = .ok (g.ballot labels position) := by
  rw [ballotInWords, Tally.ofWords_eq, ← ballot, if_pos]
  refine Tally.inWords_iff.mpr fun label => ?_
  calc (g.ballot labels position).count label
      ≤ g.weightedDegree position := g.count_ballot_le labels position label
    _ ≤ g.totalWeight := g.weightedDegree_le position
    _ < wordBound := built.totalWeight_lt

theorem Built.visitInWords_eq (sweep : Sweep) (position : Nat) :
    g.visitInWords sweep position = .ok (g.visit sweep position) := by
  unfold visitInWords visit
  cases sweep.labels[position]? with
  | none => rfl
  | some current =>
    dsimp only
    rw [built.ballotInWords_eq]
    change (if current ∈ (g.ballot sweep.labels position).leaders then _ else _) = _
    split
    next => rfl
    next =>
      rcases sweep.source.choose (g.ballot sweep.labels position).leaders with ⟨label, source⟩
      cases label <;> rfl

theorem Built.passInWords_eq (order : List Nat) (labels : Labels) (source : Source) :
    g.passInWords order labels source = .ok (g.pass order labels source) := by
  have hvisit : g.visitInWords = fun sweep position => pure (g.visit sweep position) :=
    funext₂ built.visitInWords_eq
  rw [passInWords, hvisit, List.foldlM_pure]
  rfl

theorem Built.incidentInWords_eq (count : Nat) (walk : List (Nat × Nat)) :
    g.incidentInWords count walk = g.incidentAlong count walk := by
  simp only [incidentInWords, built.weightedDegreeInWord_eq]
  rfl

end Built

end SharingGraph

/-- On a graph that was made the sums of a pass fit in a word, and those of modularity do when twice
the total weight fits. -/
theorem sums_fit {g : SharingGraph} (built : g.Built) :
    (∀ position, g.weightedDegreeInWord position = .ok (g.weightedDegree position) ∧
      g.weightedDegree position ≤ g.totalWeight) ∧
    (∀ labels position, g.ballotInWords labels position = .ok (g.ballot labels position) ∧
      ∀ label, (g.ballot labels position).count label ≤ g.weightedDegree position) ∧
    (∀ order labels source,
      g.passInWords order labels source = .ok (g.pass order labels source) ∧
        (g.pass order labels source).changes ≤ order.length) ∧
    (2 * g.totalWeight < wordBound →
      (∀ link ∈ g.links, inWord .product (2 * link.weight) = .ok (2 * link.weight)) ∧
      ∀ groups, g.internalSums groups = .ok ((Array.range groups.length).map (g.inside groups)) ∧
        (∀ walk, walk.Perm (g.memberships groups) → g.incidentInWords groups.length walk =
          .ok ((Array.range groups.length).map (g.around groups))) ∧
        ∃ score, g.modularity groups = .ok score) := by
  refine ⟨fun position => ⟨built.weightedDegreeInWord_eq position, g.weightedDegree_le position⟩,
    fun labels position => ⟨built.ballotInWords_eq labels position,
      g.count_ballot_le labels position⟩,
    fun order labels source => ⟨built.passInWords_eq order labels source,
      g.changes_pass_le order labels source⟩,
    fun hfits => ⟨fun _ hlink => if_pos (SharingGraph.two_weight_lt hfits hlink), fun groups =>
      ⟨SharingGraph.internalSums_eq built.simple hfits groups, fun walk hwalk => ?_,
        built.simple.exists_modularity hfits groups⟩⟩⟩
  rw [built.incidentInWords_eq]
  exact SharingGraph.incidentAlong_eq built.simple hfits hwalk

theorem sums_fit_path :
    let g : SharingGraph := { vertices := #["a", "b", "c"], links := [⟨0, 1, 2⟩, ⟨1, 2, 1⟩] }
    let groups : List Group := [.ofList 5 ["a", "b"], .ofList 5 ["b", "c", "c", "z"]]
    g.weightedDegreeInWord 1 = .ok 3 ∧
      (∀ source, ∃ sweep, g.passInWords [1, 7, 1] #[4, 6] source = .ok sweep ∧
        sweep.changes ≤ 3) ∧
      g.incidentInWords 2 [(1, 1), (0, 0), (2, 1)] = .ok #[2, 4] ∧
      ∃ score, g.modularity groups = .ok score := by
  intro g groups
  have hbuilt : g.Built := ⟨_, .link (.link .empty "a" "b" 2) "b" "c" 1, rfl⟩
  obtain ⟨hdegree, -, hpass, hfits⟩ := sums_fit hbuilt
  obtain ⟨-, hsums⟩ := hfits (by decide)
  obtain ⟨-, hincident, hscore⟩ := hsums groups
  refine ⟨(hdegree 1).1, fun source => ⟨_, hpass [1, 7, 1] #[4, 6] source⟩, ?_, hscore⟩
  exact (hincident _ (by decide +kernel)).trans (congrArg _ (by decide +kernel))

end Cohort
