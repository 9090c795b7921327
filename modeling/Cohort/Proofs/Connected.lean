import Cohort.Proofs.Propagation
import Mathlib.Logic.Relation

/-! Connected vertices. A label is taken from a neighbour, so whatever the order, the draws and the
number of passes are, every vertex ends with a label that a vertex connected to it had at the
start. -/

namespace Cohort

open Cohort.Random (Source)

theorem Link.seenFrom_eq_some {link : Link} {position other : Nat} {weight : Weight} :
    link.seenFrom position = some (other, weight) ↔ link.weight = weight ∧
      (link.left = position ∧ link.right = other ∨ link.left = other ∧ link.right = position) := by
  unfold seenFrom
  by_cases hleft : link.left = position
  · rw [if_pos hleft, Option.some_inj, Prod.mk.injEq]
    grind
  · by_cases hright : link.right = position
    · rw [if_neg hleft, if_pos hright, Option.some_inj, Prod.mk.injEq]
      grind
    · simp [hleft, hright]

namespace SharingGraph

variable {g : SharingGraph}

def Joined (g : SharingGraph) (i j : Nat) : Prop :=
  ∃ link ∈ g.links, link.left = i ∧ link.right = j ∨ link.left = j ∧ link.right = i

def Connected (g : SharingGraph) : Nat → Nat → Prop :=
  Relation.ReflTransGen g.Joined

instance (g : SharingGraph) : Std.Symm g.Joined where
  symm _ _ h := by
    obtain ⟨link, hmem, hends⟩ := h
    exact ⟨link, hmem, hends.symm⟩

theorem Connected.symm {i j : Nat} (h : g.Connected i j) : g.Connected j i :=
  Relation.ReflTransGen.stdSymm.symm _ _ h

theorem mem_neighbours {position other : Nat} {weight : Weight} :
    (other, weight) ∈ g.neighbours position ↔ position < g.vertexCount ∧
      ∃ link ∈ g.links, link.seenFrom position = some (other, weight) := by
  rw [neighbours_eq]
  split
  next h => simp [rowOf, h]
  next h => simp [h]

theorem Built.neighbour (built : g.Built) {position : Nat} {seen : Nat × Weight}
    (hmem : seen ∈ g.neighbours position) : seen.1 < g.vertexCount ∧ 0 < seen.2 := by
  obtain ⟨other, weight⟩ := seen
  obtain ⟨-, link, hlink, hseen⟩ := mem_neighbours.mp hmem
  have hlt := built.simple.ordered link hlink
  have hinside := built.simple.inside link hlink
  have hpositive := built.positive link hlink
  obtain ⟨rfl, ⟨-, rfl⟩ | ⟨rfl, -⟩⟩ := Link.seenFrom_eq_some.mp hseen
  · exact ⟨hinside, hpositive⟩
  · exact ⟨Nat.lt_trans hlt hinside, hpositive⟩

theorem joined_of_neighbour {position other : Nat} {weight : Weight}
    (h : (other, weight) ∈ g.neighbours position) : g.Joined position other := by
  obtain ⟨-, link, hmem, hseen⟩ := mem_neighbours.mp h
  exact ⟨link, hmem, (Link.seenFrom_eq_some.mp hseen).2⟩

theorem exists_neighbour {labels : Labels} {position : Nat} {label : Label}
    (h : 0 < (g.ballot labels position).count label) :
    ∃ other weight, (other, weight) ∈ g.neighbours position ∧ labels[other]? = some label := by
  rw [ballot, Tally.count_ofList] at h
  obtain ⟨⟨_, weight⟩, hvote, rfl⟩ := List.mem_map.mp (Tally.mem_keys_of_share_pos h)
  obtain ⟨⟨other, _⟩, hneighbour, hlabel⟩ := List.mem_filterMap.mp hvote
  obtain ⟨found, hfound, heq⟩ := Option.map_eq_some_iff.mp hlabel
  cases heq
  exact ⟨other, weight, hneighbour, hfound⟩

/-- Every label was the label of a connected vertex at the start. -/
def Spread (g : SharingGraph) (start labels : Labels) : Prop :=
  ∀ position label, labels[position]? = some label →
    ∃ origin, g.Connected position origin ∧ start[origin]? = some label

variable {start : Labels}

theorem spread_refl (g : SharingGraph) (start : Labels) : g.Spread start start :=
  fun position _ h => ⟨position, .refl, h⟩

theorem Spread.visit {sweep : Sweep} (spread : g.Spread start sweep.labels) (position : Nat) :
    g.Spread start (g.visit sweep position).labels := by
  rcases g.visit_cases sweep position with ⟨hsame, -⟩ | ⟨_, label, _, -, -, hleader, hchanged⟩
  · rwa [hsame]
  · obtain ⟨other, weight, hneighbour, hlabel⟩ :=
      exists_neighbour (Tally.mem_leaders.mp hleader).1
    obtain ⟨origin, hconnected, horigin⟩ := spread other label hlabel
    rw [hchanged]
    intro place found hfound
    rw [Array.getElem?_setIfInBounds] at hfound
    split at hfound
    next heq =>
      subst heq
      split at hfound
      next =>
        cases hfound
        exact ⟨origin, .head (joined_of_neighbour hneighbour) hconnected, horigin⟩
      next => cases hfound
    next => exact spread place found hfound

theorem Spread.pass {labels : Labels} (spread : g.Spread start labels) (order : List Nat)
    (source : Source) : g.Spread start (g.pass order labels source).labels := by
  have hfold (sweep : Sweep) (hsweep : g.Spread start sweep.labels) :
      g.Spread start (order.foldl g.visit sweep).labels := by
    induction order generalizing sweep with
    | nil => exact hsweep
    | cons position rest ih => exact ih _ (hsweep.visit position)
  exact hfold _ spread

theorem Spread.upTo {run : Run} (spread : g.Spread start run.labels) (passes : Nat) :
    g.Spread start (run.upTo g passes).labels := by
  induction passes generalizing run with
  | zero => exact spread
  | succ passes ih =>
    unfold Run.upTo
    split
    next => exact spread
    next => exact ih (spread.pass _ _)

theorem Connected.class_eq {κ : Type} {classOf : Nat → κ}
    (hdivided : ∀ link ∈ g.links, classOf link.left = classOf link.right) {i j : Nat}
    (h : g.Connected i j) : classOf i = classOf j := by
  induction h with
  | refl => rfl
  | tail _ hjoined ih =>
    obtain ⟨link, hmem, ⟨rfl, rfl⟩ | ⟨rfl, rfl⟩⟩ := hjoined
    · exact ih.trans (hdivided link hmem)
    · exact ih.trans (hdivided link hmem).symm

end SharingGraph

theorem Method.spread_run (m : Method) (unseeded : Source) (g : SharingGraph) (labels : Labels) :
    g.Spread labels (m.run unseeded g labels).labels :=
  SharingGraph.Spread.upTo (g.spread_refl labels) m.cap

end Cohort
