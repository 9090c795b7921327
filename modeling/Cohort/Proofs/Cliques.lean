import Cohort.Proofs.Connected
import Mathlib.Data.List.Nodup
import Mathlib.Data.List.Perm.Subperm

/-! Graphs that fall into classes. Labels do not leave a class whose vertices have no edges to
others, and where any two vertices of a class are joined by the same weight, passes end with one
label for the whole class. -/

namespace Cohort

open Cohort.Random (Source)

variable {κ : Type}

namespace SharingGraph

variable {g : SharingGraph} {classOf : Nat → κ}

def Keeps (classOf : Nat → κ) (labels : Labels) : Prop :=
  ∀ position label, labels[position]? = some label → classOf label = classOf position

/-- Where edges join vertices of one class only, labels that start in their class stay in it. -/
theorem keeps_upTo (hdivided : ∀ link ∈ g.links, classOf link.left = classOf link.right)
    {run : Run} (h : Keeps classOf run.labels) (passes : Nat) :
    Keeps classOf (run.upTo g passes).labels := by
  intro position label hlabel
  obtain ⟨origin, hconnected, horigin⟩ :=
    Spread.upTo (g.spread_refl run.labels) passes position label hlabel
  rw [h origin label horigin, hconnected.class_eq hdivided]

theorem changes_le_visit (g : SharingGraph) (sweep : Sweep) (position : Nat) :
    sweep.changes ≤ (g.visit sweep position).changes := by
  rcases g.visit_cases sweep position with ⟨hsame, -⟩ | ⟨_, _, _, -, -, -, hchanged⟩
  · exact Nat.le_of_eq (by rw [hsame])
  · rw [hchanged]
    exact Nat.le_succ _

theorem changes_le_foldl_visit (g : SharingGraph) (order : List Nat) (sweep : Sweep) :
    sweep.changes ≤ (order.foldl g.visit sweep).changes := by
  induction order generalizing sweep with
  | nil => exact Nat.le_refl _
  | cons position rest ih => exact Nat.le_trans (g.changes_le_visit sweep position) (ih _)

theorem settled_foldl_visit {order : List Nat} {sweep : Sweep}
    (h : (order.foldl g.visit sweep).changes ≤ sweep.changes) :
    order.foldl g.visit sweep = sweep ∧
      ∀ position ∈ order, g.Settled sweep.labels position := by
  induction order with
  | nil => exact ⟨rfl, by simp⟩
  | cons position rest ih =>
    rw [List.foldl_cons] at h ⊢
    rcases g.visit_cases sweep position with ⟨hsame, hsettled⟩ | ⟨_, _, _, -, -, -, hchanged⟩
    · rw [hsame] at h ⊢
      obtain ⟨hrest, hothers⟩ := ih h
      exact ⟨hrest, List.forall_mem_cons.mpr ⟨hsettled, hothers⟩⟩
    · -- later visits do not take the change back
      have hmore := g.changes_le_foldl_visit rest (g.visit sweep position)
      rw [hchanged] at hmore h
      exact absurd (Nat.le_trans hmore h) (Nat.not_succ_le_self _)

end SharingGraph

namespace Run

variable {g : SharingGraph}

theorem order_step_perm {run : Run} (h : run.order.Perm (Array.range run.labels.size)) :
    (run.step g).order.Perm (Array.range (run.step g).labels.size) := by
  rw [labels_step, size_sweep]
  unfold step
  by_cases hfirst : run.outcome.iterations = 0
  · simpa [hfirst] using h
  · simpa [hfirst] using (Source.shuffle_perm run.source run.order).trans h

theorem sweep_eq (run : Run) : ∃ source,
    run.sweep g = g.pass (run.step g).order.toList run.labels source := by
  unfold sweep step
  by_cases hfirst : run.outcome.iterations = 0
  · exact ⟨run.source, by simp [hfirst]⟩
  · exact ⟨(run.source.shuffle run.order).2, by simp [hfirst]⟩

theorem settled_step {run : Run} (horder : run.order.Perm (Array.range run.labels.size))
    (h : (run.step g).outcome.converged = true) {position : Nat}
    (hinside : position < run.labels.size) : g.Settled (run.step g).labels position := by
  obtain ⟨source, hsweep⟩ := run.sweep_eq (g := g)
  rw [converged_step, beq_iff_eq, hsweep] at h
  obtain ⟨hsame, hsettled⟩ := SharingGraph.settled_foldl_visit (Nat.le_of_eq h)
  have hperm := order_step_perm (g := g) horder
  rw [labels_step, size_sweep] at hperm
  have hmem : position ∈ (run.step g).order.toList := by
    rw [Array.mem_toList_iff, hperm.mem_iff, Array.mem_range]
    exact hinside
  rw [labels_step, hsweep, SharingGraph.pass, hsame]
  exact hsettled position hmem

theorem settled_upTo {run : Run} (hstart : run.outcome.converged = false)
    (horder : run.order.Perm (Array.range run.labels.size)) (passes : Nat)
    (h : (run.upTo g passes).outcome.converged = true) {position : Nat}
    (hinside : position < run.labels.size) : g.Settled (run.upTo g passes).labels position := by
  induction passes generalizing run with
  | zero => simp [upTo, hstart] at h
  | succ passes ih =>
    rw [upTo_succ hstart] at h ⊢
    cases hstep : (run.step g).outcome.converged with
    | true =>
      rw [upTo_of_converged hstep]
      exact settled_step horder hstep hinside
    | false =>
      refine ih hstep (order_step_perm horder) h ?_
      rwa [labels_step, size_sweep]

end Run

/-- Any two vertices of a class are joined, by the same weight, and no others are. -/
structure SharingGraph.Cliques (g : SharingGraph) (classOf : Nat → κ) (weight : Weight) : Prop where
  nodup : g.links.Nodup
  mem_links : ∀ link, link ∈ g.links ↔ link.left < link.right ∧ link.right < g.vertexCount ∧
    classOf link.left = classOf link.right ∧ link.weight = weight

namespace SharingGraph

variable {g : SharingGraph} {classOf : Nat → κ} [DecidableEq κ] {weight : Weight}

def fellows (g : SharingGraph) (classOf : Nat → κ) (position : Nat) : List Nat :=
  (List.range g.vertexCount).filter fun other =>
    decide (other ≠ position ∧ classOf other = classOf position)

theorem mem_fellows {position other : Nat} : other ∈ g.fellows classOf position ↔
    other < g.vertexCount ∧ other ≠ position ∧ classOf other = classOf position := by
  simp [fellows]

theorem nodup_fellows (position : Nat) : (g.fellows classOf position).Nodup :=
  List.nodup_range.filter _

namespace Cliques

variable (cliques : g.Cliques classOf weight)

include cliques

theorem mem_neighbours {position other : Nat} {w : Weight} (h : position < g.vertexCount) :
    (other, w) ∈ g.neighbours position ↔ other ∈ g.fellows classOf position ∧ w = weight := by
  rw [SharingGraph.mem_neighbours, mem_fellows]
  constructor
  · rintro ⟨-, link, hmem, hseen⟩
    obtain ⟨hlt, hinside, hclass, hweight⟩ := (cliques.mem_links link).mp hmem
    obtain ⟨rfl, ⟨rfl, rfl⟩ | ⟨rfl, rfl⟩⟩ := Link.seenFrom_eq_some.mp hseen
    · exact ⟨⟨hinside, Nat.ne_of_gt hlt, hclass.symm⟩, hweight⟩
    · exact ⟨⟨Nat.lt_trans hlt hinside, Nat.ne_of_lt hlt, hclass⟩, hweight⟩
  · rintro ⟨⟨hinside, hne, hclass⟩, rfl⟩
    refine ⟨h, ?_⟩
    rcases Nat.lt_or_gt_of_ne hne with hlt | hlt
    · exact ⟨⟨other, position, w⟩, (cliques.mem_links _).mpr ⟨hlt, h, hclass, rfl⟩,
        Link.seenFrom_eq_some.mpr ⟨rfl, .inr ⟨rfl, rfl⟩⟩⟩
    · exact ⟨⟨position, other, w⟩, (cliques.mem_links _).mpr ⟨hlt, hinside, hclass.symm, rfl⟩,
        Link.seenFrom_eq_some.mpr ⟨rfl, .inl ⟨rfl, rfl⟩⟩⟩

theorem neighbours_perm {position : Nat} (h : position < g.vertexCount) :
    (g.neighbours position).Perm ((g.fellows classOf position).map (·, weight)) := by
  have hnodup : (g.neighbours position).Nodup := by
    rw [neighbours_eq, if_pos h, rowOf, List.Nodup, List.pairwise_filterMap]
    refine cliques.nodup.imp_of_mem ?_
    intro link link' hmem hmem' hne seen hseen seen' hseen' heq
    obtain ⟨hlt, -, -, hweight⟩ := (cliques.mem_links link).mp hmem
    obtain ⟨hlt', -, -, hweight'⟩ := (cliques.mem_links link').mp hmem'
    apply hne
    obtain ⟨left, right, w⟩ := link
    obtain ⟨left', right', w'⟩ := link'
    subst heq
    dsimp only at hlt hlt' hweight hweight'
    grind [Link.seenFrom]
  have hfellows : ((g.fellows classOf position).map (·, weight)).Nodup :=
    List.Nodup.map (fun _ _ h => congrArg Prod.fst h) (nodup_fellows position)
  rw [List.perm_ext_iff_of_nodup hnodup hfellows]
  rintro ⟨other, w⟩
  rw [cliques.mem_neighbours h]
  simp [@eq_comm _ w, and_comm]

theorem count_ballot {position : Nat} (h : position < g.vertexCount) (labels : Labels)
    (label : Label) : (g.ballot labels position).count label =
      weight * (g.fellows classOf position).countP fun other => labels[other]? == some label := by
  rw [ballot, Tally.count_ofList, votes,
    Tally.share_perm ((cliques.neighbours_perm h).filterMap _), List.filterMap_map]
  change Tally.share label (List.filterMap (fun other => labels[other]?.map (·, weight)) _) = _
  induction g.fellows classOf position with
  | nil => rfl
  | cons other rest ih =>
    rw [List.countP_cons]
    cases hlabel : labels[other]? with
    | none => simpa [List.filterMap_cons, hlabel] using ih
    | some found =>
      by_cases heq : found = label
      · simp [hlabel, ih, heq, Nat.mul_add, Nat.add_comm]
      · simp [hlabel, ih, heq]

end Cliques

theorem countP_fellows_lt {labels : Labels} {first second : Nat} {label : Label}
    (hinside : first < g.vertexCount) (hclass : classOf first = classOf second)
    (hfirst : labels[first]? = some label) (hsecond : labels[second]? ≠ some label) :
    (g.fellows classOf first).countP (fun other => labels[other]? == some label) <
      (g.fellows classOf second).countP (fun other => labels[other]? == some label) := by
  rw [List.countP_eq_length_filter, List.countP_eq_length_filter]
  have hnodup : (first :: (g.fellows classOf first).filter
      (fun other => labels[other]? == some label)).Nodup := by
    refine List.nodup_cons.mpr ⟨?_, (nodup_fellows first).filter _⟩
    simp [mem_fellows]
  refine (List.subperm_of_subset hnodup ?_).length_le
  intro other hmem
  simp only [List.mem_cons, List.mem_filter, mem_fellows, beq_iff_eq] at hmem ⊢
  rcases hmem with rfl | ⟨⟨hother, -, hsame⟩, hlabel⟩
  · exact ⟨⟨hinside, fun heq => hsecond (heq ▸ hfirst), hclass⟩, hfirst⟩
  · exact ⟨⟨hother, fun heq => hsecond (heq ▸ hlabel), hsame.trans hclass⟩, hlabel⟩

/-- Settled vertices of one class have the same label. -/
theorem Cliques.label_unique (cliques : g.Cliques classOf weight) (hpositive : 0 < weight)
    {labels : Labels} {first second : Nat} {label label' : Label}
    (hfirst : first < g.vertexCount) (hsecond : second < g.vertexCount)
    (hclass : classOf first = classOf second) (hlabel : labels[first]? = some label)
    (hlabel' : labels[second]? = some label') (hsettled : g.Settled labels first)
    (hsettled' : g.Settled labels second) : label = label' := by
  -- each of two unequal labels has one vertex more around the vertex that does not carry it
  by_contra hne
  have hless := countP_fellows_lt (g := g) hfirst hclass hlabel
    (fun heq => hne (Option.some.inj (heq.symm.trans hlabel')))
  have hless' := countP_fellows_lt (g := g) hsecond hclass.symm hlabel'
    (fun heq => hne (Option.some.inj (hlabel.symm.trans heq)))
  have hmost := hsettled label hlabel label'
  have hmost' := hsettled' label' hlabel' label
  rw [cliques.count_ballot hfirst, cliques.count_ballot hfirst] at hmost
  rw [cliques.count_ballot hsecond, cliques.count_ballot hsecond] at hmost'
  have hcount := Nat.le_of_mul_le_mul_left hmost hpositive
  have hcount' := Nat.le_of_mul_le_mul_left hmost' hpositive
  omega

theorem addUp_ends (simple : g.Simple) (amount : Nat → Weight → Nat) :
    addUp ((List.range g.vertexCount).map fun position =>
        addUp ((g.neighbours position).map fun seen => amount position seen.2)) =
      addUp (g.links.map fun link =>
        amount link.left link.weight + amount link.right link.weight) := by
  have hrows : (List.range g.vertexCount).map (fun position =>
        addUp ((g.neighbours position).map fun seen => amount position seen.2)) =
      (List.range g.vertexCount).map fun position =>
        addUp ((rowOf g.links position).map fun seen => amount position seen.2) := by
    apply List.map_congr_left
    intro position hmem
    rw [neighbours_eq, if_pos (List.mem_range.mp hmem)]
  have hends : ∀ link ∈ g.links, link.left ≠ link.right ∧ link.left < g.vertexCount ∧
      link.right < g.vertexCount := by
    intro link hmem
    have hlt := simple.ordered link hmem
    have hinside := simple.inside link hmem
    exact ⟨Nat.ne_of_lt hlt, Nat.lt_trans hlt hinside, hinside⟩
  rw [hrows]
  generalize g.links = links at hends
  induction links with
  | nil => exact addUp_eq_zero (by simp [rowOf])
  | cons link rest ih =>
    obtain ⟨⟨hloop, hleft, hright⟩, hrest⟩ := List.forall_mem_cons.mp hends
    have hrow (position : Nat) :
        addUp ((rowOf (link :: rest) position).map fun seen => amount position seen.2) =
          (if position = link.left then amount link.left link.weight else 0) +
            (if position = link.right then amount link.right link.weight else 0) +
              addUp ((rowOf rest position).map fun seen => amount position seen.2) := by
      unfold rowOf
      rw [List.filterMap_cons]
      unfold Link.seenFrom
      grind [addUp_cons]
    simp only [hrow, addUp_map_add, addUp_map_ite_eq, ih hrest, List.map_cons, addUp_cons,
      List.nodup_range.count, List.mem_range, hleft, hright,
      if_true, Nat.one_mul]

theorem addUp_neighbours (simple : g.Simple) (amount : Weight → Nat) :
    addUp ((List.range g.vertexCount).map fun position =>
        addUp ((g.neighbours position).map fun seen => amount seen.2)) =
      2 * addUp (g.links.map fun link => amount link.weight) := by
  rw [addUp_ends simple fun _ => amount, addUp_map_add, ← Nat.two_mul]

theorem addUp_degrees (simple : g.Simple) :
    addUp ((List.range g.vertexCount).map g.degree) = 2 * g.edgeCount := by
  have hones (α : Type) (items : List α) : addUp (items.map fun _ => 1) = items.length := by
    rw [List.map_const', addUp_replicate, Nat.mul_one]
  have hseen := addUp_neighbours simple fun _ => 1
  simp only [hones] at hseen
  exact hseen

theorem Cliques.edgeCount_eq (cliques : g.Cliques classOf weight) (simple : g.Simple) {size : Nat}
    (hsize : ∀ position < g.vertexCount, (g.fellows classOf position).length = size - 1) :
    2 * g.edgeCount = g.vertexCount * (size - 1) := by
  have hdegrees : (List.range g.vertexCount).map g.degree =
      List.replicate g.vertexCount (size - 1) := by
    rw [List.eq_replicate_iff]
    refine ⟨by simp, fun n hmem => ?_⟩
    obtain ⟨position, hposition, rfl⟩ := List.mem_map.mp hmem
    have hinside := List.mem_range.mp hposition
    rw [degree, (cliques.neighbours_perm hinside).length_eq, List.length_map, hsize _ hinside]
  rw [← addUp_degrees simple, hdegrees, addUp_replicate]

end SharingGraph

end Cohort
