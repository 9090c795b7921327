import Cohort.Proofs.Fixpoints
import Mathlib.Data.ENat.Lattice

/-! Passes over a graph that no cap ends. There is one sequence of them for each labelling and each
source, and a cap only says how far along it a run may come: the first pass that changes nothing is
the last one of every run that the cap lets reach it. -/

namespace Cohort

open Cohort.Random (Source)

structure Turn where
  order : Array Nat
  sweep : SharingGraph.Sweep

namespace SharingGraph

variable {g : SharingGraph} {labels : Labels} {source : Source}

/-- The passes from a labelling on, without end. The first takes the vertices in their order, and
any other shuffles the order of the pass before it, with the source as that pass left it. -/
def turn (g : SharingGraph) (labels : Labels) (source : Source) : Nat → Turn
  | 0 => ⟨Array.range labels.size, g.pass (Array.range labels.size).toList labels source⟩
  | passes + 1 =>
    let before := g.turn labels source passes
    let (order, source) := before.sweep.source.shuffle before.order
    ⟨order, g.pass order.toList before.sweep.labels source⟩

noncomputable def firstIdle (g : SharingGraph) (labels : Labels) (source : Source) : ℕ∞ :=
  ⨅ (pass : Nat) (_ : (g.turn labels source pass).sweep.changes = 0), ((pass + 1 : Nat) : ℕ∞)

theorem succ_le_firstIdle {passes : Nat}
    (hbusy : ∀ earlier < passes, (g.turn labels source earlier).sweep.changes ≠ 0) :
    ((passes + 1 : Nat) : ℕ∞) ≤ g.firstIdle labels source := by
  refine le_iInf₂ fun other hother => ?_
  have hle : passes ≤ other := Nat.le_of_not_lt fun hearlier => hbusy other hearlier hother
  exact_mod_cast Nat.succ_le_succ hle

theorem firstIdle_eq {pass : Nat} (hidle : (g.turn labels source pass).sweep.changes = 0)
    (hbusy : ∀ earlier < pass, (g.turn labels source earlier).sweep.changes ≠ 0) :
    g.firstIdle labels source = (pass + 1 : Nat) :=
  le_antisymm (iInf₂_le pass hidle) (succ_le_firstIdle hbusy)

theorem lt_firstIdle {passes : Nat}
    (hbusy : ∀ earlier < passes, (g.turn labels source earlier).sweep.changes ≠ 0) :
    (passes : ℕ∞) < g.firstIdle labels source :=
  lt_of_lt_of_le (by exact_mod_cast Nat.lt_succ_self passes) (succ_le_firstIdle hbusy)

end SharingGraph

namespace Run

variable {g : SharingGraph} {labels : Labels} {source : Source}

theorem iterate_step (g : SharingGraph) (labels : Labels) (source : Source) (pass : Nat) :
    (step g)^[pass + 1] (start labels source) =
      ⟨(g.turn labels source pass).order, (g.turn labels source pass).sweep.labels,
        (g.turn labels source pass).sweep.source,
        ⟨pass + 1, (g.turn labels source pass).sweep.changes == 0,
          (g.turn labels source 0).sweep.changes⟩⟩ := by
  induction pass with
  | zero => rfl
  | succ pass ih =>
    rw [Function.iterate_succ_apply', ih]
    rfl

theorem upTo_eq_iterate {run : Run} {passes cap : Nat} (hcap : passes ≤ cap)
    (hopen : ∀ earlier < passes, ((step g)^[earlier] run).outcome.converged = false)
    (hends : passes = cap ∨ ((step g)^[passes] run).outcome.converged = true) :
    run.upTo g cap = (step g)^[passes] run := by
  induction passes generalizing run cap with
  | zero =>
    rcases hends with rfl | hconverged
    · rfl
    · exact upTo_of_converged hconverged cap
  | succ passes ih =>
    obtain ⟨cap, rfl⟩ := Nat.exists_eq_succ_of_ne_zero (Nat.ne_of_gt (Nat.lt_of_lt_of_le
      (Nat.succ_pos passes) hcap))
    have hrun : run.outcome.converged = false := hopen 0 (Nat.succ_pos passes)
    rw [upTo_succ hrun, Function.iterate_succ_apply]
    refine ih (Nat.le_of_succ_le_succ hcap) (fun earlier hearlier => ?_) ?_
    · exact hopen (earlier + 1) (Nat.succ_lt_succ hearlier)
    · exact hends.imp_left Nat.succ.inj

/-- A run makes all passes up to the first that changes nothing or to as many as its cap allows,
whichever comes first. -/
theorem upTo_start (g : SharingGraph) (labels : Labels) (source : Source) {cap : Nat}
    (hcap : cap ≠ 0) : ∃ pass < cap,
      (∀ earlier < pass, (g.turn labels source earlier).sweep.changes ≠ 0) ∧
      ((g.turn labels source pass).sweep.changes = 0 ∨ pass + 1 = cap) ∧
      (start labels source).upTo g cap = (step g)^[pass + 1] (start labels source) := by
  obtain ⟨last, rfl⟩ := Nat.exists_eq_succ_of_ne_zero hcap
  have hlast : ∃ pass, (g.turn labels source pass).sweep.changes = 0 ∨ pass = last :=
    ⟨last, .inr rfl⟩
  classical
  have hends := Nat.find_spec hlast
  have hbefore {earlier : Nat} (hearlier : earlier < Nat.find hlast) :=
    not_or.mp (Nat.find_min hlast hearlier)
  have hreached : Nat.find hlast ≤ last := Nat.find_min' hlast (.inr rfl)
  refine ⟨Nat.find hlast, Nat.lt_succ_of_le hreached, fun earlier hearlier => (hbefore hearlier).1,
    hends.imp_right (congrArg Nat.succ), ?_⟩
  refine upTo_eq_iterate (Nat.succ_le_succ hreached) (fun earlier hearlier => ?_) ?_
  · cases earlier with
    | zero => rfl
    | succ earlier =>
      rw [iterate_step]
      exact beq_eq_false_iff_ne.mpr (hbefore (Nat.lt_of_succ_lt_succ hearlier)).1
  · rw [iterate_step, beq_iff_eq]
    exact hends.symm.imp_left (congrArg Nat.succ)

/-- What a run with a cap comes to, as told by the passes of a run without one. -/
structure Truncated (g : SharingGraph) (labels : Labels) (source : Source) (cap : Nat)
    (outcome : Outcome) (final : Labels) : Prop where
  iterations : (outcome.iterations : ℕ∞) = min (cap : ℕ∞) (g.firstIdle labels source)
  converged : outcome.converged = true ↔ g.firstIdle labels source ≤ cap
  unconverged : outcome.converged = false → outcome.iterations = cap
  firstChanges : outcome.firstChanges = (g.turn labels source 0).sweep.changes
  labels : ∃ pass, outcome.iterations = pass + 1 ∧
    final = (g.turn labels source pass).sweep.labels

theorem truncated (g : SharingGraph) (labels : Labels) (source : Source) {cap : Nat}
    (hcap : cap ≠ 0) : Truncated g labels source cap ((start labels source).upTo g cap).outcome
      ((start labels source).upTo g cap).labels := by
  obtain ⟨pass, hpass, hbusy, hends, hrun⟩ := upTo_start g labels source hcap
  rw [hrun, iterate_step]
  by_cases hidle : (g.turn labels source pass).sweep.changes = 0
  · have hfirst := SharingGraph.firstIdle_eq hidle hbusy
    have hle : ((pass + 1 : Nat) : ℕ∞) ≤ cap := by exact_mod_cast hpass
    exact {
      iterations := by rw [hfirst, min_eq_right hle]
      converged := by simp only [hidle, hfirst, hle, beq_self_eq_true]
      unconverged := by simp [hidle]
      firstChanges := rfl
      labels := ⟨pass, rfl, rfl⟩ }
  · obtain rfl := hends.resolve_left hidle
    have hfirst : ((pass + 1 : Nat) : ℕ∞) < g.firstIdle labels source := by
      refine SharingGraph.lt_firstIdle fun earlier hearlier => ?_
      rcases Nat.lt_succ_iff_lt_or_eq.mp hearlier with hbefore | rfl
      · exact hbusy earlier hbefore
      · exact hidle
    exact {
      iterations := by rw [min_eq_left (le_of_lt hfirst)]
      converged := by simp only [beq_iff_eq, hidle, not_le.mpr hfirst]
      unconverged := fun _ => rfl
      firstChanges := rfl
      labels := ⟨pass, rfl, rfl⟩ }

theorem Truncated.unique {cap cap' : Nat} {outcome outcome' : Outcome} {final final' : Labels}
    (run : Truncated g labels source cap outcome final)
    (run' : Truncated g labels source cap' outcome' final')
    (h : g.firstIdle labels source ≤ cap) (h' : g.firstIdle labels source ≤ cap') :
    outcome = outcome' ∧ final = final' := by
  have hiterations : outcome.iterations = outcome'.iterations := by
    have hsame := run.iterations.trans (min_eq_right h)
    rw [← (run'.iterations.trans (min_eq_right h'))] at hsame
    exact_mod_cast hsame
  have hconverged : outcome.converged = outcome'.converged :=
    (run.converged.mpr h).trans (run'.converged.mpr h').symm
  have hfirst := run.firstChanges.trans run'.firstChanges.symm
  obtain ⟨pass, hpass, hfinal⟩ := run.labels
  obtain ⟨pass', hpass', hfinal'⟩ := run'.labels
  obtain rfl : pass = pass' := Nat.succ.inj (hpass.symm.trans (hiterations.trans hpass'))
  exact ⟨Outcome.mk.injEq .. |>.mpr ⟨hiterations, hconverged, hfirst⟩, hfinal.trans hfinal'.symm⟩

end Run

/-- For all caps there is one sequence of passes, which a run follows to the first pass that changes
nothing or as far as its cap allows. -/
theorem cap_only_truncates {g : SharingGraph} {nodes : List LabelNode}
    (accepted : Method.checkNodes g nodes = .ok ()) (m : Method) (unseeded : Source) :
    let labels := LabelNode.labels nodes
    let source := m.source unseeded
    (∀ cap, { m with cap }.check = .ok () → ∃ outcome final,
      { m with cap }.propagate unseeded g nodes = .ok (outcome, LabelNode.relabel nodes final) ∧
        Run.Truncated g labels source cap outcome final) ∧
    ∀ cap cap' : Nat, g.firstIdle labels source ≤ cap → g.firstIdle labels source ≤ cap' →
      { m with cap }.propagate unseeded g nodes =
        { m with cap := cap' }.propagate unseeded g nodes := by
  intro labels source
  have hrun (cap : Nat) (hcap : cap ≠ 0) : ∃ outcome final,
      { m with cap }.propagate unseeded g nodes = .ok (outcome, LabelNode.relabel nodes final) ∧
        Run.Truncated g labels source cap outcome final :=
    ⟨_, _, Method.propagate_eq_ok accepted, Run.truncated g labels source hcap⟩
  have hreached {cap : Nat} (h : g.firstIdle labels source ≤ cap) : cap ≠ 0 := by
    have hpositive : ((0 : Nat) : ℕ∞) < g.firstIdle labels source :=
      SharingGraph.lt_firstIdle fun _ hearlier => absurd hearlier (Nat.not_lt_zero _)
    have hcap := lt_of_lt_of_le hpositive h
    exact Nat.ne_of_gt (by exact_mod_cast hcap)
  refine ⟨fun cap hcheck => hrun cap fun hzero => ?_, fun cap cap' h h' => ?_⟩
  · simp [Method.check, hzero] at hcheck
  · obtain ⟨outcome, final, heq, htruncated⟩ := hrun cap (hreached h)
    obtain ⟨outcome', final', heq', htruncated'⟩ := hrun cap' (hreached h')
    obtain ⟨rfl, rfl⟩ := htruncated.unique htruncated' h h'
    rw [heq, heq']

theorem cap_only_truncates_pair :
    let g : SharingGraph := { vertices := #["a", "b"], links := [⟨0, 1, 2⟩] }
    let nodes : List LabelNode := [⟨"a", 0⟩, ⟨"b", 1⟩]
    let m (cap : Nat) : Method := ⟨cap, some 7, false⟩
    g.firstIdle #[0, 1] (.ofSeed 7) = 2 ∧
      (m 1).propagate default g nodes = .ok (⟨1, false, 1⟩, [⟨"a", 1⟩, ⟨"b", 1⟩]) ∧
      (m 2).propagate default g nodes = (m 100).propagate default g nodes := by
  intro g nodes m
  have hbuilt : g.Built := ⟨_, .link .empty "a" "b" 2, rfl⟩
  have hfirst : (g.turn #[0, 1] (.ofSeed 7) 0).sweep.labels = #[1, 1] ∧
      (g.turn #[0, 1] (.ofSeed 7) 0).sweep.changes = 1 := by decide +kernel
  have hsettled : ∀ position, g.Settled #[1, 1] position :=
    (hbuilt.locallyOptimal_iff rfl).mp (hbuilt.locallyOptimal_of_uniform 1 (by decide))
  have hidle : (g.turn #[0, 1] (.ofSeed 7) 1).sweep.changes = 0 := by
    rw [SharingGraph.turn, hfirst.1]
    dsimp only
    rw [SharingGraph.pass_of_settled hsettled]
  have hcap : g.firstIdle #[0, 1] (.ofSeed 7) = 2 := by
    refine SharingGraph.firstIdle_eq hidle fun earlier hearlier => ?_
    obtain rfl : earlier = 0 := Nat.lt_one_iff.mp hearlier
    rw [hfirst.2]
    decide
  obtain ⟨hcut, hsame⟩ :=
    cap_only_truncates (rfl : Method.checkNodes g nodes = .ok ()) (m 1) default
  refine ⟨hcap, ?_, hsame 2 100 (le_of_eq hcap) (le_trans (le_of_eq hcap) (by decide))⟩
  obtain ⟨⟨iterations, converged, changes⟩, final, hrun, cut⟩ := hcut 1 rfl
  have hconverged : converged = false := by
    rw [← Bool.not_eq_true, cut.converged, not_le]
    exact lt_of_lt_of_eq (by decide) hcap.symm
  obtain rfl : iterations = 1 := cut.unconverged hconverged
  obtain rfl : changes = 1 := cut.firstChanges.trans hfirst.2
  obtain ⟨pass, hpass, rfl⟩ := cut.labels
  obtain rfl : 0 = pass := Nat.succ.inj hpass
  have hlabels : (g.turn (LabelNode.labels nodes) ((m 1).source default) 0).sweep.labels =
      #[1, 1] := hfirst.1
  rw [hconverged, hlabels] at hrun
  exact hrun

end Cohort
