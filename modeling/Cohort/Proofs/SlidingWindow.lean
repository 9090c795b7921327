import Cohort.Proofs.Ledger
import Mathlib.Data.List.Induction

/-! What the live graph says of the past. Whatever is done to a tracker, the weight between an
identity and an object is the number of accesses since the prune that lies as many prunes back as
the window retains periods. -/

namespace Cohort

namespace Tracker

inductive Action
  | record (name : Identity) (objects : List ObjectId)
  | conflict (node : NodeId) (object : ObjectId)
  | removeNode (node : NodeId)
  | fold
  | objectUse
  | prune

def act (t : Tracker) : Action → Tracker
  | .record name objects =>
    match t.record name objects with
    | .ok t' => t'
    | .error _ => t
  | .conflict node object =>
    match t.recordConflict node object with
    | .ok (_, t') => t'
    | .error _ => t
  | .removeNode node => t.removeNode node
  | .fold =>
    match t.fold with
    | .ok (_, t') => t'
    | .error _ => t
  | .objectUse => t
  | .prune => t.prune.2

def run (t : Tracker) (actions : List Action) : Tracker :=
  actions.foldl act t

namespace Action

def isPrune : Action → Bool
  | .prune => true
  | _ => false

def accepted (name : Identity) (objects : List ObjectId) : Bool :=
  !Identity.isAbsent name && !objects.any ObjectId.isAbsent

def isUse (name : Identity) (object : ObjectId) : Action → Bool
  | .record other objects => other == name && objects.contains object && accepted other objects
  | _ => false

end Action

def prunes (actions : List Action) : Nat :=
  actions.countP Action.isPrune

def uses (name : Identity) (object : ObjectId) (actions : List Action) : Nat :=
  actions.countP (Action.isUse name object)

/-- What came after the prune of the given number; the first has number one. -/
def afterPrune : Nat → List Action → List Action
  | 0, actions => actions
  | _, [] => []
  | n + 1, action :: rest => if action.isPrune then afterPrune n rest else afterPrune (n + 1) rest

theorem prunes_append (actions rest : List Action) :
    prunes (actions ++ rest) = prunes actions + prunes rest :=
  List.countP_append

theorem uses_append (name : Identity) (object : ObjectId) (actions rest : List Action) :
    uses name object (actions ++ rest) = uses name object actions + uses name object rest :=
  List.countP_append

theorem prunes_cons (action : Action) (rest : List Action) :
    prunes (action :: rest) = prunes rest + if action.isPrune then 1 else 0 :=
  List.countP_cons ..

@[simp] theorem afterPrune_zero (actions : List Action) : afterPrune 0 actions = actions := by
  cases actions <;> rfl

@[simp] theorem afterPrune_nil (n : Nat) : afterPrune n [] = [] := by
  cases n <;> rfl

theorem afterPrune_succ_cons (n : Nat) (action : Action) (rest : List Action) :
    afterPrune (n + 1) (action :: rest) =
      if action.isPrune then afterPrune n rest else afterPrune (n + 1) rest :=
  rfl

theorem afterPrune_append {n : Nat} {actions : List Action} (h : n ≤ prunes actions)
    (rest : List Action) : afterPrune n (actions ++ rest) = afterPrune n actions ++ rest := by
  induction actions generalizing n with
  | nil =>
    obtain rfl : n = 0 := Nat.le_zero.mp h
    simp
  | cons action actions ih =>
    rw [prunes_cons] at h
    cases n with
    | zero => simp
    | succ n =>
      rw [List.cons_append, afterPrune_succ_cons, afterPrune_succ_cons]
      split
      next hprune =>
        rw [if_pos hprune] at h
        exact ih (Nat.le_of_succ_le_succ h)
      next hother =>
        rw [if_neg hother] at h
        exact ih h

theorem afterPrune_append_of_lt (n : Nat) (actions rest : List Action) :
    afterPrune (prunes actions + n + 1) (actions ++ rest) = afterPrune (n + 1) rest := by
  induction actions with
  | nil => simp [prunes]
  | cons action actions ih =>
    rw [prunes_cons, List.cons_append, afterPrune_succ_cons, ← ih]
    split
    next => congr 1; omega
    next => rfl

theorem uses_afterPrune_le (name : Identity) (object : ObjectId) (n : Nat)
    (actions : List Action) :
    uses name object (afterPrune n actions) ≤ uses name object actions := by
  induction actions generalizing n with
  | nil => simp
  | cons action rest ih =>
    have hrest : uses name object rest ≤ uses name object (action :: rest) := by
      simp only [uses, List.countP_cons]
      omega
    cases n with
    | zero => simp
    | succ n =>
      rw [afterPrune_succ_cons]
      split
      next => exact (ih n).trans hrest
      next => exact (ih (n + 1)).trans hrest

theorem mem_accessSet {objects : List ObjectId} {object : ObjectId} :
    object ∈ accessSet objects ↔ object ∈ objects := by
  simp [accessSet]

theorem nodup_accessSet (objects : List ObjectId) : (accessSet objects).Nodup :=
  nodup_toList _

def recorded (t : Tracker) (name : Identity) (set : List ObjectId) : Tracker :=
  { t with
    graph := (t.graph.touch name set).2
    window := t.window.recordEdges (t.graph.touch name set).1
    counters := t.counters.countUpdate }

theorem any_accessSet (objects : List ObjectId) :
    (accessSet objects).any ObjectId.isAbsent = objects.any ObjectId.isAbsent := by
  rw [Bool.eq_iff_iff, List.any_eq_true, List.any_eq_true]
  simp only [mem_accessSet]

theorem record_of_accepted {t : Tracker} {name : Identity} {objects : List ObjectId}
    (h : Action.accepted name objects) :
    t.record name objects = .ok (t.recorded name (accessSet objects)) := by
  obtain ⟨hname, hobjects⟩ : Identity.isAbsent name = false ∧
      objects.any ObjectId.isAbsent = false := by simpa [Action.accepted] using h
  rw [← any_accessSet] at hobjects
  simp [record, hname, hobjects, recorded]

theorem record_of_refused {t : Tracker} {name : Identity} {objects : List ObjectId}
    (h : ¬ Action.accepted name objects) : ∃ fault, t.record name objects = .error fault := by
  unfold record
  by_cases hname : Identity.isAbsent name
  · exact ⟨_, if_pos hname⟩
  · have hobjects : (accessSet objects).any ObjectId.isAbsent = true := by
      simpa [any_accessSet, Action.accepted, hname] using h
    exact ⟨_, (if_neg hname).trans (if_pos hobjects)⟩

def reported (t : Tracker) (node : NodeId) (object : ObjectId) : Tracker :=
  { t with
    conflicts := { t.conflicts with counts := t.conflicts.counts.add (node, object) 1 }
    window := t.window.recordConflict node object }

theorem recordConflict_cases (t : Tracker) (node : NodeId) (object : ObjectId) :
    (object = 0 ∧ t.recordConflict node object = .error (.argument .absentConflict)) ∨
    (object ≠ 0 ∧ t.conflicts.isDown node ∧ t.recordConflict node object = .ok (false, t)) ∨
    (object ≠ 0 ∧ ¬ t.conflicts.isDown node ∧
      t.recordConflict node object = .ok (true, t.reported node object)) := by
  by_cases habsent : object = 0
  · exact .inl ⟨habsent, by simp [recordConflict, Conflicts.record, ObjectId.isAbsent, habsent,
      bind, Except.bind]⟩
  · by_cases hdown : t.conflicts.isDown node
    · exact .inr (.inl ⟨habsent, hdown, by simp [recordConflict, Conflicts.record,
        ObjectId.isAbsent, habsent, hdown, bind, Except.bind, pure, Except.pure]⟩)
    · exact .inr (.inr ⟨habsent, hdown, by simp [recordConflict, Conflicts.record,
        ObjectId.isAbsent, habsent, hdown, bind, Except.bind, pure, Except.pure, reported]⟩)

theorem act_record (t : Tracker) (name : Identity) (objects : List ObjectId) :
    t.act (.record name objects) =
      if Action.accepted name objects then t.recorded name (accessSet objects) else t := by
  by_cases haccepted : Action.accepted name objects
  · rw [if_pos haccepted, act, record_of_accepted haccepted]
  · obtain ⟨fault, hrefused⟩ := @record_of_refused t name objects haccepted
    rw [if_neg haccepted, act, hrefused]

theorem act_conflict (t : Tracker) (node : NodeId) (object : ObjectId) :
    t.act (.conflict node object) =
      if object = 0 ∨ t.conflicts.isDown node then t else t.reported node object := by
  rcases t.recordConflict_cases node object with ⟨habsent, heq⟩ | ⟨-, hdown, heq⟩ |
    ⟨habsent, hdown, heq⟩
  · rw [if_pos (.inl habsent), act, heq]
  · rw [if_pos (.inr hdown), act, heq]
  · rw [if_neg (not_or.mpr ⟨habsent, hdown⟩), act, heq]

theorem act_fold (t : Tracker) :
    ∃ places counters, t.act .fold = { t with places, counters } := by
  simp only [act, fold]
  cases t.graph.project with
  | error cause => exact ⟨t.places, t.counters, rfl⟩
  | ok shared => exact ⟨_, _, rfl⟩

theorem act_prune (t : Tracker) : ∃ graph conflicts, t.act .prune =
    { t with
      graph, conflicts
      window := t.window.rotate.2
      counters := t.counters.countPrune } := by
  change ∃ graph conflicts, t.prune.2 = _
  cases h : t.window.rotate.1 with
  | none => exact ⟨t.graph, t.conflicts, congrArg Prod.snd (prune_of_none h)⟩
  | some period => exact ⟨_, _, congrArg Prod.snd (prune_of_some h)⟩

def ledger (t : Tracker) : Ledger :=
  ⟨t.graph, t.window, 0, []⟩

theorem prune_round (t : Tracker) : Ledger.Round t.ledger t.prune.2.ledger := by
  cases h : t.window.rotate.1 with
  | none =>
    have hprune : t.prune.2.ledger = t.ledger.rotate := by
      simp [prune_of_none h, ledger, Ledger.rotate, h]
    rw [hprune]
    exact .idle _ h
  | some period =>
    have hprune : t.prune.2.ledger = t.ledger.rotate.settle period period.edges.entries := by
      simp [prune_of_some h, ledger, Ledger.rotate, Ledger.settle, h]
    rw [hprune]
    exact .settle _ period _ h (.refl _)

def told (g : AccessGraph) (tallies : List (Tally EdgeKey)) (pair : Identity × ObjectId) : Nat :=
  addUp (tallies.map fun counts => (g.byEnds counts).count pair)

theorem told_take_congr {g h : AccessGraph} {tallies : List (Tally EdgeKey)}
    (hends : ∀ counts ∈ tallies, h.byEnds counts = g.byEnds counts) (n : Nat)
    (pair : Identity × ObjectId) : told h (tallies.take n) pair = told g (tallies.take n) pair := by
  unfold told
  congr 1
  apply List.map_congr_left
  intro counts hmem
  rw [hends counts (List.mem_of_mem_take hmem)]

theorem told_cons (g : AccessGraph) (counts : Tally EdgeKey) (rest : List (Tally EdgeKey))
    (pair : Identity × ObjectId) :
    told g (counts :: rest) pair = (g.byEnds counts).count pair + told g rest pair :=
  rfl

theorem told_empty_cons (g : AccessGraph) (rest : List (Tally EdgeKey))
    (pair : Identity × ObjectId) : told g (∅ :: rest) pair = told g rest pair := by
  have hempty : (g.byEnds ∅).count pair = 0 := by simp [AccessGraph.byEnds]
  rw [told_cons, hempty, Nat.zero_add]

/-- A tracker and its history: the periods from any one on tell the accesses since the prune that
opened it. -/
structure Traced (count : Nat) (actions : List Action) (t : Tracker) : Prop where
  balanced : t.ledger.Balanced
  retains : t.window.count = count
  closed : t.window.closed.size = min (prunes actions) count
  uses : ∀ name object j, j ≤ t.window.closed.size →
    told t.graph (t.window.tallies.take (j + 1)) (name, object) =
      Tracker.uses name object (afterPrune (prunes actions - j) actions)

theorem Traced.sound {count : Nat} {actions : List Action} {t : Tracker}
    (traced : Traced count actions t) : t.graph.Sound :=
  traced.balanced.sound

theorem ofCount_eq_ok {count : Nat} {t : Tracker} (h : ofCount count = .ok t) :
    ∃ w, Window.ofCount count = .ok w ∧
      t = { graph := ∅, places := ∅, window := w, conflicts := ∅, counters := .zero } := by
  unfold ofCount at h
  cases hw : Window.ofCount count with
  | error failure => simp [hw, bind, Except.bind] at h
  | ok w => exact ⟨w, rfl, by simpa [hw, bind, Except.bind, pure, Except.pure, eq_comm] using h⟩

theorem traced_ofCount {count : Nat} {t : Tracker} (h : ofCount count = .ok t) :
    Traced count [] t := by
  obtain ⟨w, hw, rfl⟩ := ofCount_eq_ok h
  obtain ⟨-, -, rfl⟩ := Window.ofCount_eq_ok.mp hw
  refine ⟨Ledger.balanced_start hw, rfl, (Nat.zero_min count).symm, ?_⟩
  intro name object j hj
  obtain rfl : j = 0 := Nat.le_zero.mp hj
  rfl

section Steps

variable {count : Nat} {actions : List Action} {t : Tracker}

theorem Traced.quiet (traced : Traced count actions t) {action : Action} {t' : Tracker}
    (hprune : action.isPrune = false) (huse : ∀ name object, action.isUse name object = false)
    (hgraph : t'.graph = t.graph) (hcount : t'.window.count = t.window.count)
    (hclosed : t'.window.closed = t.window.closed)
    (htallies : t'.window.tallies = t.window.tallies) : Traced count (actions ++ [action]) t' := by
  have hprunes : prunes (actions ++ [action]) = prunes actions := by
    simp [prunes, hprune]
  constructor
  · constructor
    · change t'.graph.Sound
      rw [hgraph]
      exact traced.sound
    · have hwithin : t.window.closed.size ≤ t.window.count := traced.balanced.within
      change t'.window.closed.size ≤ t'.window.count
      rwa [hclosed, hcount]
    · intro key
      have hweight := traced.balanced.weight key
      simp only [ledger, Ledger.pending, Window.noted] at hweight ⊢
      rwa [hgraph, htallies]
  · rw [hcount, traced.retains]
  · rw [hclosed, hprunes, traced.closed]
  · intro name object j hj
    rw [hclosed] at hj
    rw [hgraph, htallies, hprunes, traced.uses name object j hj,
      afterPrune_append (Nat.sub_le _ _), uses_append]
    simp [Tracker.uses, huse]

theorem Traced.record (traced : Traced count actions t) {name : Identity}
    {objects : List ObjectId} (haccepted : Action.accepted name objects) :
    Traced count (actions ++ [.record name objects])
      (t.recorded name (accessSet objects)) := by
  have hsound := traced.sound
  have hprunes : prunes (actions ++ [.record name objects]) = prunes actions := by
    simp [prunes, Action.isPrune]
  -- the keys of the window have the ends that they had
  have hends : ∀ counts ∈ t.window.tallies,
      (t.graph.touch name (accessSet objects)).2.byEnds counts = t.graph.byEnds counts := by
    intro counts hmem
    apply AccessGraph.byEnds_congr
    intro key hkey
    obtain ⟨pair, hpair⟩ := (hsound.weightAt_pos).mp
      (Nat.pos_of_ne_zero (traced.balanced.live hmem hkey))
    rw [hpair, hsound.ends?_touch name _ hpair]
  refine ⟨⟨hsound.touch name _, traced.balanced.within, fun key => ?_⟩, traced.retains, ?_, ?_⟩
  · have hweight := traced.balanced.weight key
    simp only [ledger, Ledger.pending] at hweight
    simp only [ledger, recorded, Ledger.pending, hsound.weightAt_touch,
      Window.noted_recordEdges]
    omega
  · rw [hprunes]
    exact traced.closed
  · intro other object j hj
    have huses := traced.uses other object j hj
    have hnew := hsound.count_byEnds_addEdges name (nodup_accessSet objects) t.window.opened
      (other, object)
    have hadded : Tracker.uses other object [.record name objects] =
        if name = other ∧ object ∈ accessSet objects then 1 else 0 := by
      simp [Tracker.uses, Action.isUse, haccepted, mem_accessSet]
    rw [hprunes, afterPrune_append (Nat.sub_le _ _), uses_append, ← huses, hadded]
    change told _ (((t.window.recordEdges _).tallies).take (j + 1)) _ = _
    rw [t.window.tallies_eq] at hends ⊢
    have hrest := told_take_congr (fun counts hmem => hends counts (List.mem_cons_of_mem _ hmem)) j
      (other, object)
    rw [Window.tallies_recordEdges, List.take_succ_cons, List.take_succ_cons, told_cons,
      told_cons, recorded, hnew, hends _ List.mem_cons_self, hrest]
    exact Nat.add_right_comm ..

theorem Traced.prune (traced : Traced count actions t) :
    Traced count (actions ++ [.prune]) t.prune.2 := by
  have round := t.prune_round
  have hbalanced := traced.balanced.run round.steps
  have hwindow : t.prune.2.window = t.window.rotate.2 := round.window
  have hwithin : t.window.Within := traced.balanced.within
  have hprunes : prunes (actions ++ [.prune]) = prunes actions + 1 := prunes_append ..
  have hsize : t.prune.2.window.closed.size = min (prunes actions + 1) count := by
    have hclosed := traced.closed
    have hretains := traced.retains
    rw [hwindow, Window.size_closed_rotate hwithin]
    omega
  refine ⟨hbalanced, ?_, ?_, ?_⟩
  · rw [hwindow, Window.count_rotate, traced.retains]
  · rw [hsize, hprunes]
  · intro name object j hj
    rw [hsize] at hj
    rw [hprunes]
    -- the period just opened tells nothing, and any other is one further back than before
    cases j with
    | zero =>
      have hgone : afterPrune (prunes actions + 1 - 0) (actions ++ [.prune]) = [] :=
        afterPrune_append_of_lt 0 actions [.prune]
      rw [hgone, hwindow, Window.tallies_rotate hwithin, List.take_take, Nat.zero_add,
        Nat.min_eq_left (by omega), List.take_succ_cons, told_empty_cons]
      rfl
    | succ i =>
      have hends : ∀ counts ∈ t.prune.2.window.tallies,
          t.prune.2.graph.byEnds counts = t.graph.byEnds counts := by
        intro counts hmem
        apply AccessGraph.byEnds_congr
        intro key hkey
        exact round.ends? traced.sound (hbalanced.live hmem hkey)
      have htake : t.prune.2.window.tallies.take (i + 1 + 1) =
          ∅ :: t.window.tallies.take (i + 1) := by
        rw [hwindow, Window.tallies_rotate hwithin, traced.retains, List.take_take,
          Nat.min_eq_left (by omega), List.take_succ_cons]
      have hclosed := traced.closed
      rw [told_take_congr hends, htake, told_empty_cons, traced.uses name object i (by omega),
        Nat.add_sub_add_right, afterPrune_append (Nat.sub_le _ _), uses_append]
      rfl

end Steps

theorem run_append (t : Tracker) (actions rest : List Action) :
    t.run (actions ++ rest) = (t.run actions).run rest :=
  List.foldl_append

theorem Traced.act {count : Nat} {actions : List Action} {t : Tracker}
    (traced : Traced count actions t) (action : Action) :
    Traced count (actions ++ [action]) (t.act action) := by
  cases action with
  | record name objects =>
    rw [act_record]
    split
    next haccepted => exact traced.record haccepted
    next hrefused => exact traced.quiet rfl (by simp [Action.isUse, hrefused]) rfl rfl rfl rfl
  | conflict node object =>
    rw [act_conflict]
    split
    next => exact traced.quiet rfl (fun _ _ => rfl) rfl rfl rfl rfl
    next => exact traced.quiet rfl (fun _ _ => rfl) rfl rfl rfl (Window.tallies_recordConflict ..)
  | removeNode node => exact traced.quiet rfl (fun _ _ => rfl) rfl rfl rfl rfl
  | fold =>
    obtain ⟨places, counters, heq⟩ := t.act_fold
    rw [heq]
    exact traced.quiet rfl (fun _ _ => rfl) rfl rfl rfl rfl
  | objectUse => exact traced.quiet rfl (fun _ _ => rfl) rfl rfl rfl rfl
  | prune => exact traced.prune

theorem Traced.run {count : Nat} {t : Tracker} (h : ofCount count = .ok t)
    (actions : List Action) : Traced count actions (t.run actions) := by
  induction actions using List.reverseRecOn with
  | nil => exact traced_ofCount h
  | append_singleton actions action ih =>
    rw [run_append]
    exact ih.act action

section Exact

variable {count : Nat} {actions : List Action} {t : Tracker}

/-- The accesses since the prune that lies as many prunes back as the window retains periods. -/
def liveUses (count : Nat) (actions : List Action) (name : Identity) (object : ObjectId) : Nat :=
  uses name object (afterPrune (prunes actions - count) actions)

theorem Traced.told_eq (traced : Traced count actions t) (name : Identity) (object : ObjectId) :
    told t.graph t.window.tallies (name, object) = liveUses count actions name object := by
  have hlength : t.window.tallies.length ≤ t.window.closed.size + 1 := by
    simp [Window.tallies, Window.length_latest]
  have hsub : prunes actions - t.window.closed.size = prunes actions - count := by
    have hclosed := traced.closed
    omega
  have huses := traced.uses name object _ (Nat.le_refl _)
  rwa [List.take_of_length_le hlength, hsub] at huses

theorem Traced.edgeWeight (traced : Traced count actions t) (name : Identity)
    (object : ObjectId) : t.graph.edgeWeight name object =
      if liveUses count actions name object = 0 then none
      else some (liveUses count actions name object) := by
  have hsound := traced.sound
  rw [← traced.told_eq]
  by_cases h : ∃ key, t.graph.ends? key = some (name, object)
  · obtain ⟨key, hkey⟩ := h
    have hpositive := hsound.weightAt_pos.mpr ⟨_, hkey⟩
    have hweight : t.graph.weightAt key = told t.graph t.window.tallies (name, object) := by
      have hpending := traced.balanced.weight key
      simp only [ledger, Ledger.pending, Ledger.owed, List.map_nil, addUp_nil,
        Multiset.count_zero, Nat.zero_add, Nat.add_zero] at hpending
      simp only [hpending, Window.noted, told, hsound.count_byEnds hkey]
    rw [hsound.edgeWeight_eq hkey, ← hweight, if_neg (Nat.ne_of_gt hpositive)]
  · rw [not_exists] at h
    have hzero : told t.graph t.window.tallies (name, object) = 0 := by
      apply addUp_eq_zero
      intro n hmem
      obtain ⟨counts, -, rfl⟩ := List.mem_map.mp hmem
      exact AccessGraph.count_byEnds_eq_zero h counts
    rw [hsound.edgeWeight_eq_none.mpr h, hzero, if_pos rfl]

theorem Traced.contains_iff (traced : Traced count actions t) (vertex : Vertex) :
    t.graph.contains vertex ↔ ∃ name object, 0 < liveUses count actions name object ∧
      (vertex = .identity name ∨ vertex = .object object) := by
  rw [traced.sound.contains_iff]
  constructor
  · rintro ⟨name, object, weight, hweight, hvertex⟩
    rw [traced.edgeWeight] at hweight
    split at hweight
    next => cases hweight
    next hpositive => exact ⟨name, object, Nat.pos_of_ne_zero hpositive, hvertex⟩
  · rintro ⟨name, object, hpositive, hvertex⟩
    refine ⟨name, object, liveUses count actions name object, ?_, hvertex⟩
    rw [traced.edgeWeight, if_neg (Nat.ne_of_gt hpositive)]

/-- What a prune subtracts from an edge the edge has, in whatever order it is subtracted. -/
theorem Traced.amount_le (traced : Traced count actions t) {period : Period}
    (h : t.rotate.1 = some period) {done rest : List (EdgeKey × Nat)} {key : EdgeKey}
    {amount : Nat} (horder : (done ++ (key, amount) :: rest).Perm period.edges.entries) :
    ∃ weight, (t.graph.expire done).2.weightOf key = some weight ∧ amount ≤ weight := by
  have hmem : period ∈ t.ledger.rotate.unapplied := by
    have hrotate : t.window.rotate.1 = some period := h
    simp [ledger, Ledger.rotate, hrotate]
  obtain ⟨hcount, hpositive, hweight⟩ := traced.balanced.rotate.weight_midway horder
  have hpending := Ledger.pending_settle hmem [] key
  change (t.graph.expire done).2.weightAt key = _ at hweight
  refine ⟨(t.graph.expire done).2.weightAt key, ?_, by omega⟩
  rw [(traced.sound.expire done).weightOf_eq, if_neg (by omega)]

theorem Traced.isEmpty (traced : Traced count actions t)
    (h : ∀ name object, liveUses count actions name object = 0) :
    t.graph.isEmpty ∧ t.graph.edgeCount = 0 ∧ t.graph.places = ∅ := by
  have hsound := traced.sound
  apply hsound.isEmpty
  intro key
  rw [← hsound.ends?_eq_none]
  by_contra hsome
  obtain ⟨⟨name, object⟩, hkey⟩ := Option.ne_none_iff_exists'.mp hsome
  have hweight := traced.edgeWeight name object
  rw [if_pos (h name object), hsound.edgeWeight_eq_none] at hweight
  exact hweight key hkey

theorem liveUses_idle {idle : List Action} (huses : ∀ name object, uses name object idle = 0)
    (h : count < prunes idle) (name : Identity) (object : ObjectId) :
    liveUses count (actions ++ idle) name object = 0 := by
  obtain ⟨n, hn⟩ := Nat.exists_eq_add_of_lt h
  have hsub : prunes (actions ++ idle) - count = prunes actions + n + 1 := by
    rw [prunes_append]
    omega
  have hle := uses_afterPrune_le name object (n + 1) idle
  rw [liveUses, hsub, afterPrune_append_of_lt]
  exact Nat.le_zero.mp (huses name object ▸ hle)

end Exact

/-- An edge weighs the number of accepted accesses since the prune that lies `count` prunes back,
and only such edges and their ends are there. -/
theorem window_exact {t₀ : Tracker} {count : Nat} (h : ofCount count = .ok t₀)
    (actions : List Action) :
    (∀ name objects, ((t₀.run actions).record name objects).isOk =
      Action.accepted name objects) ∧
    (∀ name object, (t₀.run actions).graph.edgeWeight name object =
      if liveUses count actions name object = 0 then none
      else some (liveUses count actions name object)) ∧
    (∀ name, (t₀.run actions).graph.contains (.identity name) ↔
      ∃ object, 0 < liveUses count actions name object) ∧
    (∀ object, (t₀.run actions).graph.contains (.object object) ↔
      ∃ name, 0 < liveUses count actions name object) ∧
    (∀ period, (t₀.run actions).rotate.1 = some period → ∀ done key amount rest,
      (done ++ (key, amount) :: rest).Perm period.edges.entries →
        ∃ weight, ((t₀.run actions).graph.expire done).2.weightOf key = some weight ∧
          amount ≤ weight) ∧
    (∀ idle, (∀ name object, uses name object idle = 0) → count + 1 ≤ prunes idle →
      (t₀.run (actions ++ idle)).graph.isEmpty ∧
        (t₀.run (actions ++ idle)).graph.edgeCount = 0 ∧
          (t₀.run (actions ++ idle)).graph.places = ∅) := by
  have htraced := Traced.run h actions
  refine ⟨?_, htraced.edgeWeight, ?_, ?_, ?_, ?_⟩
  · intro name objects
    by_cases haccepted : Action.accepted name objects
    · rw [record_of_accepted haccepted, haccepted]
      rfl
    · obtain ⟨fault, hrefused⟩ := @record_of_refused (t₀.run actions) name objects haccepted
      rw [hrefused, Bool.eq_false_iff.mpr haccepted]
      rfl
  · intro name
    rw [htraced.contains_iff]
    simp
  · intro object
    rw [htraced.contains_iff]
    simp
  · intro period hperiod done key amount rest horder
    exact htraced.amount_le hperiod horder
  · intro idle huses hidle
    exact (Traced.run h (actions ++ idle)).isEmpty (liveUses_idle huses hidle)

theorem window_exact_three_actions :
    ∃ t₀, ofCount 1 = .ok t₀ ∧
      (t₀.run [.record "a" [7, 7], .prune, .record "a" [7]]).graph.edgeWeight "a" 7 = some 2 ∧
      (t₀.run ([.record "a" [7, 7]] ++ [.prune, .prune])).graph.isEmpty := by
  have h : ofCount 1 = .ok ⟨∅, ∅, ⟨1, ∅, ∅⟩, ∅, .zero⟩ := rfl
  refine ⟨_, h, ?_, ?_⟩
  · rw [(window_exact h [.record "a" [7, 7], .prune, .record "a" [7]]).2.1]
    decide
  · exact ((window_exact h [.record "a" [7, 7]]).2.2.2.2.2 [.prune, .prune] (fun _ _ => rfl)
      (by decide)).1

end Tracker

end Cohort
