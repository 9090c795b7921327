import Cohort.Proofs.AccessGraph.Histories
import Cohort.Proofs.Arena.Courses

/-! The moments of a history, those inside a change included. From one to the next at most one
thing is done to each arena, so that neither of them outgrows the largest number of vertices or
edges that there ever were at once. -/

namespace Cohort.AccessGraph

def connecting (g : AccessGraph) (left right : VertexKey) : List AccessGraph :=
  let (key, edges) := g.edges.insert ⟨left, right, Weight.initial⟩
  let g := { g with edges, index := g.index.insert (left, right) key }
  [g, { g with hubs := attach g.hubs left key }]

def dropEdge (g : AccessGraph) (key : EdgeKey) (edge : AccessEdge) : AccessGraph :=
  { g with
    edges := g.edges.remove key
    index := g.index.erase (edge.identity, edge.object) }

def unlist (g : AccessGraph) (vertex : VertexKey) (edge : EdgeKey) : AccessGraph :=
  { g with hubs := g.hubs.modify vertex fun hub =>
      { hub with edges := hub.edges.filter (· ≠ edge) } }

def cutting (g : AccessGraph) (key : EdgeKey) (edge : AccessEdge) : List AccessGraph :=
  let bare := g.dropEdge key edge
  let half := (bare.detach edge.identity key).2
  [bare, bare.unlist edge.identity key, half, half.unlist edge.object key]

/-- The graphs between the beginning and the end of a change. -/
def midway (g : AccessGraph) : Change → List AccessGraph
  | .increment name object =>
    [(g.ensure (.identity name)).2, g.settle name object] ++
      match g.index[g.sidesOf name object]?.filter fun key => (g.edges.get? key).isSome with
      | some _ => []
      | none => (g.settle name object).connecting (g.sidesOf name object).1
          (g.sidesOf name object).2
  | .decay key amount =>
    match g.edges.get? key with
    | some edge => if amount < edge.weight then [] else g.cutting key edge
    | none => []

def course (g : AccessGraph) : List Change → List AccessGraph
  | [] => [g]
  | c :: rest => g :: (g.midway c ++ (g.change c).course rest)

/-- The graphs that a history has passed through since the graph was empty. -/
def passed (history : List Change) : List AccessGraph :=
  (∅ : AccessGraph).course history

structure Stride (g h : AccessGraph) : Prop where
  hubs : g.hubs.Step h.hubs
  edges : g.edges.Step h.edges

section Stride

variable {g : AccessGraph}

theorem stride_ensure (vertex : Vertex) : Stride g (g.ensure vertex).2 where
  hubs := by
    cases h : g.places[vertex]? with
    | none =>
      rw [ensure_of_none vertex h]
      exact .insert _
    | some key =>
      rw [ensure_of_some vertex h]
      exact .rest
  edges := by
    rw [edges_ensure]
    exact .rest

theorem isChain_connecting (left right : VertexKey) :
    (g :: (g.connecting left right ++ [(g.connect left right).2])).IsChain Stride := by
  simp only [connecting, List.cons_append, List.nil_append, List.isChain_cons_cons,
    List.IsChain.singleton, and_true]
  exact ⟨⟨.rest, .insert _⟩, ⟨.modify _ _, .rest⟩, ⟨.modify _ _, .rest⟩⟩

theorem isChain_detach (vertex : VertexKey) (edge : EdgeKey) :
    [g, g.unlist vertex edge, (g.detach vertex edge).2].IsChain Stride := by
  simp only [List.isChain_cons_cons, List.IsChain.singleton, and_true]
  refine ⟨⟨.modify _ _, .rest⟩, ?_, ?_⟩
  · by_cases hlast : ∃ hub, g.hubs.get? vertex = some hub ∧ hub.without edge = none
    · obtain ⟨hub, hget, hnone⟩ := hlast
      rw [detach_of_last hget hnone]
      exact .remove _
    · rw [detach_of_rest fun hub hget hnone => hlast ⟨hub, hget, hnone⟩]
      exact .rest
  · rw [edges_detach]
    exact .rest

theorem isChain_cutting (key : EdgeKey) (edge : AccessEdge) :
    (g :: (g.cutting key edge ++ [g.cut key edge])).IsChain Stride := by
  have hbare : Stride g (g.dropEdge key edge) := ⟨.rest, .remove key⟩
  have hidentity := @isChain_detach (g.dropEdge key edge) edge.identity key
  have hobject := @isChain_detach ((g.dropEdge key edge).detach edge.identity key).2
    edge.object key
  have hcut : g.cut key edge =
      (((g.dropEdge key edge).detach edge.identity key).2.detach edge.object key).2 := rfl
  simp only [cutting, hcut, List.cons_append, List.nil_append, List.isChain_cons_cons,
    List.IsChain.singleton, and_true] at hidentity hobject ⊢
  exact ⟨hbare, hidentity.1, hidentity.2, hobject⟩

/-- A change gets from its beginning to its end by one thing after another. -/
theorem isChain_midway (c : Change) : (g :: (g.midway c ++ [g.change c])).IsChain Stride := by
  cases c with
  | increment name object =>
    have hname := @stride_ensure g (.identity name)
    have hobject := @stride_ensure (g.ensure (.identity name)).2 (.object object)
    simp only [midway, change, increment_eq, List.cons_append, List.nil_append,
      List.isChain_cons_cons]
    refine ⟨hname, hobject, ?_⟩
    cases g.index[g.sidesOf name object]?.filter fun key => (g.edges.get? key).isSome with
    | none => exact isChain_connecting _ _
    | some key =>
      refine .cons_cons ⟨.rest, ?_⟩ (.singleton _)
      rw [edges_settle]
      exact .modify _ _
  | decay key amount =>
    cases hget : g.edges.get? key with
    | none =>
      simp only [midway, change, decay, hget]
      exact .cons_cons ⟨.rest, .rest⟩ (.singleton _)
    | some edge =>
      by_cases hless : amount < edge.weight
      · simp only [midway, change, decay, hget, hless, if_true]
        exact .cons_cons ⟨.rest, .modify _ _⟩ (.singleton _)
      · simp only [midway, change, decay, hget, hless, if_false]
        exact isChain_cutting key edge

theorem course_eq_cons (history : List Change) : ∃ tail, g.course history = g :: tail := by
  cases history <;> exact ⟨_, rfl⟩

theorem isChain_course (history : List Change) : (g.course history).IsChain Stride := by
  induction history generalizing g with
  | nil => exact .singleton g
  | cons c rest ih =>
    obtain ⟨tail, htail⟩ := @course_eq_cons (g.change c) rest
    rw [course, htail, ← List.cons_append, List.isChain_split, List.cons_append, ← htail]
    exact ⟨isChain_midway c, ih⟩

theorem getLast?_course (history : List Change) :
    (g.course history).getLast? = some (history.foldl change g) := by
  induction history generalizing g with
  | nil => rfl
  | cons c rest ih =>
    rw [course, List.getLast?_cons, List.getLast?_append, ih]
    rfl

end Stride

theorem course_passed (history : List Change) (n : Nat) (h : n < (passed history).length) :
    Arena.Course (((passed history).take n).map (·.edges)) (passed history)[n].edges ∧
      Arena.Course (((passed history).take n).map (·.hubs)) (passed history)[n].hubs := by
  have chain : (passed history).IsChain Stride := isChain_course history
  obtain ⟨tail, htail⟩ : ∃ tail, passed history = ∅ :: tail := course_eq_cons history
  exact ⟨Arena.course_take (·.edges) (chain.imp fun _ _ => Stride.edges) (by rw [htail]; rfl) n h,
    Arena.course_take (·.hubs) (chain.imp fun _ _ => Stride.hubs) (by rw [htail]; rfl) n h⟩

/-- At every moment of a history each arena has no more slots than it once needed at the same time,
and the slot freed last is filled first. A key that does not resolve changes nothing. -/
theorem arenas_thrifty (history : List Change) :
    (passed history).getLast? = some (after history) ∧ (passed history).IsChain Stride ∧
    ∀ (n : Nat) (h : n < (passed history).length),
      Arena.Thrifty (((passed history).take (n + 1)).map (·.edges)) (passed history)[n].edges ∧
      Arena.Thrifty (((passed history).take (n + 1)).map (·.hubs)) (passed history)[n].hubs ∧
      ∀ key amount, (passed history)[n].weightOf key = none →
        (passed history)[n].decay key amount = (.missing, (passed history)[n]) := by
  refine ⟨getLast?_course history, isChain_course history, fun n h => ?_⟩
  obtain ⟨hedges, hhubs⟩ := course_passed history n h
  rw [List.take_succ_eq_append_getElem h, List.map_append, List.map_append]
  exact ⟨hedges.thrifty, hhubs.thrifty, fun key amount hgone => decay_of_weightOf_eq_none hgone⟩

theorem arenas_thrifty_refilled : ∃ (moments : List AccessGraph) (_ : 21 < moments.length),
    moments = passed [.increment "a" 1, .increment "b" 1, .decay ⟨0, 0⟩ 1, .decay ⟨1, 0⟩ 1,
      .decay ⟨0, 0⟩ 1, .increment "c" 1] ∧
    (((moments.take 22).map (·.edges)).map Arena.occupied).max? = some 2 ∧
    (((moments.take 22).map (·.hubs)).map Arena.occupied).max? = some 3 ∧
    Arena.FreedLast ((moments.take 22).map (·.edges)) moments[21].edges 1 ∧
    Arena.FreedLast ((moments.take 22).map (·.hubs)) moments[21].hubs 1 ∧
    moments[21].decay ⟨0, 0⟩ 1 = (.missing, moments[21]) := by
  obtain ⟨hedges, hhubs, hstale⟩ := (arenas_thrifty [.increment "a" 1, .increment "b" 1,
    .decay ⟨0, 0⟩ 1, .decay ⟨1, 0⟩ 1, .decay ⟨0, 0⟩ 1, .increment "c" 1]).2.2 21 (by decide)
  exact ⟨_, by decide, rfl, hedges.peak, hhubs.peak,
    (hedges.reuse ⟨⟨1, 1⟩, ⟨2, 1⟩, 1⟩ 0 ⟨_, rfl, rfl⟩).2,
    (hhubs.reuse ⟨.identity "c", #[]⟩ 0 ⟨_, rfl, rfl⟩).2, hstale _ _ (by decide)⟩

end Cohort.AccessGraph
