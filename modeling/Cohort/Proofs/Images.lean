import Cohort.Proofs.Connected
import Mathlib.Data.List.Sort
import Mathlib.Data.Set.Monotone

/-! Runs that go side by side. A visit looks at labels only to compare them and at sums of weights
only to compare them. So where the labels are others in the same order, and all weights are the same
multiple of what they were, it comes to the same choice and draws the same words, and one run is the
image of the other from the first visit to the last. -/

namespace Cohort

open Cohort.Random (Source)

namespace Tally

theorem share_image {κ κ' : Type} [Ord κ] [Std.TransOrd κ] [Std.LawfulEqOrd κ] [Ord κ']
    [Std.TransOrd κ'] [Std.LawfulEqOrd κ'] {f : κ → κ'} {k : Nat} {known : Set κ}
    {entries : List (κ × Nat)} (hf : Set.InjOn f known)
    (hentries : ∀ entry ∈ entries, entry.1 ∈ known) {key : κ} (hkey : key ∈ known) :
    share (f key) (entries.map (Prod.map f (k * ·))) = k * share key entries := by
  induction entries with
  | nil => rfl
  | cons entry rest ih =>
    obtain ⟨hentry, hrest⟩ := List.forall_mem_cons.mp hentries
    have hsame : compare (f entry.1) (f key) = .eq ↔ compare entry.1 key = .eq := by
      rw [Std.compare_eq_iff_eq, Std.compare_eq_iff_eq, hf.eq_iff hentry hkey]
    rw [List.map_cons, share_cons, share_cons, ih hrest, Nat.mul_add]
    simp only [Prod.map_fst, Prod.map_snd, hsame, mul_ite, Nat.mul_zero]

/-- A tally that counts the keys of another one under other names, and a multiple of what the other
one counts. -/
structure Image (f : Label → Label) (k : Nat) (known : Set Label) (t u : Tally Label) : Prop where
  count : ∀ label ∈ known, u.count (f label) = k * t.count label
  inside : ∀ label, 0 < t.count label → label ∈ known
  onto : ∀ label, 0 < u.count label → ∃ origin ∈ known, f origin = label

variable {f : Label → Label} {k : Nat} {known : Set Label} {t u : Tally Label}
  {votes : List (Label × Weight)}

theorem Image.mem_leaders (image : Image f k known t u) (hk : 0 < k) {label : Label}
    (hlabel : label ∈ known) : f label ∈ u.leaders ↔ label ∈ t.leaders := by
  rw [Tally.mem_leaders, Tally.mem_leaders, image.count label hlabel]
  constructor
  · rintro ⟨hpositive, hmost⟩
    refine ⟨Nat.pos_of_mul_pos_left hpositive, fun other => ?_⟩
    rcases Nat.eq_zero_or_pos (t.count other) with hzero | hother
    · exact hzero ▸ Nat.zero_le _
    · have hle := hmost (f other)
      rw [image.count other (image.inside other hother)] at hle
      exact Nat.le_of_mul_le_mul_left hle hk
  · rintro ⟨hpositive, hmost⟩
    refine ⟨Nat.mul_pos hk hpositive, fun other => ?_⟩
    rcases Nat.eq_zero_or_pos (u.count other) with hzero | hother
    · exact hzero ▸ Nat.zero_le _
    · obtain ⟨origin, horigin, rfl⟩ := image.onto other hother
      rw [image.count origin horigin]
      exact Nat.mul_le_mul_left k (hmost origin)

theorem Image.leaders_eq (image : Image f k known t u) (hk : 0 < k) (hf : StrictMonoOn f known) :
    u.leaders = t.leaders.map f := by
  have hknown {label : Label} (h : label ∈ t.leaders) : label ∈ known :=
    image.inside label (Tally.mem_leaders.mp h).1
  have hascends (t : Tally Label) : t.leaders.Pairwise (· < ·) :=
    t.ordered_leaders.imp Nat.compare_eq_lt.mp
  have hrenamed : (t.leaders.map f).Pairwise (· < ·) := by
    rw [List.pairwise_map]
    exact (hascends t).imp_of_mem fun h h' hlt => hf (hknown h) (hknown h') hlt
  refine (hascends u).eq_of_mem_iff hrenamed fun label => ?_
  rw [List.mem_map]
  constructor
  · intro h
    obtain ⟨origin, horigin, rfl⟩ := image.onto label (Tally.mem_leaders.mp h).1
    exact ⟨origin, (image.mem_leaders hk horigin).mp h, rfl⟩
  · rintro ⟨origin, h, rfl⟩
    exact (image.mem_leaders hk (hknown h)).mpr h

theorem image_ofList (hf : Set.InjOn f known) (hvotes : ∀ vote ∈ votes, vote.1 ∈ known) :
    Image f k known (ofList votes) (ofList (votes.map (Prod.map f (k * ·)))) where
  count label hlabel := by
    rw [count_ofList, count_ofList, share_image hf hvotes hlabel]
  inside label h := by
    rw [count_ofList] at h
    obtain ⟨vote, hvote, rfl⟩ := List.mem_map.mp (mem_keys_of_share_pos h)
    exact hvotes vote hvote
  onto label h := by
    rw [count_ofList] at h
    have hmem := mem_keys_of_share_pos h
    rw [List.map_map, List.mem_map] at hmem
    obtain ⟨vote, hvote, rfl⟩ := hmem
    exact ⟨vote.1, hvotes vote hvote, rfl⟩

end Tally

def Link.scale (k : Nat) (link : Link) : Link :=
  { link with weight := k * link.weight }

theorem Link.seenFrom_scale (k : Nat) (link : Link) (position : Nat) :
    (link.scale k).seenFrom position = (link.seenFrom position).map (Prod.map id (k * ·)) := by
  unfold seenFrom scale
  split
  · rfl
  · split <;> rfl

namespace SharingGraph

variable {g : SharingGraph}

def scale (g : SharingGraph) (k : Nat) : SharingGraph where
  vertices := g.vertices
  links := g.links.map (·.scale k)

@[simp] theorem vertices_scale (g : SharingGraph) (k : Nat) : (g.scale k).vertices = g.vertices :=
  rfl

@[simp] theorem scale_one (g : SharingGraph) : g.scale 1 = g := by
  refine SharingGraph.ext rfl ?_
  simp [scale, Link.scale]

theorem neighbours_scale (g : SharingGraph) (k position : Nat) :
    (g.scale k).neighbours position = (g.neighbours position).map (Prod.map id (k * ·)) := by
  have hrow : rowOf (g.links.map (·.scale k)) position =
      (rowOf g.links position).map (Prod.map id (k * ·)) := by
    simp only [rowOf, List.filterMap_map, Function.comp_def, Link.seenFrom_scale,
      List.map_filterMap]
  rw [neighbours_eq, neighbours_eq, apply_ite (List.map _), ← hrow]
  rfl

theorem votes_image (g : SharingGraph) (k : Nat) (f : Label → Label) (labels : Labels)
    (position : Nat) : (g.scale k).votes (labels.map f) position =
      (g.votes labels position).map (Prod.map f (k * ·)) := by
  rw [votes, neighbours_scale, List.filterMap_map, votes, List.map_filterMap]
  congr 1
  funext seen
  simp [Function.comp_def]

def Sweep.rename (f : Label → Label) (sweep : Sweep) : Sweep :=
  { sweep with labels := sweep.labels.map f }

section Image

variable {start labels : Labels} {f : Label → Label} {k : Nat}

theorem Spread.mem (spread : g.Spread start labels) {label : Label} (h : label ∈ labels) :
    label ∈ start := by
  obtain ⟨position, hlabel⟩ := Array.mem_iff_getElem?.mp h
  obtain ⟨origin, -, horigin⟩ := spread position label hlabel
  exact Array.mem_of_getElem? horigin

theorem Spread.mem_of_vote (spread : g.Spread start labels) {position : Nat}
    {vote : Label × Weight} (h : vote ∈ g.votes labels position) : vote.1 ∈ start := by
  obtain ⟨⟨other, _⟩, -, hlabel⟩ := List.mem_filterMap.mp h
  obtain ⟨found, hfound, rfl⟩ := Option.map_eq_some_iff.mp hlabel
  exact spread.mem (Array.mem_of_getElem? hfound)

theorem Spread.image_ballot (spread : g.Spread start labels)
    (hf : Set.InjOn f {label | label ∈ start}) (k position : Nat) :
    Tally.Image f k {label | label ∈ start} (g.ballot labels position)
      ((g.scale k).ballot (labels.map f) position) := by
  rw [ballot, ballot, votes_image]
  exact Tally.image_ofList hf fun vote => spread.mem_of_vote

variable (hk : 0 < k) (hf : StrictMonoOn f {label | label ∈ start})

include hk hf

/-- A visit on the other side finds the renamed leaders and draws as often. -/
theorem Spread.visit_image {sweep : Sweep} (spread : g.Spread start sweep.labels)
    (position : Nat) : (g.scale k).visit (sweep.rename f) position =
      (g.visit sweep position).rename f := by
  have image := spread.image_ballot hf.injOn k position
  have hlabel : (sweep.rename f).labels[position]? = sweep.labels[position]?.map f :=
    Array.getElem?_map
  unfold SharingGraph.visit
  rw [hlabel]
  cases hcurrent : sweep.labels[position]? with
  | none => rfl
  | some current =>
    have hleader := image.mem_leaders hk (spread.mem (Array.mem_of_getElem? hcurrent))
    simp only [Option.map_some, Sweep.rename, hleader]
    split
    · rfl
    · rw [image.leaders_eq hk hf, Source.choose_map]
      generalize sweep.source.choose (g.ballot sweep.labels position).leaders = choice
      obtain ⟨chosen, source⟩ := choice
      cases chosen with
      | none => rfl
      | some label => simp only [Option.map_some, Array.map_setIfInBounds]

theorem Spread.pass_image (spread : g.Spread start labels) (order : List Nat) (source : Source) :
    (g.scale k).pass order (labels.map f) source = (g.pass order labels source).rename f := by
  have hfold (sweep : Sweep) (hsweep : g.Spread start sweep.labels) :
      order.foldl (g.scale k).visit (sweep.rename f) = (order.foldl g.visit sweep).rename f := by
    induction order generalizing sweep with
    | nil => rfl
    | cons position rest ih =>
      rw [List.foldl_cons, List.foldl_cons, hsweep.visit_image hk hf]
      exact ih _ (hsweep.visit position)
  exact hfold ⟨labels, source, 0⟩ spread

end Image

end SharingGraph

namespace Run

variable {g : SharingGraph} {start : Labels} {f : Label → Label} {k : Nat} {run : Run}

def rename (f : Label → Label) (run : Run) : Run :=
  { run with labels := run.labels.map f }

variable (hk : 0 < k) (hf : StrictMonoOn f {label | label ∈ start})
  (spread : g.Spread start run.labels)

include hk hf spread

theorem step_image : (run.rename f).step (g.scale k) = (run.step g).rename f := by
  simp only [step, rename, spread.pass_image hk hf, SharingGraph.Sweep.rename]
  rfl

theorem upTo_image (passes : Nat) :
    (run.rename f).upTo (g.scale k) passes = (run.upTo g passes).rename f := by
  induction passes generalizing run with
  | zero => rfl
  | succ passes ih =>
    have houtcome : (run.rename f).outcome = run.outcome := rfl
    cases hconverged : run.outcome.converged with
    | true => rw [upTo_of_converged hconverged, upTo_of_converged (houtcome ▸ hconverged)]
    | false =>
      rw [upTo_succ hconverged, upTo_succ (houtcome ▸ hconverged), step_image hk hf spread]
      exact ih (spread.pass _ _)

end Run

theorem Method.run_image {k : Nat} (hk : 0 < k) {f : Label → Label} {labels : Labels}
    (hf : StrictMonoOn f {label | label ∈ labels}) (m : Method) (unseeded : Source)
    (g : SharingGraph) : m.run unseeded (g.scale k) (labels.map f) =
      (m.run unseeded g labels).rename f := by
  have hstart : Run.start (labels.map f) (m.source unseeded) =
      (Run.start labels (m.source unseeded)).rename f := by
    simp [Run.start, Run.rename]
  rw [run, hstart, Run.upTo_image hk hf (g.spread_refl labels), run]

end Cohort
