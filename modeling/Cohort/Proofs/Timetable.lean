import Cohort.Proofs.Requests
import Cohort.Sum
import Mathlib.Order.Basic

/-! The pruner does in the background what prunes at the right times would do. A plan does
without it: the same requests, but for start and shutdown, and a prune at every time that is a
multiple of the interval after a start, up to the next shutdown. -/

namespace Cohort

open Service (Request Answer)

/-- Whether the clock tells the first rotation of a pruner that is started at some time, and all of
them come at multiples of the interval. -/
structure Punctual (interval : Duration) (started : Nat) : Prop where
  due : (Pruner.mk interval started 0).isDue = true
  dueAt : ∀ rotation, (Pruner.mk interval started 0).dueAt rotation =
    started + (rotation + 1) * interval.nanos

section Punctual

variable {interval : Duration} {started : Nat}

theorem punctual_iff : Punctual interval started ↔
    interval.nanos ≤ Duration.longestWait.nanos ∧
      started + interval.nanos < Pruner.clockEnd := by
  constructor
  · intro punctual
    have hsecond : started + interval.nanos + 1 * interval.wait =
        started + (1 + 1) * interval.nanos := punctual.dueAt 1
    have hwait : interval.wait = interval.nanos := by omega
    refine ⟨?_, of_decide_eq_true punctual.due⟩
    rw [← hwait]
    exact Nat.min_le_right ..
  · rintro ⟨hshort, hdue⟩
    exact ⟨decide_eq_true hdue, Pruner.dueAt_eq hshort⟩

/-- So far there were as many rotations as intervals have passed since the start. -/
theorem Punctual.elapsed (punctual : Punctual interval started) (hticks : 0 < interval.nanos)
    (rotations now : Nat) :
    (Pruner.mk interval started rotations).elapsed now = (now - started) / interval.nanos := by
  apply eq_of_forall_lt_iff
  intro rotation
  have hlater : 0 < (rotation + 1) * interval.nanos := Nat.mul_pos (Nat.succ_pos _) hticks
  have hdue : (Pruner.mk interval started rotations).isDue = true := punctual.due
  have hdueAt : (Pruner.mk interval started rotations).dueAt rotation =
      started + (rotation + 1) * interval.nanos := punctual.dueAt rotation
  rw [Pruner.lt_elapsed_iff hdue hticks, hdueAt, Nat.lt_iff_add_one_le,
    Nat.le_div_iff_mul_le hticks]
  omega

end Punctual

def instants (interval started now stop : Nat) : List Nat :=
  (List.range' ((now - started) / interval + 1)
    ((stop - started) / interval - (now - started) / interval)).map (started + · * interval)

section Instants

variable {interval started now stop : Nat}

theorem mem_instants (hticks : 0 < interval) (hstarted : started ≤ now) {time : Nat} :
    time ∈ instants interval started now stop ↔
      (now < time ∧ time ≤ stop) ∧ ∃ n, 0 < n ∧ time = started + n * interval := by
  have hlater (n : Nat) : (now - started) / interval + 1 ≤ n ↔ now < started + n * interval := by
    rw [← Nat.lt_iff_add_one_le, Nat.div_lt_iff_lt_mul hticks]
    omega
  have hearlier (n : Nat) (hn : now < started + n * interval) :
      n ≤ (stop - started) / interval ↔ started + n * interval ≤ stop := by
    rw [Nat.le_div_iff_mul_le hticks]
    omega
  simp only [instants, List.mem_map, List.mem_range'_1]
  generalize (now - started) / interval = passed at hlater ⊢
  generalize (stop - started) / interval = last at hearlier ⊢
  constructor
  · rintro ⟨n, ⟨hfirst, hlast⟩, rfl⟩
    have hn := (hlater n).mp hfirst
    exact ⟨⟨hn, (hearlier n hn).mp (by omega)⟩, n, by omega, rfl⟩
  · rintro ⟨⟨hnow, hstop⟩, n, -, rfl⟩
    have hfirst := (hlater n).mpr hnow
    have hlast := (hearlier n hnow).mpr hstop
    exact ⟨n, ⟨hfirst, by omega⟩, rfl⟩

theorem sorted_instants (interval started now stop : Nat) :
    (instants interval started now stop).Pairwise (· ≤ ·) := by
  rw [instants, List.pairwise_map]
  refine (List.pairwise_lt_range' 1).imp fun {n m} hlt => ?_
  exact Nat.add_le_add_left (Nat.mul_le_mul_right interval (Nat.le_of_lt hlt)) started

theorem length_instants : (instants interval started now stop).length =
    (stop - started) / interval - (now - started) / interval := by
  rw [instants, List.length_map, List.length_range']

end Instants

/-- The time, and when the pruner was started if one is at work. -/
structure Agenda where
  now : Nat
  since : Option Nat

structure Errand where
  request : Request
  asked : Bool

namespace Errand

def ask (request : Request) : Errand :=
  ⟨request, true⟩

def insert (request : Request) : Errand :=
  ⟨request, false⟩

end Errand

namespace Agenda

def initial : Agenda :=
  ⟨0, none⟩

def next (g : Agenda) : Request → Agenda
  | .task _ => g
  | .startPruner => { g with since := g.since.or (some g.now) }
  | .sleep time => { g with now := g.now + time.wait }
  | .shutdown => { g with since := none }

def after (g : Agenda) (requests : List Request) : Agenda :=
  requests.foldl next g

def ticks (interval : Nat) (g : Agenda) (time : Duration) : List Nat :=
  match g.since with
  | none => []
  | some started => instants interval started g.now (g.now + time.wait)

def waits (stop : Nat) : Nat → List Nat → List Errand
  | now, [] => [.ask (.sleep ⟨stop - now⟩)]
  | now, time :: rest =>
    .insert (.sleep ⟨time - now⟩) :: .insert (.task (.step .prune)) :: waits stop time rest

def errands (interval : Nat) (g : Agenda) : Request → List Errand
  | .task t => [.ask (.task t)]
  | .sleep time => waits (g.now + time.wait) g.now (g.ticks interval time)
  | .startPruner => []
  | .shutdown => []

/-- The requests without start and shutdown, and a prune at every tick of a sleep. -/
def plan (interval : Nat) (g : Agenda) : List Request → List Errand
  | [] => []
  | request :: rest => g.errands interval request ++ (g.next request).plan interval rest

def span (g : Agenda) : List (Nat × Nat) :=
  g.since.toList.map fun started => (started, g.now)

def closes (g : Agenda) : Request → List (Nat × Nat)
  | .shutdown => g.span
  | _ => []

/-- The spans from the starts to the shutdowns after them, or to the end. -/
def spans (g : Agenda) : List Request → List (Nat × Nat)
  | [] => g.span
  | request :: rest => g.closes request ++ (g.next request).spans rest

def pruner (interval : Duration) (g : Agenda) : Option Pruner :=
  g.since.map fun started => ⟨interval, started, (g.now - started) / interval.nanos⟩

def clock (interval : Duration) (g : Agenda) : Service.Clock :=
  ⟨true, g.now, g.pruner interval⟩

def bareClock (g : Agenda) : Service.Clock :=
  ⟨true, g.now, none⟩

end Agenda

def intervalsIn (interval : Nat) (spans : List (Nat × Nat)) : Nat :=
  addUp (spans.map fun (started, stopped) => (stopped - started) / interval)

theorem intervalsIn_append (interval : Nat) (spans later : List (Nat × Nat)) :
    intervalsIn interval (spans ++ later) =
      intervalsIn interval spans + intervalsIn interval later := by
  rw [intervalsIn, List.map_append, addUp_append]
  rfl

namespace Tracker

theorem prunes_prune {t : Tracker} {n : Nat} (h : t.counters.prunes = UInt64.ofNat n) :
    (t.act .prune).counters.prunes = UInt64.ofNat (n + 1) := by
  obtain ⟨_, _, heq⟩ := t.act_prune
  rw [heq, UInt64.ofNat_add, ← h]
  rfl

theorem prunes_pruneTimes {t : Tracker} {n : Nat} (h : t.counters.prunes = UInt64.ofNat n)
    (times : Nat) : (t.pruneTimes times).counters.prunes = UInt64.ofNat (n + times) := by
  induction times generalizing t n with
  | zero => exact h
  | succ times ih =>
    rw [← Nat.add_assoc, Nat.add_right_comm]
    exact ih (prunes_prune h)

theorem prunes_act {t : Tracker} {n : Nat} (h : t.counters.prunes = UInt64.ofNat n)
    (a : Action) :
    (t.act a).counters.prunes = UInt64.ofNat (n + if a.isPrune then 1 else 0) := by
  cases a with
  | record name objects =>
    rw [act_record]
    split <;> exact h
  | conflict node object =>
    rw [act_conflict]
    split <;> exact h
  | removeNode node => exact h
  | fold =>
    unfold act fold
    cases t.graph.project <;> exact h
  | objectUse => exact h
  | prune => exact prunes_prune h

end Tracker

namespace Service

def transcript (s : Service) : List Errand → List Answer
  | [] => []
  | errand :: rest =>
    (if errand.asked then s.answer? errand.request else none).toList ++
      (s.serve errand.request).transcript rest

def follow (s : Service) (errands : List Errand) : Service :=
  s.serveAll (errands.map (·.request))

theorem follow_insert (s : Service) (request : Request) (rest : List Errand) :
    s.follow (.insert request :: rest) = (s.serve request).follow rest :=
  rfl

theorem transcript_insert (s : Service) (request : Request) (rest : List Errand) :
    s.transcript (.insert request :: rest) = (s.serve request).transcript rest :=
  rfl

theorem follow_append (s : Service) (errands rest : List Errand) :
    s.follow (errands ++ rest) = (s.follow errands).follow rest := by
  rw [follow, List.map_append]
  exact List.foldl_append

theorem transcript_append (s : Service) (errands rest : List Errand) :
    s.transcript (errands ++ rest) =
      s.transcript errands ++ (s.follow errands).transcript rest := by
  induction errands generalizing s with
  | nil => rfl
  | cons errand errands ih =>
    rw [List.cons_append, transcript, transcript, ih, List.append_assoc]
    rfl

def rotated (s : Service) (n : Nat) : Service :=
  { s with tracker := s.tracker.pruneTimes n }

theorem sleep_bare {s : Service} {now : Nat} (h : s.clock = ⟨true, now, none⟩) (time : Duration) :
    s.sleep time = s.withClock ⟨true, now + time.wait, none⟩ := by
  rw [← s.withClock_clock, h]
  rfl

/-- Sleeping and pruning by turns takes as long as sleeping, and makes the rotations. -/
theorem follow_waits {s : Service} {now stop : Nat} {times : List Nat}
    (hclock : s.clock = ⟨true, now, none⟩) (hsorted : times.Pairwise (· ≤ ·))
    (hinside : ∀ time ∈ times, now ≤ time ∧ time ≤ stop) (hnow : now ≤ stop)
    (hshort : stop - now ≤ Duration.longestWait.nanos) :
    s.follow (Agenda.waits stop now times) =
        (s.rotated times.length).withClock ⟨true, stop, none⟩ ∧
      s.transcript (Agenda.waits stop now times) = [] := by
  -- along the ticks, each of which the time is moved to before the prune
  induction times generalizing s now with
  | nil =>
    have hwait : now + Duration.wait ⟨stop - now⟩ = stop := by
      rw [Duration.wait_eq hshort]
      exact Nat.add_sub_cancel' hnow
    have hsleep := sleep_bare hclock ⟨stop - now⟩
    rw [hwait] at hsleep
    exact ⟨hsleep, rfl⟩
  | cons time rest ih =>
    obtain ⟨htime, hrest⟩ := List.forall_mem_cons.mp hinside
    obtain ⟨hfirst, hsorted⟩ := List.pairwise_cons.mp hsorted
    have hwait : now + Duration.wait ⟨time - now⟩ = time := by
      rw [Duration.wait_eq (Nat.le_trans (Nat.sub_le_sub_right htime.2 now) hshort)]
      exact Nat.add_sub_cancel' htime.1
    have hsleep := sleep_bare hclock ⟨time - now⟩
    rw [hwait] at hsleep
    have hpruned : ((s.serve (.sleep ⟨time - now⟩)).serve (.task (.step .prune))) =
        (s.rotated 1).withClock ⟨true, time, none⟩ := congrArg (·.prune.2) hsleep
    have hshorter : stop - time ≤ Duration.longestWait.nanos := by omega
    rw [Agenda.waits, follow_insert, follow_insert, transcript_insert, transcript_insert, hpruned]
    exact ih (s.rotated 1 |>.clock_withClock _) hsorted
      (fun later hmem => ⟨hfirst later hmem, (hrest later hmem).2⟩) htime.2 hshorter

/-- One service with the pruner of an agenda, and another that is the same without it. -/
structure Covers (interval : Duration) (g : Agenda) (s bare : Service) : Prop where
  interval_eq : bare.settings.interval = interval
  clock_eq : bare.clock = g.bareClock
  service_eq : s = bare.withClock (g.clock interval)

end Service

def Agenda.Timely (interval : Duration) (g : Agenda) : Prop :=
  ∀ started ∈ g.since, started ≤ g.now ∧ Punctual interval started

section Run

open Service

variable {interval : Duration} {g : Agenda} {s bare : Service}

theorem Agenda.Timely.next (timely : g.Timely interval) (hnow : Punctual interval g.now)
    (request : Request) : (g.next request).Timely interval := by
  intro started hsince
  cases request with
  | task t => exact timely started hsince
  | startPruner =>
    rcases Option.or_eq_some_iff.mp hsince with hsince | ⟨-, hsince⟩
    · exact timely started hsince
    · cases hsince
      exact ⟨Nat.le_refl _, hnow⟩
  | sleep time =>
    obtain ⟨hstarted, punctual⟩ := timely started hsince
    exact ⟨Nat.le_add_right_of_le hstarted, punctual⟩
  | shutdown => cases hsince

theorem Agenda.now_le_after (g : Agenda) (requests : List Request) :
    g.now ≤ (g.after requests).now := by
  induction requests generalizing g with
  | nil => exact Nat.le_refl _
  | cons request rest ih =>
    have hnext : g.now ≤ (g.next request).now := by
      cases request with
      | sleep time => exact Nat.le_add_right ..
      | _ => exact Nat.le_refl _
    exact Nat.le_trans hnext (ih _)

theorem intervalsIn_next_sleep (interval : Nat) (g : Agenda) (time : Duration) :
    intervalsIn interval g.span + (g.ticks interval time).length =
      intervalsIn interval (g.next (.sleep time)).span := by
  obtain ⟨now, since⟩ := g
  cases since with
  | none => rfl
  | some started =>
    have hpassed : (now - started) / interval ≤ (now + time.wait - started) / interval :=
      Nat.div_le_div_right (by omega)
    simp only [Agenda.ticks, length_instants]
    exact Nat.add_sub_cancel' hpassed

theorem sleep_withClock (timely : g.Timely interval) (hticks : 0 < interval.nanos) (s : Service)
    (time : Duration) : (s.withClock (g.clock interval)).sleep time =
      (s.rotated (g.ticks interval.nanos time).length).withClock
        ((g.next (.sleep time)).clock interval) := by
  obtain ⟨now, since⟩ := g
  cases since with
  | none => rfl
  | some started =>
    obtain ⟨-, punctual⟩ := timely started rfl
    have helapsed := punctual.elapsed hticks ((now - started) / interval.nanos) (now + time.wait)
    simp only [Agenda.ticks, length_instants, ← helapsed]
    simp only [Service.sleep, Pruner.catchUp, Service.withClock, Agenda.clock, Agenda.pruner,
      Option.map_some, Agenda.next, rotated, helapsed]

theorem ticks_inside (timely : g.Timely interval) (hticks : 0 < interval.nanos) (time : Duration) :
    ∀ tick ∈ g.ticks interval.nanos time, g.now ≤ tick ∧ tick ≤ g.now + time.wait := by
  intro tick hmem
  unfold Agenda.ticks at hmem
  split at hmem
  next => cases hmem
  next started hsince =>
    obtain ⟨⟨hnow, hstop⟩, -⟩ := (mem_instants hticks (timely started hsince).1).mp hmem
    exact ⟨Nat.le_of_lt hnow, hstop⟩

theorem sorted_ticks (interval : Nat) (g : Agenda) (time : Duration) :
    (g.ticks interval time).Pairwise (· ≤ ·) := by
  unfold Agenda.ticks
  split
  next => exact .nil
  next => exact sorted_instants ..

namespace Service

theorem isPruning_withClock (timely : g.Timely interval) (s : Service) :
    (s.withClock (g.clock interval)).isPruning = g.since.isSome := by
  obtain ⟨now, since⟩ := g
  cases since with
  | none => rfl
  | some started =>
    obtain ⟨-, punctual⟩ := timely started rfl
    exact Bool.or_eq_true_iff.mpr (.inl punctual.due)

theorem startPruner_withClock (timely : g.Timely interval) (hticks : 0 < interval.nanos)
    (hinterval : s.settings.interval = interval) :
    (s.withClock (g.clock interval)).startPruner =
      .ok (s.withClock ((g.next .startPruner).clock interval)) := by
  unfold startPruner
  rw [isPruning_withClock timely]
  obtain ⟨now, since⟩ := g
  cases since with
  | none =>
    have hzero : interval.isZero = false := beq_eq_false_iff_ne.mpr (Nat.ne_of_gt hticks)
    simp [withClock, Agenda.clock, Agenda.pruner, Agenda.next, Pruner.start, hinterval, hzero, bind,
      Except.bind, pure, Except.pure]
  | some started => rfl

namespace Covers

theorem serve (covers : Covers interval g s bare) (timely : g.Timely interval)
    (hticks : 0 < interval.nanos) (request : Request) :
    Covers interval (g.next request) (s.serve request)
        (bare.follow (g.errands interval.nanos request)) ∧
      bare.transcript (g.errands interval.nanos request) = (s.answer? request).toList := by
  obtain ⟨hinterval, hbare, rfl⟩ := covers
  cases request with
  | task t =>
    refine ⟨⟨?_, ?_, bare.perform_withClock _ t⟩, ?_⟩
    · rw [← hinterval, ← bare.settings_perform t]
      rfl
    · exact (bare.clock_perform t).trans hbare
    · rw [answer?, answer_withClock]
      rfl
  | startPruner =>
    refine ⟨⟨hinterval, hbare, ?_⟩, rfl⟩
    rw [Service.serve, startPruner_withClock timely hticks hinterval]
    rfl
  | sleep time =>
    have hshort : g.now + time.wait - g.now ≤ Duration.longestWait.nanos := by
      rw [Nat.add_sub_cancel_left]
      exact Nat.min_le_right ..
    obtain ⟨hfollow, htranscript⟩ := follow_waits hbare (sorted_ticks interval.nanos g time)
      (ticks_inside timely hticks time) (Nat.le_add_right ..) hshort
    refine ⟨⟨?_, ?_, ?_⟩, htranscript⟩
    · rw [Agenda.errands, hfollow]
      exact hinterval
    · rw [Agenda.errands, hfollow]
      rfl
    · rw [Agenda.errands, hfollow]
      exact sleep_withClock timely hticks bare time
  | shutdown => exact ⟨⟨hinterval, hbare, rfl⟩, rfl⟩

theorem serveAll {requests : List Request} (covers : Covers interval g s bare)
    (timely : g.Timely interval) (hticks : 0 < interval.nanos)
    (hclock : ∀ started ≤ (g.after requests).now, Punctual interval started) :
    Covers interval (g.after requests) (s.serveAll requests)
        (bare.follow (g.plan interval.nanos requests)) ∧
      (g.after requests).Timely interval ∧
      s.transcript (requests.map .ask) = bare.transcript (g.plan interval.nanos requests) := by
  induction requests generalizing g s bare with
  | nil => exact ⟨covers, timely, rfl⟩
  | cons request rest ih =>
    have hnow : Punctual interval g.now := hclock g.now (g.now_le_after (request :: rest))
    obtain ⟨hserved, hanswer⟩ := covers.serve timely hticks request
    obtain ⟨hcovers, htimely, htranscript⟩ := ih hserved (timely.next hnow request) hclock
    rw [Agenda.plan, follow_append, transcript_append, hanswer, ← htranscript]
    exact ⟨hcovers, htimely, rfl⟩

end Covers

theorem prunes_perform {n : Nat} (h : s.tracker.counters.prunes = UInt64.ofNat n) (t : Task) :
    (s.perform t).tracker.counters.prunes =
      UInt64.ofNat (n + if (Request.task t).isPrune then 1 else 0) := by
  cases t with
  | step a =>
    have hact := Tracker.prunes_act h a.action
    rw [← (s.step_cases a).1] at hact
    cases a <;> exact hact
  | register observer =>
    rw [← (s.register_cases observer).1] at h
    exact h
  | look => exact h

theorem prunes_serve {n : Nat} (timely : g.Timely interval) (hticks : 0 < interval.nanos)
    (hinterval : s.settings.interval = interval)
    (h : s.tracker.counters.prunes = UInt64.ofNat (n + intervalsIn interval.nanos g.span))
    (request : Request) :
    ((s.withClock (g.clock interval)).serve request).tracker.counters.prunes =
      UInt64.ofNat (n + (if request.isPrune then 1 else 0) +
        intervalsIn interval.nanos (g.closes request) +
          intervalsIn interval.nanos (g.next request).span) := by
  cases request with
  | task t =>
    have hperform := prunes_perform h t
    rw [Nat.add_right_comm] at hperform
    rw [serve, perform_withClock]
    exact hperform
  | startPruner =>
    rw [serve, startPruner_withClock timely hticks hinterval]
    obtain ⟨now, since⟩ := g
    cases since with
    | none =>
      have hfresh : intervalsIn interval.nanos [(now, now)] = 0 := by simp [intervalsIn]
      exact h.trans (congrArg (fun k => UInt64.ofNat (n + k)) hfresh.symm)
    | some started => exact h
  | sleep time =>
    rw [serve, sleep_withClock timely hticks]
    refine (Tracker.prunes_pruneTimes h _).trans ?_
    rw [Nat.add_assoc, intervalsIn_next_sleep]
    rfl
  | shutdown => exact h

theorem Covers.prunes_serveAll {requests : List Request} {n : Nat}
    (covers : Covers interval g s bare) (timely : g.Timely interval) (hticks : 0 < interval.nanos)
    (hclock : ∀ started ≤ (g.after requests).now, Punctual interval started)
    (h : s.tracker.counters.prunes = UInt64.ofNat (n + intervalsIn interval.nanos g.span)) :
    (s.serveAll requests).tracker.counters.prunes =
      UInt64.ofNat (n + requests.countP (·.isPrune) +
        intervalsIn interval.nanos (g.spans requests)) := by
  -- rotations in a span that is still open count with the span, and `n` has all the others
  induction requests generalizing g s bare n with
  | nil => exact h
  | cons request rest ih =>
    have hnow : Punctual interval g.now := hclock g.now (g.now_le_after (request :: rest))
    have hserved := (covers.serve timely hticks request).1
    have hcount : (s.serve request).tracker.counters.prunes =
        UInt64.ofNat (n + (if request.isPrune then 1 else 0) +
          intervalsIn interval.nanos (g.closes request) +
            intervalsIn interval.nanos (g.next request).span) := by
      obtain ⟨hinterval, -, rfl⟩ := covers
      exact prunes_serve timely hticks hinterval h request
    have hrest := ih hserved (timely.next hnow request) hclock hcount
    rw [List.countP_cons, Agenda.spans, intervalsIn_append]
    refine hrest.trans (congrArg UInt64.ofNat ?_)
    omega

end Service

end Run

namespace Service

/-- A punctual pruner does what prunes at the right times would do, one for every whole interval
from a start to the next shutdown. -/
theorem pruner_as_planned {settings : Settings} {s₀ : Service}
    (h : ofSettings settings true = .ok s₀) (requests : List Request)
    (hclock : ∀ started ≤ (Agenda.initial.after requests).now,
      Punctual settings.interval started) :
    let g := Agenda.initial.after requests
    let plan := Agenda.initial.plan settings.interval.nanos requests
    s₀.transcript (requests.map .ask) = s₀.transcript plan ∧
    (s₀.serveAll requests).shutdown = s₀.follow plan ∧
    (s₀.serveAll requests).clock = g.clock settings.interval ∧
    (s₀.serveAll requests).isPruning = g.since.isSome ∧
    (s₀.serveAll requests).startPruner = .ok ((s₀.serveAll requests).serve .startPruner) ∧
    (g.since.isSome → (s₀.serveAll requests).serve .startPruner = s₀.serveAll requests) ∧
    (s₀.serveAll requests).tracker.counters.prunes =
      UInt64.ofNat (requests.countP (·.isPrune) +
        intervalsIn settings.interval.nanos (Agenda.initial.spans requests)) := by
  have hticks := interval_pos_of_ofSettings h
  obtain ⟨hsettings, htracker⟩ := ofSettings_eq_ok h
  have hfresh : s₀.clock = Agenda.initial.clock settings.interval := clock_of_ofSettings h
  have timely : Agenda.initial.Timely settings.interval := fun _ hsince => nomatch hsince
  have covers : Covers settings.interval .initial s₀ s₀ := by
    refine ⟨congrArg Settings.interval hsettings, hfresh, ?_⟩
    rw [← hfresh, withClock_clock]
  have hprunes : s₀.tracker.counters.prunes = UInt64.ofNat 0 := by
    obtain ⟨_, -, heq⟩ := Tracker.ofCount_eq_ok htracker
    rw [heq]
    rfl
  have hcount := covers.prunes_serveAll timely hticks hclock hprunes
  rw [Nat.zero_add] at hcount
  obtain ⟨⟨hinterval, hbare, hservice⟩, htimely, htranscript⟩ :=
    covers.serveAll timely hticks hclock
  have hstart := startPruner_withClock htimely hticks hinterval
  rw [← hservice] at hstart
  intro g plan
  have hserve : (s₀.serveAll requests).serve .startPruner =
      (s₀.follow plan).withClock ((g.next .startPruner).clock settings.interval) := by
    rw [serve, hstart]
  refine ⟨htranscript, ?_, ?_, ?_, ?_, ?_, hcount⟩
  · calc (s₀.serveAll requests).shutdown
        = (s₀.follow plan).withClock g.bareClock := by rw [hservice]; rfl
      _ = s₀.follow plan := by rw [← hbare, withClock_clock]
  · rw [hservice]
    exact clock_withClock ..
  · rw [hservice]
    exact isPruning_withClock htimely _
  · rw [hserve]
    exact hstart
  · intro hrunning
    obtain ⟨started, hsince⟩ := Option.isSome_iff_exists.mp hrunning
    have hnext : g.next .startPruner = g := by
      rw [Agenda.next, hsince, Option.some_or, ← hsince]
    rw [hserve, hnext, ← hservice]

theorem pruner_as_planned_restarted : ∃ s₀, ofSettings Settings.testing true = .ok s₀ ∧
    let requests := [.startPruner, .sleep (.ofMillis 30), .startPruner, .sleep (.ofMillis 25),
      .task (.step (.record "a" [1])), .shutdown, .sleep (.ofMillis 50), .startPruner,
      .sleep (.ofMillis 15)]
    (∀ started ≤ (Agenda.initial.after requests).now,
      Punctual Settings.testing.interval started) ∧
    Agenda.initial.spans requests = [(0, 55000000), (105000000, 120000000)] ∧
    (s₀.serveAll requests).isPruning = true ∧
    (s₀.serveAll requests).tracker.counters.prunes = 2 := by
  have h : ofSettings Settings.testing true = .ok _ := rfl
  refine ⟨_, h, ?_⟩
  intro requests
  have hnow : (Agenda.initial.after requests).now = 120000000 := by decide
  have hclock : ∀ started ≤ (Agenda.initial.after requests).now,
      Punctual Settings.testing.interval started := by
    intro started hstarted
    rw [punctual_iff]
    have hinterval : Settings.testing.interval.nanos = 20000000 := rfl
    have hlongest : Duration.longestWait.nanos = 946080000000000000 := rfl
    have hend : Pruner.clockEnd = 9223372036854775748000000000 := rfl
    omega
  have hspans : Agenda.initial.spans requests = [(0, 55000000), (105000000, 120000000)] := by
    decide
  obtain ⟨-, -, -, hpruning, -, -, hprunes⟩ := pruner_as_planned h requests hclock
  refine ⟨hclock, hspans, ?_, ?_⟩
  · rw [hpruning]
    decide
  · rw [hprunes, hspans]
    decide

end Service

end Cohort
