import SearchArgument.Metrics.Recorder

/-! Where the events of an activity go. Whatever the nesting of its scopes, running it is posting
its events one after the other, each to the sink of the innermost scope around it or, outside all
scopes, to the counters. A capped counter holds the exact sum of what was added to it or, once that
sum is out of reach, its largest value, in whatever order the summands came. -/

namespace SearchArgument

/-! ### Counters -/

theorem toNat_addCapped (c : UInt64) (n : Nat) :
    (addCapped c n).toNat = min Counter.largest (c.toNat + n) := by
  rw [addCapped, UInt64.toNat_ofNat']
  exact Nat.mod_eq_of_lt (Nat.lt_of_le_of_lt (Nat.min_le_left _ _) (by decide))

/-- A counter that nothing is added to stays as it is. -/
theorem min_toNat (c : UInt64) : min Counter.largest c.toNat = c.toNat :=
  Nat.min_eq_right (Nat.le_sub_one_of_lt c.toNat_lt_size)

theorem Counters.get_zero (k : Counter) : zero.get k = 0 := by
  cases k with
  | evaluations e => cases e <;> rfl
  | termsMerged | boundsDiscretized | emptyResults => rfl

/-- One event adds to each counter what it is worth there, up to the cap. -/
theorem Counters.toNat_get_count (c : Counters) (e : Event) (k : Counter) :
    ((c.count e).get k).toNat = min Counter.largest ((c.get k).toNat + e.adds k) := by
  cases e with
  | evaluated v =>
    cases k with
    | evaluations v' =>
      cases v <;> cases v' <;> simp [count, get, Event.adds, toNat_addCapped, min_toNat]
    | termsMerged | boundsDiscretized | emptyResults =>
      cases v <;> simp [count, get, Event.adds, min_toNat]
  | merged | discretized | emptyResult =>
    cases k with
    | evaluations v => cases v <;> simp [count, get, Event.adds, min_toNat]
    | termsMerged | boundsDiscretized | emptyResults =>
      simp [count, get, Event.adds, toNat_addCapped, min_toNat]

/-- A capped sum may be capped on the way. -/
theorem min_add_min (cap a b : Nat) : min cap (min cap a + b) = min cap (a + b) := by omega

theorem Counters.toNat_get_countAll (c : Counters) (es : List Event) (k : Counter) :
    ((es.foldl count c).get k).toNat =
      min Counter.largest ((c.get k).toNat + Event.total es k) := by
  induction es generalizing c with
  | nil => exact (min_toNat _).symm
  | cons e es ih =>
    have hsum : Event.total (e :: es) k = e.adds k + Event.total es k := rfl
    rw [List.foldl_cons, ih, toNat_get_count, min_add_min, hsum, Nat.add_assoc]

namespace Recorder

variable {r : Recorder}

/-! ### Posting -/

/-- Hands an event to a sink, or to the counters. -/
def post (r : Recorder) : Option Nat × Event → Recorder
  | (none, e) => { r with counters := r.counters.count e }
  | (some sink, e) => { r with delivered := r.delivered ++ [(sink, e)] }

def postAll (r : Recorder) (ps : List (Option Nat × Event)) : Recorder := ps.foldl post r

theorem record_eq_post (r : Recorder) (e : Event) : r.record e = r.post (r.installed, e) := by
  obtain ⟨_, _ | sink, _⟩ := r <;> rfl

theorem postAll_append (r : Recorder) (ps qs : List (Option Nat × Event)) :
    r.postAll (ps ++ qs) = (r.postAll ps).postAll qs :=
  List.foldl_append

/-- Posting neither looks at the installed sink nor changes it. -/
theorem install_post (r : Recorder) (p : Option Nat × Event) (i : Option Nat) :
    { r.post p with installed := i } = ({ r with installed := i } : Recorder).post p := by
  obtain ⟨_ | sink, e⟩ := p <;> rfl

theorem install_postAll (r : Recorder) (ps : List (Option Nat × Event)) (i : Option Nat) :
    { r.postAll ps with installed := i } =
      ({ r with installed := i } : Recorder).postAll ps := by
  induction ps generalizing r with
  | nil => rfl
  | cons p ps ih =>
    show { (r.post p).postAll ps with installed := i } = _
    rw [ih, install_post]
    rfl

theorem installed_postAll (r : Recorder) (ps : List (Option Nat × Event)) :
    (r.postAll ps).installed = r.installed := by
  rw [← install_postAll r ps r.installed]

/-- A sink gets the events that are posted to it, behind those that it has. -/
theorem received_postAll (r : Recorder) (ps : List (Option Nat × Event)) (sink : Nat) :
    (r.postAll ps).received sink =
      r.received sink ++ (ps.filter (·.1 = some sink)).map (·.2) := by
  induction ps generalizing r with
  | nil => exact (List.append_nil _).symm
  | cons p ps ih =>
    show ((r.post p).postAll ps).received sink = _
    rw [ih]
    obtain ⟨_ | sink', e⟩ := p
    · rfl
    · by_cases h : sink' = sink <;> simp [received, post, h]

/-- The counters count the events that are posted to no sink. -/
theorem counters_postAll (r : Recorder) (ps : List (Option Nat × Event)) :
    (r.postAll ps).counters =
      ((ps.filter (·.1 = none)).map (·.2)).foldl Counters.count r.counters := by
  induction ps generalizing r with
  | nil => rfl
  | cons p ps ih =>
    show ((r.post p).postAll ps).counters = _
    rw [ih]
    obtain ⟨_ | sink, e⟩ := p <;> rfl

end Recorder

namespace Activity

/-! ### Running -/

mutual

/-- An activity posts its events as its scopes have them, and leaves the sink that it found. -/
theorem run_eq_postAll : ∀ (a : Activity) (r : Recorder),
    a.run.run r = ((), r.postAll (a.events r.installed))
  | record e, r => congrArg (Prod.mk ()) (r.record_eq_post e)
  | scope sink body, r => by
    have hbody := runAll_eq_postAll body { r with installed := some sink }
    have hrun : (scope sink body).run.run r =
        ((), { ((runAll body).run { r with installed := some sink }).2 with
          installed := r.installed }) := rfl
    rw [hrun, hbody, Recorder.install_postAll]
    rfl

theorem runAll_eq_postAll : ∀ (as : List Activity) (r : Recorder),
    (runAll as).run r = ((), r.postAll (allEvents r.installed as))
  | [], r => rfl
  | a :: as, r => by
    have hrun : (runAll (a :: as)).run r = (runAll as).run (a.run.run r).2 := rfl
    rw [hrun, run_eq_postAll a r, runAll_eq_postAll as, Recorder.installed_postAll, allEvents,
      Recorder.postAll_append]

end

/-- Without a sink outside and from counters at zero, an activity leaves no sink installed, each
sink gets the events of its own scopes in order, and each counter ends at the exact sum of what lies
outside all scopes, or at its largest value. -/
theorem run_routes_events (as : List Activity) {r : Recorder} (h : r.installed = none) :
    ((runAll as).run r.reset).2.installed = none ∧
    (∀ sink, ((runAll as).run r.reset).2.received sink =
      r.received sink ++ eventsFor (some sink) as) ∧
    ∀ k, (((runAll as).run r.reset).2.counters.get k).toNat =
      min Counter.largest (Event.total (eventsFor none as) k) := by
  have hreset : r.reset.installed = none := h
  rw [runAll_eq_postAll, hreset]
  refine ⟨?_, fun sink => ?_, fun k => ?_⟩
  · rw [Recorder.installed_postAll, hreset]
  · exact Recorder.received_postAll _ _ sink
  · rw [Recorder.counters_postAll, Counters.toNat_get_countAll]
    have hzero : (r.reset.counters.get k).toNat = 0 :=
      congrArg UInt64.toNat (Counters.get_zero k)
    rw [hzero, Nat.zero_add]
    rfl

/-- Merges beyond the largest counter, around a scope in which the first sink takes over again from
a second one. -/
def takingTurns : List Activity :=
  [record (.merged Counter.largest),
    scope 1 [record .emptyResult,
      scope 2 [record .discretized, scope 1 [record (.merged 7)], record .discretized],
      record (.evaluated .union)],
    record (.merged 5), record (.evaluated .complement)]

theorem run_routes_events_takingTurns :
    let r := ((runAll takingTurns).run Recorder.fresh.reset).2
    r.installed = none ∧ r.received 1 = [.emptyResult, .merged 7, .evaluated .union] ∧
      r.received 2 = [.discretized, .discretized] ∧
      (r.counters.get .termsMerged).toNat = Counter.largest ∧
      (r.counters.get (.evaluations .complement)).toNat = 1 ∧
      (r.counters.get .boundsDiscretized).toNat = 0 := by
  intro r
  obtain ⟨hnone, hsinks, hcounters⟩ := run_routes_events takingTurns (r := .fresh) rfl
  exact ⟨hnone, hsinks 1, hsinks 2, (hcounters .termsMerged).trans (by decide),
    (hcounters (.evaluations .complement)).trans (by decide),
    (hcounters .boundsDiscretized).trans (by decide)⟩

end Activity

end SearchArgument
