import WitnessReplay.Proofs.ValidatorCalls

/-!
# What the observer is told

The observer of a validator is told of every stage that it starts and that it succeeds or
fails. Whatever is called, the stages that succeed are the first ones, in their order; one more
may start and fail, and then there is nothing more to tell. A call in the wrong state is not
told at all, so a failure is told exactly when a stage has failed.
-/

namespace WitnessReplay.Validation

variable {σ α β : Type}

namespace Event

def passed (stages : List Stage) : List Event :=
  stages.flatMap fun stage => [started stage, succeeded stage]

theorem passed_append (stages stages' : List Stage) :
    passed (stages ++ stages') = passed stages ++ passed stages' :=
  List.flatMap_append

theorem failed_notMem_passed (stage : Stage) (stages : List Stage) :
    failed stage ∉ passed stages := by
  simp [passed]

end Event

open Event (passed)

/-- What is told when an operation ends with a result. A stage that fails is the last one that
is told of. -/
inductive Operation.Told (o : Operation) (v : Validator) :
    Except ValidationError Unit → List Event → Prop where
  | refused (h : v.state ≠ o.before) (e : ValidationError) : Told o v (.error e) []
  | failed (h : v.state = o.before) (done : List Stage) {stage : Stage}
      (hstages : done ++ [stage] <+: o.stages)
      (cause : Cause) : Told o v (.error ⟨stage, cause⟩) (passed done ++ [.started stage,
        .failed stage])
  | succeeded (h : v.state = o.before) : Told o v (.ok ()) (passed o.stages)

namespace Operate

/-- The result of an operation, and what the observer is told meanwhile, satisfy `Q`. -/
def Tells (x : Operate σ α) (s : Session σ) (Q : Except ValidationError α → List Event → Prop) :
    Prop :=
  ∃ told, (x s).2.events = s.events ++ told ∧ Q (x s).1 told

variable {s : Session σ} {f : α → Operate σ β} {Q : Except ValidationError β → List Event → Prop}

theorem tells_expect {o : Operation} {f : Unit → Operate σ β}
    (hrefused : s.validator.state ≠ o.before →
    Q (.error ⟨o.stage, .outOfOrder o s.validator.state⟩) [])
    (hgo : s.validator.state = o.before → Tells (f ()) s Q) : Tells (expect o >>= f) s Q := by
  by_cases hstate : s.validator.state = o.before
  · rw [Tells, exceptT_bind_of_ok (expect_of_eq hstate)]
    exact hgo hstate
  · rw [Tells, exceptT_bind_of_error (expect_of_ne hstate)]
    exact ⟨[], by simp, hrefused hstate⟩

theorem tells_perform {stage : Stage} {step : Validator → ExceptT Cause (StateM σ) α}
    (hfailed : ∀ cause, Q (.error ⟨stage, cause⟩) [.started stage, .failed stage])
    (hgo : ∀ a s', Tells (f a) s' fun result told => Q result (passed [stage] ++ told)) :
    Tells (perform stage step >>= f) s Q := by
  have hperform := perform_eq stage step s
  rcases hstep : step s.validator s.surroundings with ⟨result, surroundings⟩
  rw [hstep] at hperform
  cases result with
  | ok a =>
    obtain ⟨told, hevents, htold⟩ :=
      hgo a { s with surroundings, events := s.events ++ [.started stage, .succeeded stage] }
    rw [Tells, exceptT_bind_of_ok hperform]
    refine ⟨passed [stage] ++ told, ?_, htold⟩
    rw [hevents, List.append_assoc]
    rfl
  | error cause =>
    rw [Tells, exceptT_bind_of_error hperform]
    exact ⟨_, rfl, hfailed cause⟩

theorem tells_nothing {x : Operate σ α} {Q : Except ValidationError α → List Event → Prop}
    (hevents : (x s).2.events = s.events) (h : Q (x s).1 []) : Tells x s Q :=
  ⟨[], by rw [hevents, List.append_nil], h⟩

theorem tells_ignored {x : Operate σ α} {Q : Except ValidationError Unit → List Event → Prop}
    (h : Tells x s fun result told => Q (result.map fun _ => ()) told) :
    Tells (do let _ ← x) s Q := by
  unfold Tells at h ⊢
  rcases hx : x s with ⟨result, s'⟩
  rw [hx] at h
  cases result with
  | ok a =>
    rw [exceptT_bind_of_ok hx]
    exact h
  | error e =>
    rw [exceptT_bind_of_error hx]
    exact h

end Operate

namespace Operation

open Operate

theorem tells_act (o : Operation) (p : Pipeline σ) (s : Session σ) :
    Tells (o.act p) s (o.Told s.validator) := by
  cases o with
  | preprocess =>
    refine tells_expect (.refused · _) fun hstate => ?_
    refine tells_perform (.failed hstate [] (by decide)) fun _ s₁ => ?_
    refine tells_perform (.failed hstate [.filePreprocessing] (by decide)) fun witness s₂ => ?_
    exact tells_nothing rfl (.succeeded hstate)
  | extract =>
    refine tells_ignored (tells_expect (.refused · _) fun hstate => ?_)
    refine tells_perform (.failed hstate [] (by decide)) fun sites s₁ => ?_
    refine tells_perform (.failed hstate [.siteResolution] (by decide)) fun assumptions s₂ => ?_
    exact tells_nothing rfl (.succeeded hstate)
  | build =>
    refine tells_expect (.refused · _) fun hstate => ?_
    refine tells_perform (.failed hstate [] (by decide)) fun _ s₁ => ?_
    exact tells_nothing rfl (.succeeded hstate)
  | run =>
    refine tells_ignored (tells_expect (.refused · _) fun hstate => ?_)
    refine tells_perform (.failed hstate [] (by decide)) fun verdict s₁ => ?_
    exact tells_nothing rfl (.succeeded hstate)

end Operation

/-- The course of a validation as it is told: stages that succeed, from the first on and in
their order, and possibly the next one, which fails. -/
inductive Course : List Event → Prop where
  | passed {done : List Stage} (h : done <+: Stage.all) : Course (passed done)
  | failed {done : List Stage} {stage : Stage} (h : done ++ [stage] <+: Stage.all) :
      Course (passed done ++ [.started stage, .failed stage])

def State.stages (state : State) : List Stage :=
  state.done.flatMap Operation.stages

/-- What has been told fits a state: the stages behind it have passed, or the validator has
failed. -/
def Recounts (events : List Event) (state : State) : Prop :=
  events = passed state.stages ∨ Course events ∧ ∃ stage, state = .failed stage

variable {v v' : Validator} {o : Operation} {result : Except ValidationError Unit}
    {events told : List Event}
  {log : List (Operation × Bool)}

theorem stages_before_prefix_all (o : Operation) : o.before.stages ++ o.stages <+: Stage.all := by
  cases o <;> decide

theorem Recounts.course {state : State} (h : Recounts events state) : Course events := by
  rcases h with rfl | ⟨h, -⟩
  · refine .passed ?_
    cases state with
    | failed stage => exact List.nil_prefix
    | _ => decide
  · exact h

/-- In a state in which an operation can be called, all that has been told is the success of
the stages behind it. -/
theorem Recounts.of_before (h : Recounts events o.before) : events = passed o.before.stages := by
  rcases h with h | ⟨-, stage, hfailed⟩
  · exact h
  · cases o <;> cases hfailed

theorem Recounts.step (h : Recounts events v.state) (hout : o.Outcome v result v')
    (htold : o.Told v result told) :
    Recounts (events ++ told) v'.state := by
  cases htold with
  | refused hstate e =>
    rw [List.append_nil]
    exact .inr ⟨h.course, _, hout.state_of_error⟩
  | @failed hstate done stage hstages cause =>
    rw [hstate] at h
    refine .inr ⟨?_, stage, hout.state_of_error⟩
    rw [h.of_before, ← List.append_assoc, ← Event.passed_append]
    apply Course.failed
    rw [List.append_assoc]
    exact ((List.prefix_append_right_inj _).2 hstages).trans (stages_before_prefix_all o)
  | succeeded hstate =>
    rw [hstate] at h
    refine .inl ?_
    rw [h.of_before, ← Event.passed_append]
    cases hout with
    | succeeded _ hgain => cases hgain <;> rfl

/-- A failure in a stage is told exactly when the operation ends with an error in that stage
that is no refusal. -/
theorem Operation.Told.failed_mem_iff (htold : o.Told v result told) (hv : v.Consistent)
    (hout : o.Outcome v result v') (stage : Stage) :
    .failed stage ∈ told ↔
      ∃ e, result = .error e ∧ e.stage = stage ∧
      ∀ operation state, e.cause ≠ .outOfOrder operation state := by
  cases htold with
  | refused hstate e =>
    refine iff_of_false List.not_mem_nil ?_
    rintro ⟨e', he, -, hcause⟩
    cases hout with
    | refused =>
      cases he
      exact hcause _ _ rfl
    | failed hstate' => exact hstate hstate'
    | missing hstate' => exact hstate hstate'
  | @failed hstate done failing hstages cause =>
    have hfault : ∃ fault, cause = .fault fault := by
      cases hout with
      | refused hstate' => exact absurd hstate hstate'
      | failed _ _ fault => exact ⟨fault, rfl⟩
      | missing _ ho hwitness =>
        subst ho
        exact absurd hwitness (hv.preprocessed hstate).1
    obtain ⟨fault, rfl⟩ := hfault
    constructor
    · intro hmem
      rcases List.mem_append.1 hmem with hmem | hmem
      · exact absurd hmem (Event.failed_notMem_passed _ _)
      · obtain rfl : stage = failing := by simpa using hmem
        exact ⟨_, rfl, rfl, nofun⟩
    · rintro ⟨e, he, rfl, -⟩
      cases he
      simp
  | succeeded hstate =>
    refine iff_of_false (Event.failed_notMem_passed _ _) ?_
    rintro ⟨e, he, -⟩
    cases he

theorem tells_forM_act (p : Pipeline σ) (ops : List Operation) {s : Session σ}
    (hv : s.validator.Consistent) (hevents : Recounts s.events s.validator.state) :
    Recounts (ops.forM (·.act p) s).2.events (ops.forM (·.act p) s).2.validator.state ∧
      Operate.Tells (ops.forM (·.act p)) s fun result told => ∀ stage, .failed stage ∈ told ↔
        ∃ e, result = .error e ∧ e.stage = stage ∧
        ∀ operation state, e.cause ≠ .outOfOrder operation state := by
  induction ops generalizing s with
  | nil =>
    refine ⟨hevents, Operate.tells_nothing rfl fun stage => iff_of_false List.not_mem_nil ?_⟩
    rintro ⟨e, he, -⟩
    cases he
  | cons o rest ih =>
    have hforM : ((o :: rest).forM (·.act p) : Operate σ Unit) =
        (o.act p >>= fun _ => rest.forM (·.act p)) := rfl
    have hout := o.ensures_act p s
    obtain ⟨told, hsaid, htold⟩ := o.tells_act p s
    unfold Operate.Ensures at hout
    unfold Operate.Tells at ih ⊢
    rcases hact : o.act p s with ⟨result, s'⟩
    rw [hact] at hout hsaid htold
    have hstep := hevents.step hout htold
    rw [← hsaid] at hstep
    cases result with
    | error e =>
      rw [hforM, exceptT_bind_of_error hact]
      exact ⟨hstep, told, hsaid, htold.failed_mem_iff hv hout⟩
    | ok a =>
      obtain ⟨hrest, more, hmore, hfailed⟩ := ih (hv.step hout) hstep
      rw [hforM, exceptT_bind_of_ok hact]
      refine ⟨hrest, told ++ more, ?_, ?_⟩
      · rw [hmore, hsaid, List.append_assoc]
      · intro stage
        -- an operation that has succeeded tells of no failure
        have hnone : .failed stage ∉ told := by
          rw [htold.failed_mem_iff hv hout]
          rintro ⟨e, he, -⟩
          cases he
        rw [List.mem_append, or_iff_right hnone]
        exact hfailed stage

theorem Reached.recounts {s : Session σ} (h : Reached log s) :
    Recounts s.events s.validator.state := by
  induction h with
  | new surroundings => exact .inl rfl
  | @call log s hs c p surroundings ih =>
    rw [c.act_eq_forM]
    exact (tells_forM_act p c.operations (s := { s with surroundings }) hs.invariant.1 ih).1

/-- **Progress.** Whatever is called on a validator, in whatever order and surroundings, the
observer is told the course of a validation. A call in the wrong state is not told; and a call
tells of a failure in a stage exactly when it returns an error in that stage other than a
refusal. -/
theorem course_of_reached {s : Session σ} (h : Reached log s) :
    Course s.events ∧
      ∀ (c : Call) (p : Pipeline σ) (surroundings : σ),
        (s.validator.state ≠ c.first.before → (c.act p { s with surroundings }).2.events =
          s.events) ∧
        ∃ told, (c.act p { s with surroundings }).2.events = s.events ++ told ∧
          ∀ stage, .failed stage ∈ told ↔
            ∃ e, (c.act p { s with surroundings }).1 = .error e ∧ e.stage = stage ∧
              ∀ operation state, e.cause ≠ .outOfOrder operation state := by
  refine ⟨h.recounts.course, fun c p surroundings => ⟨fun hstate => ?_, ?_⟩⟩
  · rw [c.act_of_ne p (s := { s with surroundings }) hstate]
  · rw [c.act_eq_forM]
    exact (tells_forM_act p c.operations (s := { s with surroundings }) h.invariant.1 h.recounts).2

def malformedPipeline : Pipeline Unit :=
  { smoothPipeline with checkWitness := throw (.witness ⟨"point", .notXml⟩) }

/-- A validation that fails in its second stage, and a second one that is refused. -/
theorem course_of_malformed :
    ∃ s : Session Unit,
      Reached [(.preprocess, false)] s ∧ Course s.events ∧
        s.events = [.started .filePreprocessing, .succeeded .filePreprocessing,
        .started .witnessPreprocessing,
          .failed .witnessPreprocessing] ∧
        (Call.validate.act smoothPipeline s).2.events = s.events := by
  have h := (Reached.new ()).call .validate malformedPipeline ()
  obtain ⟨hcourse, hcalls⟩ := course_of_reached h
  exact ⟨_, h, hcourse, rfl, (hcalls .validate smoothPipeline ()).1 nofun⟩

end WitnessReplay.Validation
