import Mathlib.Data.List.Forall2
import WitnessReplay.Proofs.Fallible
import WitnessReplay.Validation.Validator

/-!
# Calls on a validator

Whatever is called on a validator, and whatever happens around it, an operation ends in one of
four ways: it is refused, a stage of it fails, the witness it needs is missing, or it succeeds.
A validator keeps its results in step with its state, so that the third case does not occur.
Once it has completed or failed, every call is refused.
-/

namespace WitnessReplay.Validation

open Harness Witness

variable {σ α : Type}

namespace Operation

def all : List Operation :=
  [preprocess, extract, build, run]

def act (p : Pipeline σ) : Operation → Operate σ Unit
  | preprocess => .preprocess p
  | extract => do let _ ← Operate.extract p
  | build => .build p
  | run => do let _ ← Operate.run p

def stages : Operation → List Stage
  | preprocess => [.filePreprocessing, .witnessPreprocessing]
  | extract => [.siteResolution, .assumptionExtraction]
  | build => [.harnessConstruction]
  | run => [.harnessExecution]

/-- What a validator has found out, and where it stands, when an operation has succeeded. -/
inductive Gain (v : Validator) : Operation → Validator → Prop where
  | preprocess (witness : LinearWitness) :
      Gain v preprocess { v with witness := some witness, state := .preprocessed }
  | extract (sites : SiteMap) (assumptions : List Assumption) :
      Gain v extract
        { v with extraction := some (.aligned sites assumptions), state := .assumptionsExtracted }
  | build : Gain v build { v with state := .harnessBuilt }
  | run (verdict : Verdict) : Gain v run { v with verdict := some verdict, state := .completed }

/-- What an operation does to a validator. -/
inductive Outcome (o : Operation) (v : Validator) :
    Except ValidationError Unit → Validator → Prop where
  | refused (h : v.state ≠ o.before) :
      Outcome o v (.error ⟨o.stage, .outOfOrder o v.state⟩) { v with state := .failed o.stage }
  | failed (h : v.state = o.before) (stage : Stage) (fault : StageFault)
      (hstage : stage ∈ o.stages) :
      Outcome o v (.error ⟨stage, .fault fault⟩) { v with state := .failed stage }
  | missing (h : v.state = o.before) (ho : o = extract) (hwitness : v.witness = none) :
      Outcome o v (.error ⟨.assumptionExtraction, .outOfOrder extract v.state⟩)
        { v with state := .failed .assumptionExtraction }
  | succeeded (h : v.state = o.before) {v' : Validator} (hgain : Gain v o v') :
      Outcome o v (.ok ()) v'

end Operation

namespace Operate

variable {s s' : Session σ}

theorem get_eq (s : Session σ) : (get : Operate σ (Session σ)) s = (.ok s, s) := rfl

theorem expect_of_eq {o : Operation} (h : s.validator.state = o.before) :
    (expect o : Operate σ Unit) s = (.ok (), s) := by
  rw [expect, exceptT_bind_of_ok (get_eq s)]
  simp only [if_pos h]
  rfl

theorem expect_of_ne {o : Operation} (h : s.validator.state ≠ o.before) :
    (expect o : Operate σ Unit) s =
      (.error ⟨o.stage, .outOfOrder o s.validator.state⟩,
        { s with validator := { s.validator with state := .failed o.stage } }) := by
  rw [expect, exceptT_bind_of_ok (get_eq s)]
  simp only [if_neg h]
  rfl

theorem perform_eq (stage : Stage) (step : Validator → ExceptT Cause (StateM σ) α) (s : Session σ) :
    perform stage step s =
      match step s.validator s.surroundings with
      | (.ok a, surroundings) =>
        (.ok a, { s with surroundings, events := s.events ++ [.started stage, .succeeded stage] })
      | (.error cause, surroundings) =>
        (.error ⟨stage, cause⟩,
          { validator := { s.validator with state := .failed stage }
            events := s.events ++ [.started stage, .failed stage]
            surroundings }) := by
  rcases hstep : step s.validator s.surroundings with ⟨result, surroundings⟩
  have htell : (tell (.started stage) : Operate σ Unit) s =
      (.ok (), { s with events := s.events ++ [.started stage] }) := rfl
  have hevents (event : Event) : s.events ++ [.started stage, event] =
      s.events ++ [.started stage] ++ [event] := by simp
  rw [perform, exceptT_bind_of_ok htell, exceptT_bind_of_ok (get_eq _)]
  cases result with
  | ok a =>
    simp only [hstep, hevents]
    rfl
  | error cause =>
    simp only [hstep, hevents]
    rfl

/-- What an operation returns, and the validator that it leaves behind, satisfy `Q`. -/
def Ensures (x : Operate σ α) (s : Session σ) (Q : Except ValidationError α → Validator → Prop) :
    Prop :=
  Q (x s).1 (x s).2.validator

variable {β : Type} {f : α → Operate σ β} {Q : Except ValidationError β → Validator → Prop}

theorem ensures_expect {o : Operation} {f : Unit → Operate σ β}
    (hrefused : s.validator.state ≠ o.before →
      Q (.error ⟨o.stage, .outOfOrder o s.validator.state⟩)
      { s.validator with state := .failed o.stage })
    (hgo : s.validator.state = o.before → Ensures (f ()) s Q) : Ensures (expect o >>= f) s Q := by
  by_cases hstate : s.validator.state = o.before
  · rw [Ensures, exceptT_bind_of_ok (expect_of_eq hstate)]
    exact hgo hstate
  · rw [Ensures, exceptT_bind_of_error (expect_of_ne hstate)]
    exact hrefused hstate

theorem ensures_perform {stage : Stage} {step : Validator → ExceptT Cause (StateM σ) α}
    (hfailed : ∀ cause surroundings, step s.validator s.surroundings =
      (.error cause, surroundings) →
      Q (.error ⟨stage, cause⟩) { s.validator with state := .failed stage })
    (hgo : ∀ a s', s'.validator = s.validator → Ensures (f a) s' Q) :
    Ensures (perform stage step >>= f) s Q := by
  have hperform := perform_eq stage step s
  rcases hstep : step s.validator s.surroundings with ⟨result, surroundings⟩
  rw [hstep] at hperform
  cases result with
  | ok a =>
    rw [Ensures, exceptT_bind_of_ok hperform]
    exact hgo a _ rfl
  | error cause =>
    rw [Ensures, exceptT_bind_of_error hperform]
    exact hfailed cause surroundings hstep

/-- What an operation returns beyond its success does not matter to the validator. -/
theorem ensures_ignored {x : Operate σ α} {Q : Except ValidationError Unit → Validator → Prop}
    (h : Ensures x s fun result v => Q (result.map fun _ => ()) v) :
    Ensures (do let _ ← x) s Q := by
  unfold Ensures at h ⊢
  rcases hx : x s with ⟨result, s'⟩
  rw [hx] at h
  cases result with
  | ok a =>
    rw [exceptT_bind_of_ok hx]
    exact h
  | error e =>
    rw [exceptT_bind_of_error hx]
    exact h

theorem cause_of_adapt {step : Step σ α} {cause : Cause} {x y : σ}
    (h : step.adapt .fault x = (.error cause, y)) :
    ∃ fault, cause = .fault fault := by
  rcases hstep : step x with ⟨result, y'⟩
  rw [exceptT_adapt hstep] at h
  cases result with
  | ok a => cases h
  | error fault =>
    cases h
    exact ⟨fault, rfl⟩

end Operate

namespace Operation

open Operate

theorem ensures_preprocess (p : Pipeline σ) (s : Session σ) :
    Ensures (Operate.preprocess p) s (Outcome preprocess s.validator) := by
  refine ensures_expect .refused fun hstate => ?_
  refine ensures_perform ?_ fun _ s₁ h₁ => ensures_perform ?_ fun witness s₂ h₂ => ?_
  · intro cause surroundings hfault
    obtain ⟨fault, rfl⟩ := cause_of_adapt hfault
    exact .failed hstate _ fault (by simp [stages])
  · intro cause surroundings hfault
    obtain ⟨fault, rfl⟩ := cause_of_adapt hfault
    rw [h₁]
    exact .failed hstate _ fault (by simp [stages])
  · rw [h₁] at h₂
    show Outcome preprocess s.validator (.ok ())
      { s₂.validator with witness := some witness, state := .preprocessed }
    rw [h₂]
    exact .succeeded hstate (.preprocess witness)

theorem ensures_extract (p : Pipeline σ) (s : Session σ) :
    Ensures (Operate.extract p) s fun result v =>
    Outcome extract s.validator (result.map fun _ => ()) v := by
  refine ensures_expect .refused fun hstate => ?_
  refine ensures_perform ?_ fun sites s₁ h₁ => ensures_perform ?_ fun assumptions s₂ h₂ => ?_
  · intro cause surroundings hfault
    obtain ⟨fault, rfl⟩ := cause_of_adapt hfault
    exact .failed hstate _ fault (by simp [stages])
  · intro cause surroundings hfault
    rw [h₁] at hfault ⊢
    cases hwitness : s.validator.witness with
    | some witness =>
      rw [hwitness] at hfault
      obtain ⟨fault, rfl⟩ := cause_of_adapt hfault
      exact .failed hstate _ fault (by simp [stages])
    | none =>
      rw [hwitness] at hfault
      cases hfault
      exact .missing hstate rfl hwitness
  · rw [h₁] at h₂
    show Outcome extract s.validator (.ok ())
      { s₂.validator with
        extraction := some (.aligned sites assumptions), state := .assumptionsExtracted }
    rw [h₂]
    exact .succeeded hstate (.extract sites assumptions)

theorem ensures_build (p : Pipeline σ) (s : Session σ) :
    Ensures (Operate.build p) s (Outcome build s.validator) := by
  refine ensures_expect .refused fun hstate => ensures_perform ?_ fun _ s₁ h₁ => ?_
  · intro cause surroundings hfault
    obtain ⟨fault, rfl⟩ := cause_of_adapt hfault
    exact .failed hstate _ fault (by simp [stages])
  · show Outcome build s.validator (.ok ()) { s₁.validator with state := .harnessBuilt }
    rw [h₁]
    exact .succeeded hstate .build

theorem ensures_run (p : Pipeline σ) (s : Session σ) :
    Ensures (Operate.run p) s fun result v =>
    Outcome run s.validator (result.map fun _ => ()) v := by
  refine ensures_expect .refused fun hstate => ensures_perform ?_ fun verdict s₁ h₁ => ?_
  · intro cause surroundings hfault
    obtain ⟨fault, rfl⟩ := cause_of_adapt hfault
    exact .failed hstate _ fault (by simp [stages])
  · show Outcome run s.validator (.ok ())
      { s₁.validator with verdict := some verdict, state := .completed }
    rw [h₁]
    exact .succeeded hstate (.run verdict)

theorem ensures_act (o : Operation) (p : Pipeline σ) (s : Session σ) :
    Ensures (o.act p) s (Outcome o s.validator) := by
  cases o with
  | preprocess => exact ensures_preprocess p s
  | extract => exact ensures_ignored (ensures_extract p s)
  | build => exact ensures_build p s
  | run => exact ensures_ignored (ensures_run p s)

end Operation

/-- What can be called on a validator: an operation, or several in a row. -/
inductive Call where
  | operation (o : Operation)
  | buildAndRun
  | validate

namespace Call

def act (p : Pipeline σ) : Call → Operate σ Unit
  | operation o => o.act p
  | buildAndRun => do let _ ← Operate.buildAndRun p
  | validate => do let _ ← Operate.validate p

def operations : Call → List Operation
  | operation o => [o]
  | buildAndRun => [.build, .run]
  | validate => Operation.all

theorem act_eq_forM (c : Call) (p : Pipeline σ) : c.act p = c.operations.forM (·.act p) := by
  cases c <;> simp [act, operations, Operation.all, Operation.act, Operate.validate,
    Operate.buildAndRun]

end Call

/-- Operations in a row up to the first that fails, each with whether it succeeds. -/
def attempted (p : Pipeline σ) : List Operation → Session σ → List (Operation × Bool)
  | [], _ => []
  | o :: rest, s =>
    match o.act p s with
    | (.ok _, s') => (o, true) :: attempted p rest s'
    | (.error _, _) => [(o, false)]

/-- The states of validators that calls lead to, with the operations that have been tried.
Between the calls anything may happen to the surroundings, and the stages may do something else
in each call. -/
inductive Reached : List (Operation × Bool) → Session σ → Prop where
  | new (surroundings : σ) : Reached [] { surroundings }
  | call {log : List (Operation × Bool)} {s : Session σ} (hs : Reached log s) (c : Call)
      (p : Pipeline σ) (surroundings : σ) :
      Reached (log ++ attempted p c.operations { s with surroundings })
      (c.act p { s with surroundings }).2

/-- A validator has found out what its state says, and it hands out the values at the sites of
its extraction. -/
structure Validator.Consistent (v : Validator) : Prop where
  created : v.state = .created → v.witness = none ∧ v.extraction = none ∧ v.verdict = none
  preprocessed : v.state = .preprocessed → v.witness ≠ none ∧ v.extraction = none ∧ v.verdict = none
  extracted : v.state = .assumptionsExtracted ∨ v.state = .harnessBuilt →
    v.witness ≠ none ∧ v.extraction ≠ none ∧ v.verdict = none
  completed : v.state = .completed → v.witness ≠ none ∧ v.extraction ≠ none ∧ v.verdict ≠ none
  aligned : ∀ x, v.extraction = some x → x.values = align x.sites x.assumptions

def State.done : State → List Operation
  | created => []
  | preprocessed => [.preprocess]
  | assumptionsExtracted => [.preprocess, .extract]
  | harnessBuilt => [.preprocess, .extract, .build]
  | completed => Operation.all
  | failed _ => []

/-- First come operations that succeed, in their order, and then only operations that fail. -/
def InOrder (log : List (Operation × Bool)) : Prop :=
  ∃ succeeded failed : List Operation, succeeded <+: Operation.all ∧
    log = succeeded.map (·, true) ++ failed.map (·, false)

/-- A state shows the operations that have been tried: they are behind it, or one of them has
failed. -/
def Tracked (log : List (Operation × Bool)) (state : State) : Prop :=
  log = state.done.map (·, true) ∨ InOrder log ∧ ∃ stage, state = .failed stage

variable {v v' : Validator} {o : Operation} {result : Except ValidationError Unit}
    {log : List (Operation × Bool)}

theorem consistent_new : ({} : Validator).Consistent := by
  constructor <;> simp

theorem Validator.Consistent.fail (h : v.Consistent) (stage : Stage) :
    { v with state := .failed stage }.Consistent := by
  refine ⟨?_, ?_, ?_, ?_, h.aligned⟩ <;> simp

theorem Validator.Consistent.gain (h : v.Consistent) (hstate : v.state = o.before)
    (hgain : o.Gain v v') : v'.Consistent := by
  cases hgain with
  | preprocess witness =>
    obtain ⟨-, hextraction, hverdict⟩ := h.created hstate
    constructor <;> simp [hextraction, hverdict]
  | extract sites assumptions =>
    obtain ⟨hwitness, -, hverdict⟩ := h.preprocessed hstate
    constructor <;> simp [hwitness, hverdict, Extraction.aligned]
  | build =>
    have hfound := h.extracted (.inl hstate)
    refine ⟨?_, ?_, ?_, ?_, h.aligned⟩ <;> simp [hfound]
  | run verdict =>
    obtain ⟨hwitness, hextraction, -⟩ := h.extracted (.inr hstate)
    refine ⟨?_, ?_, ?_, ?_, h.aligned⟩ <;> simp [hwitness, hextraction]

theorem Validator.Consistent.step (h : v.Consistent) (hout : o.Outcome v result v') :
    v'.Consistent := by
  cases hout with
  | refused hstate => exact h.fail _
  | failed hstate stage fault hstage => exact h.fail _
  | missing hstate ho hwitness => exact h.fail _
  | succeeded hstate hgain => exact h.gain hstate hgain

theorem done_prefix_all (state : State) : state.done <+: Operation.all := by
  cases state with
  | failed stage => exact List.nil_prefix
  | _ => decide

theorem Tracked.inOrder {state : State} (h : Tracked log state) : InOrder log := by
  rcases h with rfl | ⟨h, -⟩
  · exact ⟨state.done, [], done_prefix_all state, by simp⟩
  · exact h

theorem Tracked.fail {state : State} (h : Tracked log state) (o : Operation) (stage : Stage) :
    Tracked (log ++ [(o, false)]) (.failed stage) := by
  obtain ⟨succeeded, failed, hall, rfl⟩ := h.inOrder
  exact .inr ⟨⟨succeeded, failed ++ [o], hall, by simp⟩, stage, rfl⟩

theorem Tracked.gain (h : Tracked log v.state) (hstate : v.state = o.before) (hgain : o.Gain v v') :
    Tracked (log ++ [(o, true)]) v'.state := by
  rcases h with rfl | ⟨-, stage, hfailed⟩
  · rw [hstate]
    refine .inl ?_
    cases hgain <;> rfl
  · -- no operation can be called when the validator has failed
    rw [hstate] at hfailed
    cases o <;> cases hfailed

theorem Operation.Outcome.state_of_error {e : ValidationError} (h : o.Outcome v (.error e) v') :
    v'.state = .failed e.stage := by
  cases h <;> rfl

theorem Operation.Outcome.cause_of_error {e : ValidationError} (h : o.Outcome v (.error e) v')
    (hv : v.Consistent)
    (hstage : e.stage = .assumptionExtraction) : ∃ fault, e.cause = .fault fault := by
  cases h with
  | refused hstate =>
    -- an operation is refused in its first stage, and none begins with this one
    cases o <;> cases hstage
  | failed hstate stage fault hmem => exact ⟨fault, rfl⟩
  | missing hstate ho hwitness =>
    subst ho
    exact absurd hwitness (hv.preprocessed hstate).1

theorem forM_act (p : Pipeline σ) (ops : List Operation) {s : Session σ}
    (hv : s.validator.Consistent) (hlog : Tracked log s.validator.state) :
    Operate.Ensures (ops.forM (·.act p)) s fun result v =>
      v.Consistent ∧ Tracked (log ++ attempted p ops s) v.state ∧
        ∀ e, result = .error e →
          v.state = .failed e.stage ∧
          (e.stage = .assumptionExtraction → ∃ fault, e.cause = .fault fault) := by
  induction ops generalizing s log with
  | nil =>
    refine ⟨hv, ?_, ?_⟩
    · rw [attempted, List.append_nil]
      exact hlog
    · intro e he
      cases he
  | cons o rest ih =>
    have hforM : ((o :: rest).forM (·.act p) : Operate σ Unit) =
        (o.act p >>= fun _ => rest.forM (·.act p)) := rfl
    have hout := o.ensures_act p s
    unfold Operate.Ensures at hout ih ⊢
    rcases hact : o.act p s with ⟨result, s'⟩
    rw [hact] at hout
    cases result with
    | error e =>
      -- the rest is not tried
      rw [hforM, exceptT_bind_of_error hact, attempted, hact]
      refine ⟨hv.step hout, ?_, ?_⟩
      · rw [hout.state_of_error]
        exact hlog.fail o e.stage
      · intro e' he'
        cases he'
        exact ⟨hout.state_of_error, hout.cause_of_error hv⟩
    | ok a =>
      rw [hforM, exceptT_bind_of_ok hact, attempted, hact]
      cases hout with
      | succeeded hstate hgain =>
        have hrest := ih (hv.gain hstate hgain) (hlog.gain hstate hgain)
        rw [List.append_assoc] at hrest
        exact hrest

theorem Reached.invariant {s : Session σ} (h : Reached log s) :
    s.validator.Consistent ∧ Tracked log s.validator.state := by
  induction h with
  | new surroundings => exact ⟨consistent_new, .inl rfl⟩
  | @call log s hs c p surroundings ih =>
    have hcall := forM_act p c.operations (s := { s with surroundings }) ih.1 ih.2
    rw [← c.act_eq_forM] at hcall
    exact ⟨hcall.1, hcall.2.1⟩

/-- **The life of a validator.** Whatever is called on a validator, in whatever order and
surroundings, its operations succeed in their order, each at most once, and none succeeds after
one has failed; what it has found out is what its state says. If the next call fails, the
validator has failed in the stage of the error, and a missing witness is never the cause. Where
a harness can be built, there are values for it. -/
theorem lifecycle_of_reached {s : Session σ} (h : Reached log s) :
    InOrder log ∧ s.validator.Consistent ∧
      (∀ (c : Call) (p : Pipeline σ) (surroundings : σ) (e : ValidationError) (s' : Session σ),
        c.act p { s with surroundings } = (.error e, s') →
          s'.validator.state = .failed e.stage ∧
          (e.stage = .assumptionExtraction → ∃ fault, e.cause = .fault fault)) ∧
      (s.validator.state = Operation.build.before →
        ∃ x, s.validator.extraction = some x ∧ x.values = align x.sites x.assumptions) := by
  obtain ⟨hv, hlog⟩ := h.invariant
  refine ⟨hlog.inOrder, hv, ?_, ?_⟩
  · intro c p surroundings e s' hact
    have hcall := forM_act p c.operations (s := { s with surroundings }) hv hlog
    rw [← c.act_eq_forM, Operate.Ensures, hact] at hcall
    exact hcall.2.2 e rfl
  · intro hstate
    obtain ⟨x, hx⟩ := Option.ne_none_iff_exists'.1 (hv.extracted (.inl hstate)).2.1
    exact ⟨x, hx, hv.aligned x hx⟩

def pointWitness : LinearWitness where
  graph :=
    { origin := "point", attributes := .empty, edges := []
      nodes := [{ id := "n", data := ⟨[("isEntryNode", "1"), ("isViolationNode", "1")]⟩ }] }
  path := []
  isLinear := by rfl

def smoothPipeline : Pipeline Unit where
  prepare := pure ()
  checkWitness := pure pointWitness
  resolveSites := pure ⟨[(⟨"Main", 3⟩, "int")]⟩
  extractAssumptions _ := pure [⟨⟨"Main", 3⟩, some "7"⟩, ⟨⟨"Main", 4⟩, some "8"⟩]
  buildHarness values := if values = [some "7"] then pure () else
    throw (.harness (.compilationFailed "exit status: 1" ""))
  runHarness := pure .correct

/-- A validation that succeeds, and a second one that is refused. -/
theorem lifecycle_of_second_validation :
    ∃ s : Session Unit,
      Reached [(.preprocess, true), (.extract, true), (.build, true), (.run, true),
      (.preprocess, false)] s ∧
        s.validator.state = .failed .filePreprocessing ∧ s.validator.Consistent := by
  have h := ((Reached.new ()).call .validate smoothPipeline ()).call .validate smoothPipeline ()
  refine ⟨_, h, rfl, (lifecycle_of_reached h).2.1⟩

/-- An operation in the wrong state does nothing but make the validator fail in the operation's
first stage. -/
theorem Operation.act_of_ne (p : Pipeline σ) {s : Session σ} (h : s.validator.state ≠ o.before) :
    o.act p s =
      (.error ⟨o.stage, .outOfOrder o s.validator.state⟩,
        { s with validator := { s.validator with state := .failed o.stage } }) := by
  have hexpect := Operate.expect_of_ne h
  cases o with
  | preprocess => exact exceptT_bind_of_error hexpect _
  | extract => exact exceptT_bind_of_error (exceptT_bind_of_error hexpect _) _
  | build => exact exceptT_bind_of_error hexpect _
  | run => exact exceptT_bind_of_error (exceptT_bind_of_error hexpect _) _

def Call.first : Call → Operation
  | operation o => o
  | buildAndRun => .build
  | validate => .preprocess

theorem Call.operations_eq_cons (c : Call) : ∃ rest, c.operations = c.first :: rest := by
  cases c <;> exact ⟨_, rfl⟩

theorem Call.act_of_ne (c : Call) (p : Pipeline σ) {s : Session σ}
    (h : s.validator.state ≠ c.first.before) :
    c.act p s =
      (.error ⟨c.first.stage, .outOfOrder c.first s.validator.state⟩,
        { s with validator := { s.validator with state := .failed c.first.stage } }) := by
  obtain ⟨rest, hrest⟩ := c.operations_eq_cons
  rw [c.act_eq_forM, hrest]
  exact exceptT_bind_of_error (Operation.act_of_ne p h) _

/-- No operation is left to be called: all have succeeded, or the validator has failed. -/
def State.IsTerminal : State → Prop
  | completed | failed _ => True
  | _ => False

theorem State.IsTerminal.ne_before {state : State} (h : state.IsTerminal) (o : Operation) :
    state ≠ o.before := by
  rintro rfl
  cases o <;> exact h

/-- Carries out calls one after another, each with its own stages and surroundings. -/
def callAll : List (Call × Pipeline σ × σ) → Session σ →
    List (Except ValidationError Unit) × Session σ
  | [], s => ([], s)
  | (c, p, surroundings) :: rest, s =>
    let (result, s) := c.act p { s with surroundings }
    let (results, s) := callAll rest s
    (result :: results, s)

/-- **Terminal states.** When all operations have succeeded, or the validator has failed, every
further call is refused in the stage with which it begins. Nothing changes and the observer is
told nothing, except that the validator has now failed in the stage of the last call. -/
theorem callAll_of_isTerminal {s : Session σ} (h : s.validator.state.IsTerminal)
    (calls : List (Call × Pipeline σ × σ)) :
    calls.Forall₂ (fun call result => ∃ state : State, state.IsTerminal ∧
        result = .error ⟨call.1.first.stage, .outOfOrder call.1.first state⟩) (callAll calls s).1 ∧
      (callAll calls s).2.events = s.events ∧
      (callAll calls s).2.validator =
        { s.validator with
          state := (calls.getLast?.map fun call =>
          .failed call.1.first.stage).getD s.validator.state } := by
  induction calls generalizing s with
  | nil => exact ⟨.nil, rfl, rfl⟩
  | cons call rest ih =>
    obtain ⟨c, p, surroundings⟩ := call
    have hact := c.act_of_ne p (s := { s with surroundings }) (h.ne_before _)
    simp only [callAll, hact]
    have hfailed : (State.failed c.first.stage).IsTerminal := trivial
    obtain ⟨hresults, hevents, hvalidator⟩ := ih (s :=
      { s with validator := { s.validator with state := .failed c.first.stage }, surroundings })
      hfailed
    refine ⟨.cons ⟨_, h, rfl⟩ hresults, hevents, ?_⟩
    rw [hvalidator, List.getLast?_cons]
    cases rest.getLast? <;> rfl

/-- A completed validation, after which a second one and the extraction are refused. -/
theorem callAll_of_completed :
    ∃ s : Session Unit,
      Reached [(.preprocess, true), (.extract, true), (.build, true), (.run, true)] s ∧
      s.validator.state = .completed ∧
        (callAll [(.validate, smoothPipeline, ()),
        (.operation .extract, smoothPipeline, ())] s).2.validator =
          { s.validator with state := .failed .siteResolution } := by
  have hreached := (Reached.new ()).call .validate smoothPipeline ()
  exact ⟨_, hreached, rfl, (callAll_of_isTerminal (by trivial) _).2.2⟩

/-- A validator that has failed may have failed in another stage after the next call. -/
theorem not_state_kept_of_isTerminal :
    ¬∀ (log : List (Operation × Bool)) (s : Session Unit), Reached log s →
    s.validator.state.IsTerminal →
      ∀ calls : List (Call × Pipeline Unit × Unit),
        (∀ result ∈ (callAll calls s).1, ∃ e, result = .error e) ∧
          (callAll calls s).2.validator.state = s.validator.state := by
  intro h
  have hreached := (Reached.new ()).call (.operation .extract) smoothPipeline ()
  have hkept := (h _ _ hreached trivial [(.operation .preprocess, smoothPipeline, ())]).2
  cases hkept

end WitnessReplay.Validation
