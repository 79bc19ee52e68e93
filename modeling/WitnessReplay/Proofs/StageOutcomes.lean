import WitnessReplay.Proofs.InjectedValues
import WitnessReplay.Proofs.ValidatorCalls

/-!
# How a validation ends

The stages of a validation hand on what they have found out, each to those behind it. A new
validator goes through them up to the first one that fails: it ends without inputs, with inputs
but without a verdict, or with a verdict.
-/

namespace WitnessReplay.Validation

open Harness Witness

variable {σ α β : Type}

namespace Pipeline

/-- The first two stages succeed: the witness, and what is left of the surroundings. -/
def Checks (p : Pipeline σ) (s : σ) (witness : LinearWitness) (s' : σ) : Prop :=
  ∃ s₁, p.prepare s = (.ok (), s₁) ∧ p.checkWitness s₁ = (.ok witness, s')

/-- The first four stages succeed: the witness, and the sites and assumptions with the values
that come of them. -/
def Extracts (p : Pipeline σ) (s : σ) (witness : LinearWitness) (x : Extraction) (s' : σ) : Prop :=
  ∃ s₂ s₃ sites assumptions, p.Checks s witness s₂ ∧ p.resolveSites s₂ = (.ok sites, s₃) ∧
    p.extractAssumptions witness s₃ = (.ok assumptions, s') ∧ x = .aligned sites assumptions

/-- All six stages succeed. The harness is built with the extracted values. -/
def Completes (p : Pipeline σ) (s : σ) (witness : LinearWitness) (x : Extraction)
    (verdict : Verdict) (s' : σ) : Prop :=
  ∃ s₄ s₅, p.Extracts s witness x s₄ ∧ p.buildHarness x.values s₄ = (.ok (), s₅) ∧
    p.runHarness s₅ = (.ok verdict, s')

variable {p : Pipeline σ} {s t t' : σ} {witness witness' : LinearWitness} {x x' : Extraction}
    {verdict verdict' : Verdict}

theorem Checks.unique (h : p.Checks s witness t) (h' : p.Checks s witness' t') :
    witness = witness' ∧ t = t' := by
  obtain ⟨s₁, hprepare, hcheck⟩ := h
  obtain ⟨s₁', hprepare', hcheck'⟩ := h'
  cases hprepare.symm.trans hprepare'
  cases hcheck.symm.trans hcheck'
  exact ⟨rfl, rfl⟩

theorem Extracts.unique (h : p.Extracts s witness x t) (h' : p.Extracts s witness' x' t') :
    witness = witness' ∧ x = x' ∧ t = t' := by
  obtain ⟨s₂, s₃, sites, assumptions, hchecks, hresolve, hextract, rfl⟩ := h
  obtain ⟨s₂', s₃', sites', assumptions', hchecks', hresolve', hextract', rfl⟩ := h'
  obtain ⟨rfl, rfl⟩ := hchecks.unique hchecks'
  cases hresolve.symm.trans hresolve'
  cases hextract.symm.trans hextract'
  exact ⟨rfl, rfl, rfl⟩

theorem Completes.unique (h : p.Completes s witness x verdict t)
    (h' : p.Completes s witness' x' verdict' t') :
    witness = witness' ∧ x = x' ∧ verdict = verdict' := by
  obtain ⟨s₄, s₅, hextracts, hbuild, hrun⟩ := h
  obtain ⟨s₄', s₅', hextracts', hbuild', hrun'⟩ := h'
  obtain ⟨rfl, rfl, rfl⟩ := hextracts.unique hextracts'
  cases hbuild.symm.trans hbuild'
  cases hrun.symm.trans hrun'
  exact ⟨rfl, rfl, rfl⟩

theorem Extracts.map_value_inputs (h : p.Extracts s witness x t) :
    x.inputs.map (·.value) = x.values := by
  obtain ⟨s₂, s₃, sites, assumptions, -, -, -, rfl⟩ := h
  exact (values_eq_map_inputs assumptions).symm

/-- How a validation ends: before the inputs are known, after that, or with a verdict. -/
inductive Ends (p : Pipeline σ) (s : σ) : Except ValidationError Verdict × Session σ → Prop where
  | early {e : ValidationError} {session : Session σ} (hnot : ∀ witness x t,
      ¬p.Extracts s witness x t)
      (hnone : session.validator.extraction = none) : Ends p s (.error e, session)
  | late {e : ValidationError} {session : Session σ} {witness : LinearWitness} {x : Extraction}
      {t : σ}
      (hextracts : p.Extracts s witness x t)
      (hnot : ∀ witness x verdict t, ¬p.Completes s witness x verdict t)
      (hsome : session.validator.extraction = some x) : Ends p s (.error e, session)
  | verdict {session : Session σ} {witness : LinearWitness} {x : Extraction} {verdict : Verdict}
      (hcompletes : p.Completes s witness x verdict session.surroundings)
      (hvalidator : session.validator = ⟨.completed, some witness, some x, some verdict⟩) :
        Ends p s (.ok verdict, session)

end Pipeline

namespace Operate

section Binds

variable {s : Session σ} {Q : Except ValidationError β × Session σ → Prop}

theorem expect_bind {o : Operation} {f : Unit → Operate σ β}
    (hstate : s.validator.state = o.before) (h : Q (f () s)) :
    Q ((expect o >>= f) s) := by
  rw [exceptT_bind_of_ok (expect_of_eq hstate)]
  exact h

theorem update_bind {g : Validator → Validator} {f : Unit → Operate σ β}
    (h : Q (f () { s with validator := g s.validator })) :
    Q ((update g >>= f) s) :=
  h

/-- A stage that succeeds is followed by what comes behind it, and one that fails by nothing. -/
theorem perform_bind {stage : Stage} {step : Validator → ExceptT Cause (StateM σ) α}
    {f : α → Operate σ β} (act : Step σ α)
    (hact : step s.validator = act.adapt .fault)
    (hfailed : ∀ fault t, act s.surroundings = (.error fault, t) → ∀ events,
      Q (.error ⟨stage, .fault fault⟩, ⟨{ s.validator with state := .failed stage }, events, t⟩))
    (hgo : ∀ a t, act s.surroundings = (.ok a, t) → ∀ events, Q (f a ⟨s.validator, events, t⟩)) :
    Q ((perform stage step >>= f) s) := by
  have hperform := perform_eq stage step s
  rcases hdone : act s.surroundings with ⟨result, t⟩
  rw [hact, exceptT_adapt hdone] at hperform
  cases result with
  | ok a =>
    rw [exceptT_bind_of_ok hperform]
    exact hgo a t hdone _
  | error fault =>
    rw [exceptT_bind_of_error hperform]
    exact hfailed fault t hdone _

end Binds

variable {p : Pipeline σ} {s t : σ} {witness : LinearWitness} {x : Extraction}

theorem ends_buildAndRun (hextracts : p.Extracts s witness x t) (events : List Event) :
    p.Ends s (buildAndRun p ⟨⟨.assumptionsExtracted, some witness, some x, none⟩, events, t⟩) := by
  unfold buildAndRun build run
  simp only [bind_assoc]
  refine expect_bind rfl (perform_bind (p.buildHarness x.values) rfl ?_ fun _ s₅ hbuild events =>
    update_bind (expect_bind rfl ?_))
  · intro fault t' hfault events
    refine .late hextracts ?_ rfl
    rintro witness' x' verdict t'' ⟨s₄, s₅, hextracts', hbuild, -⟩
    obtain ⟨rfl, rfl, rfl⟩ := hextracts.unique hextracts'
    cases hfault.symm.trans hbuild
  refine perform_bind p.runHarness rfl ?_ fun verdict s₆ hrun events => update_bind ?_
  · intro fault t' hfault events
    refine .late hextracts ?_ rfl
    rintro witness' x' verdict t'' ⟨s₄, s₅', hextracts', hbuild', hrun⟩
    obtain ⟨rfl, rfl, rfl⟩ := hextracts.unique hextracts'
    cases hbuild.symm.trans hbuild'
    cases hfault.symm.trans hrun
  exact .verdict ⟨t, s₅, hextracts, hbuild, hrun⟩ rfl

theorem ends_extract (hchecks : p.Checks s witness t) (events : List Event) :
    p.Ends s ((do let _ ← extract p; buildAndRun p) ⟨⟨.preprocessed, some witness, none, none⟩,
    events, t⟩) := by
  unfold extract
  simp only [bind_assoc]
  refine expect_bind rfl (perform_bind p.resolveSites rfl ?_ fun sites s₃ hresolve events => ?_)
  · intro fault t' hfault events
    refine .early ?_ rfl
    rintro witness' x' t'' ⟨s₂, s₃, sites, assumptions, hchecks', hresolve, -⟩
    obtain ⟨rfl, rfl⟩ := hchecks.unique hchecks'
    cases hfault.symm.trans hresolve
  refine perform_bind (p.extractAssumptions witness) rfl ?_ fun assumptions s₄ hextract events => ?_
  · intro fault t' hfault events
    refine .early ?_ rfl
    rintro witness' x' t'' ⟨s₂, s₃', sites', assumptions, hchecks', hresolve', hextract, -⟩
    obtain ⟨rfl, rfl⟩ := hchecks.unique hchecks'
    cases hresolve.symm.trans hresolve'
    cases hfault.symm.trans hextract
  exact update_bind (ends_buildAndRun ⟨t, s₃, sites, assumptions, hchecks, hresolve, hextract,
    rfl⟩ events)

theorem ends_validate (p : Pipeline σ) (s : σ) : p.Ends s (validate p { surroundings := s }) := by
  unfold validate preprocess
  simp only [bind_assoc]
  refine expect_bind rfl (perform_bind p.prepare rfl ?_ fun _ s₁ hprepare events => ?_)
  · intro fault t hfault events
    refine .early ?_ rfl
    rintro witness x t' ⟨s₂, s₃, sites, assumptions, ⟨s₁, hprepare, -⟩, -⟩
    cases hfault.symm.trans hprepare
  refine perform_bind p.checkWitness rfl ?_ fun witness s₂ hcheck events => ?_
  · intro fault t hfault events
    refine .early ?_ rfl
    rintro witness x t' ⟨s₂, s₃, sites, assumptions, ⟨s₁', hprepare', hcheck⟩, -⟩
    cases hprepare.symm.trans hprepare'
    cases hfault.symm.trans hcheck
  exact update_bind (ends_extract ⟨s₁, hprepare, hcheck⟩ events)

end Operate

end WitnessReplay.Validation
