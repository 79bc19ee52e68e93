/-!
# Computations that may fail

How a computation that has succeeded is taken apart.
-/

namespace WitnessReplay

variable {α β ε : Type}

theorem bind_eq_ok_iff {x : Except ε α} {f : α → Except ε β} {b : β} :
    x >>= f = .ok b ↔ ∃ a, x = .ok a ∧ f a = .ok b := by
  cases x with
  | error e =>
    constructor
    · intro h
      cases h
    · rintro ⟨a, ha, -⟩
      cases ha
  | ok a =>
    constructor
    · intro h
      exact ⟨a, rfl, h⟩
    · rintro ⟨a', ha, h⟩
      cases ha
      exact h

theorem map_eq_ok_iff {x : Except ε α} {f : α → β} {b : β} :
    x.map f = .ok b ↔ ∃ a, x = .ok a ∧ f a = b := by
  cases x <;> simp [Except.map]

theorem mapError_eq_ok_iff {ε' : Type} {x : Except ε α} {f : ε → ε'} {a : α} :
    x.mapError f = .ok a ↔ x = .ok a := by
  cases x with
  | error e => exact ⟨nofun, nofun⟩
  | ok b =>
    constructor
    · intro h
      cases h
      rfl
    · intro h
      cases h
      rfl

theorem mapError_eq_error_iff {ε' : Type} {x : Except ε α} {f : ε → ε'} {e' : ε'} :
    x.mapError f = .error e' ↔ ∃ e, x = .error e ∧ e' = f e := by
  cases x with
  | error e =>
    have hmap : (Except.error e : Except ε α).mapError f = .error (f e) := rfl
    rw [hmap]
    constructor
    · intro h
      cases h
      exact ⟨e, rfl, rfl⟩
    · rintro ⟨_, h, rfl⟩
      cases h
      rfl
  | ok a =>
    constructor
    · intro h
      cases h
    · rintro ⟨_, h, -⟩
      cases h

section State

variable {σ : Type} {x : ExceptT ε (StateM σ) α} {f : α → ExceptT ε (StateM σ) β} {s s' : σ}
    {a : α} {b : β} {e : ε}

theorem exceptT_bind_of_ok (h : x s = (.ok a, s')) (f : α → ExceptT ε (StateM σ) β) :
    (x >>= f) s = f a s' := by
  show (StateT.bind x (ExceptT.bindCont f)) s = _
  simp only [StateT.bind, h]
  rfl

theorem exceptT_bind_of_error (h : x s = (.error e, s')) (f : α → ExceptT ε (StateM σ) β) :
    (x >>= f) s = (.error e, s') := by
  show (StateT.bind x (ExceptT.bindCont f)) s = _
  simp only [StateT.bind, h]
  rfl

theorem exceptT_bind_eq_ok_iff :
    (x >>= f) s = (.ok b, s') ↔ ∃ a t, x s = (.ok a, t) ∧ f a t = (.ok b, s') := by
  constructor
  · intro h
    rcases hx : x s with ⟨result, t⟩
    cases result with
    | error e =>
      rw [exceptT_bind_of_error hx] at h
      cases h
    | ok a =>
      rw [exceptT_bind_of_ok hx] at h
      exact ⟨a, t, rfl, h⟩
  · rintro ⟨a, t, hx, hf⟩
    rw [exceptT_bind_of_ok hx]
    exact hf

theorem exceptT_bind_eq_error (h : (x >>= f) s = (.error e, s')) :
    x s = (.error e, s') ∨ ∃ a t, x s = (.ok a, t) ∧ f a t = (.error e, s') := by
  rcases hx : x s with ⟨result, t⟩
  cases result with
  | error e' =>
    rw [exceptT_bind_of_error hx] at h
    cases h
    exact .inl rfl
  | ok a =>
    rw [exceptT_bind_of_ok hx] at h
    exact .inr ⟨a, t, rfl, h⟩

theorem exceptT_adapt {ε' : Type} {result : Except ε α} (h : x s = (result, s')) (g : ε → ε') :
    x.adapt g s = (result.mapError g, s') := by
  show (StateT.map (Except.mapError g) x) s = _
  simp only [StateT.map, h]
  rfl

theorem exceptT_adapt_eq_ok {ε' : Type} {g : ε → ε'} (h : x.adapt g s = (.ok a, s')) :
    x s = (.ok a, s') := by
  rcases hx : x s with ⟨result, t⟩
  rw [exceptT_adapt hx] at h
  cases result with
  | error e => cases h
  | ok a' =>
    cases h
    rfl

theorem exceptT_adapt_eq_error {ε' : Type} {g : ε → ε'} {e' : ε'}
    (h : x.adapt g s = (.error e', s')) :
    ∃ e, x s = (.error e, s') ∧ g e = e' := by
  rcases hx : x s with ⟨result, t⟩
  rw [exceptT_adapt hx] at h
  cases result with
  | error e =>
    cases h
    exact ⟨e, rfl, rfl⟩
  | ok a => cases h

end State

/-- What holds at the start of a fold that may fail, and is kept by its steps, holds when the
fold has succeeded. -/
theorem foldlM_keeps {step : β → α → Except ε β} (P : β → Prop)
    (hstep : ∀ b a b', P b → step b a = .ok b' → P b')
    (items : List α) : ∀ {b b' : β}, P b → items.foldlM step b = .ok b' → P b' := by
  induction items with
  | nil =>
    intro b b' hb h
    cases h
    exact hb
  | cons a rest ih =>
    intro b b' hb h
    rw [List.foldlM_cons, bind_eq_ok_iff] at h
    obtain ⟨c, hc, hrest⟩ := h
    exact ih (hstep b a c hb hc) hrest

end WitnessReplay
