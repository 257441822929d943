import LuaLower.Session.Basic

/-!
# Outcomes of steps

`Yields step s ok failed` says what is true after `step` was run from `s`: `ok` of its result and
the state if it succeeds, `failed` of the error and the state otherwise. One rule for each way in
which steps are put together is all that later modules use.
-/

namespace LuaLower

section Rules

variable {ε σ α β : Type} {x step : EStateM ε σ α} {k : α → EStateM ε σ β} {s t : σ} {a : α} {e : ε}
  {P P' : α → σ → Prop} {Q : β → σ → Prop} {E F : ε → σ → Prop}

def Yields (step : EStateM ε σ α) (s : σ) (ok : α → σ → Prop) (failed : ε → σ → Prop) : Prop :=
  match step s with
  | .ok a t => ok a t
  | .error e t => failed e t

theorem Yields.result (h : Yields step s P E) (hs : step s = .ok a t) : P a t := by
  simpa only [Yields, hs] using h

theorem Yields.failure (h : Yields step s P E) (hs : step s = .error e t) : E e t := by
  simpa only [Yields, hs] using h

theorem Yields.of_ok (hs : step s = .ok a t) (h : P a t) : Yields step s P E := by
  simpa only [Yields, hs] using h

theorem Yields.of_error (hs : step s = .error e t) (h : E e t) : Yields step s P E := by
  simpa only [Yields, hs] using h

theorem Yields.mono (h : Yields step s P E) (hP : ∀ a t, P a t → P' a t)
    (hE : ∀ e t, E e t → F e t) : Yields step s P' F := by
  cases hs : step s with
  | ok a t => exact .of_ok hs (hP a t (h.result hs))
  | error e t => exact .of_error hs (hE e t (h.failure hs))

theorem Yields.of_eq {other : EStateM ε σ α} (h : Yields other t P E) (hs : step s = other t) :
    Yields step s P E := by
  simpa only [Yields, hs] using h

theorem yields_pure (h : P a s) : Yields (pure a : EStateM ε σ α) s P E := h

theorem yields_throw (h : E e s) : Yields (throw e : EStateM ε σ α) s P E := h

theorem bind_of_ok (hs : x s = .ok a t) : (x >>= k) s = k a t := by
  simp only [Bind.bind, EStateM.bind, hs]

theorem bind_of_error (hs : x s = .error e t) : (x >>= k) s = .error e t := by
  simp only [Bind.bind, EStateM.bind, hs]

theorem get_bind {k : σ → EStateM ε σ β} : (get >>= k) s = k s s := rfl

/-- A step that succeeds succeeds in both of its parts. -/
theorem bind_eq_ok {b : β} {u : σ} (h : (x >>= k) s = .ok b u) :
    ∃ a t, x s = .ok a t ∧ k a t = .ok b u := by
  cases hs : x s with
  | ok a t => exact ⟨a, t, rfl, by rwa [bind_of_ok hs] at h⟩
  | error e t =>
    rw [bind_of_error hs] at h
    cases h

/-- Steps that begin alike, from the same state, and go on alike end alike, whatever the outcome. -/
theorem bind_congr_at {y : EStateM ε σ α} {k' : α → EStateM ε σ β} (hxy : x s = y s)
    (hk : ∀ a t, y s = .ok a t → k a t = k' a t) : (x >>= k) s = (y >>= k') s := by
  cases hs : y s with
  | ok a t => rw [bind_of_ok (hxy.trans hs), bind_of_ok hs, hk a t hs]
  | error e t => rw [bind_of_error (hxy.trans hs), bind_of_error hs]

theorem Yields.bind (hx : Yields x s P E) (hk : ∀ a t, P a t → Yields (k a) t Q E) :
    Yields (x >>= k) s Q E := by
  cases hs : x s with
  | ok a t =>
    have hka := hk a t (hx.result hs)
    simpa only [Yields, bind_of_ok hs] using hka
  | error e t => exact .of_error (bind_of_error hs) (hx.failure hs)

end Rules

section Results

variable {ε α β : Type} {x : Except ε α}

theorem exists_ok_of_isOk (h : x.isOk = true) : ∃ a, x = .ok a := by
  cases x with
  | ok a => exact ⟨a, rfl⟩
  | error e => cases h

theorem exists_ok_of_toOption {f : α → β} {b : β} (h : x.toOption.map f = some b) :
    ∃ a, x = .ok a ∧ f a = b := by
  cases x with
  | ok a => exact ⟨a, rfl, Option.some.inj h⟩
  | error e => cases h

theorem exists_ok_of_run {ε σ α : Type} {x : EStateM ε σ α} {s : σ} {a : α}
    (h : EStateM.run' x s = some a) : ∃ t, x s = .ok a t := by
  delta EStateM.run' EStateM.run at h
  cases hrun : x s with
  | ok b t =>
    rw [hrun] at h
    cases h
    exact ⟨t, rfl⟩
  | error e t =>
    rw [hrun] at h
    cases h

end Results

/-! ## Steps of a session -/

namespace Lower

variable {α : Type} {s : Session}

theorem onCurrent_of_ok {step : Build α} {a : α} {f : OpenFunction}
    (h : step s.current = .ok a f) : onCurrent step s = .ok a { s with current := f } := by
  simp only [onCurrent, h]

theorem onCurrent_of_error {step : Build α} {e : Failure} {f : OpenFunction}
    (h : step s.current = .error e f) :
    onCurrent step s = .error e { s with current := f } := by
  simp only [onCurrent, h]

theorem onCurrent_congr {x y : Build α} (h : x s.current = y s.current) :
    onCurrent x s = onCurrent y s := by
  simp only [onCurrent, h]

theorem onCurrent_pure (a : α) : onCurrent (pure a) = pure a := rfl

theorem onCurrent_bind {β : Type} (x : Build α) (k : α → Build β) :
    onCurrent (x >>= k) = onCurrent x >>= fun a ↦ onCurrent (k a) := by
  funext s
  cases hx : x s.current with
  | ok a f =>
    rw [bind_of_ok (onCurrent_of_ok hx)]
    simp only [onCurrent, bind_of_ok hx]
  | error e f =>
    rw [bind_of_error (onCurrent_of_error hx)]
    simp only [onCurrent, bind_of_error hx]

theorem yields_onCurrent {step : Build α} {P : α → OpenFunction → Prop}
    {E : Failure → OpenFunction → Prop} (h : Yields step s.current P E) :
    Yields (onCurrent step) s (fun a t ↦ P a t.current ∧ t = { s with current := t.current })
      (fun e t ↦ E e t.current ∧ t = { s with current := t.current }) := by
  cases hs : step s.current with
  | ok a f => exact .of_ok (onCurrent_of_ok hs) ⟨h.result hs, rfl⟩
  | error e f => exact .of_error (onCurrent_of_error hs) ⟨h.failure hs, rfl⟩

end Lower

theorem ofExcept_eq_ok {σ α : Type} {s t : σ} {y : Except Failure α} {a : α}
    (h : (MonadExcept.ofExcept y : EStateM Failure σ α) s = .ok a t) : y = .ok a ∧ t = s := by
  cases y with
  | ok b =>
    cases h
    exact ⟨rfl, rfl⟩
  | error e => cases h

end LuaLower
