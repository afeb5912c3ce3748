import Mathlib.Data.Nat.Notation

/-!
# Programs that may fail

`Ends` says in which states a program ends, well or not. `Keeps` is the case of one property that
holds before and after, whichever way the program ends. `Agree` is for two programs that do the same
where some property holds on the way. `Follows` compares the runs of two programs from related
states: where the first ends well so does the second, with the same result. Neither the states nor
the failures have to be the same on both sides.
-/

namespace Replog.Library

universe u

variable {ε ε' σ τ α β : Type u}

/-- What is read off a run that ends well, and `d` where it fails. -/
def okValue (f : α → σ → β) (d : β) : EStateM.Result ε σ α → β
  | .ok a s => f a s
  | .error _ _ => d

/-- A run that ends well does so in `good`, one that fails does so in `bad`. -/
def Ends (good : α → σ → Prop) (bad : ε → σ → Prop) : EStateM.Result ε σ α → Prop
  | .ok a s => good a s
  | .error e s => bad e s

theorem Ends.imp {good good' : α → σ → Prop} {bad bad' : ε → σ → Prop}
    {res : EStateM.Result ε σ α} (h : Ends good bad res) (hgood : ∀ a s, good a s → good' a s)
    (hbad : ∀ e s, bad e s → bad' e s) : Ends good' bad' res := by
  cases res with
  | ok a s => exact hgood a s h
  | error e s => exact hbad e s h

theorem Ends.imp_bad {good : α → σ → Prop} {bad bad' : ε → σ → Prop}
    {res : EStateM.Result ε σ α} (h : Ends good bad res) (hbad : ∀ e s, bad e s → bad' e s) :
    Ends good bad' res :=
  h.imp (fun _ _ hgood => hgood) hbad

/-- A failure of either half is a failure of the whole. -/
theorem Ends.bind (mid : α → σ → Prop) {good : β → σ → Prop} {bad : ε → σ → Prop}
    {x : EStateM ε σ α} {f : α → EStateM ε σ β} {s : σ} (hx : Ends mid bad (x.run s))
    (hf : ∀ a s', mid a s' → Ends good bad ((f a).run s')) : Ends good bad ((x >>= f).run s) := by
  rw [EStateM.run_bind]
  cases hrun : x.run s with
  | ok a s' =>
    rw [hrun] at hx
    exact hf a s' hx
  | error e s' =>
    rw [hrun] at hx
    exact hx

/-- What is known of the runs that end well. -/
theorem Ends.and_good {good good' : α → σ → Prop} {bad : ε → σ → Prop}
    {res : EStateM.Result ε σ α} (h : Ends good bad res)
    (hgood : ∀ a s, res = .ok a s → good' a s) :
    Ends (fun a s => good a s ∧ good' a s) bad res := by
  cases res with
  | ok a s => exact ⟨h, hgood a s rfl⟩
  | error e s => exact h

theorem Ends.and {good good' : α → σ → Prop} {bad bad' : ε → σ → Prop}
    {res : EStateM.Result ε σ α} (h : Ends good bad res) (h' : Ends good' bad' res) :
    Ends (fun a s => good a s ∧ good' a s) (fun e s => bad e s ∧ bad' e s) res := by
  cases res with
  | ok a s => exact ⟨h, h'⟩
  | error e s => exact ⟨h, h'⟩

/-- From a state with `P` the program ends in one, well or not. -/
def Keeps (P : σ → Prop) (x : EStateM ε σ α) : Prop :=
  ∀ s, P s → Ends (fun _ s' => P s') (fun _ s' => P s') (x.run s)

namespace Keeps

variable {P : σ → Prop}

theorem pure (a : α) : Keeps P (Pure.pure a : EStateM ε σ α) := fun _ hs => hs

theorem throw (e : ε) : Keeps P (MonadExcept.throw e : EStateM ε σ α) := fun _ hs => hs

theorem bind {x : EStateM ε σ α} {f : α → EStateM ε σ β} (hx : Keeps P x)
    (hf : ∀ a, Keeps P (f a)) : Keeps P (x >>= f) :=
  fun s hs => (hx s hs).bind _ fun a s' hs' => hf a s' hs'

theorem ite {p : Prop} [Decidable p] {x y : EStateM ε σ α} (hx : Keeps P x) (hy : Keeps P y) :
    Keeps P (if p then x else y) := by
  by_cases hp : p
  · simpa only [if_pos hp] using hx
  · simpa only [if_neg hp] using hy

theorem trivial (x : EStateM ε σ α) : Keeps (fun _ => True) x := by
  intro s _
  cases x.run s <;> exact True.intro

/-- The state after a failure. -/
theorem of_error {x : EStateM ε σ α} (h : Keeps P x) {s s' : σ} {e : ε} (hs : P s)
    (hrun : x.run s = .error e s') : P s' := by
  have hends := h s hs
  rw [hrun] at hends
  exact hends

theorem of_ok {x : EStateM ε σ α} (h : Keeps P x) {s s' : σ} {a : α} (hs : P s)
    (hrun : x.run s = .ok a s') : P s' := by
  have hends := h s hs
  rw [hrun] at hends
  exact hends

end Keeps

/-- Two runs are one, which ends in `good` or in `bad`. -/
def Agree (good : α → σ → Prop) (bad : ε → σ → Prop) (res res' : EStateM.Result ε σ α) : Prop :=
  res = res' ∧ Ends good bad res'

namespace Agree

variable {good : β → σ → Prop} {bad : ε → σ → Prop}

theorem refl {res : EStateM.Result ε σ β} (h : Ends good bad res) : Agree good bad res res :=
  ⟨rfl, h⟩

/-- The second halves need to agree only where the first one ends well. -/
theorem bind (mid : α → σ → Prop) {x y : EStateM ε σ α} {f g : α → EStateM ε σ β} {s : σ}
    (hx : Agree mid bad (x.run s) (y.run s))
    (hf : ∀ a s', mid a s' → Agree good bad ((f a).run s') ((g a).run s')) :
    Agree good bad ((x >>= f).run s) ((y >>= g).run s) := by
  obtain ⟨hrun, hends⟩ := hx
  refine ⟨?_, Ends.bind mid hends fun a s' ha => (hf a s' ha).2⟩
  rw [EStateM.run_bind, EStateM.run_bind, hrun]
  cases hy : y.run s with
  | ok a s' =>
    rw [hy] at hends
    exact (hf a s' hends).1
  | error e s' => rfl

/-- The first halves are one program. -/
theorem bind_left (mid : α → σ → Prop) {x : EStateM ε σ α} {f g : α → EStateM ε σ β} {s : σ}
    (hx : Ends mid bad (x.run s))
    (hf : ∀ a s', mid a s' → Agree good bad ((f a).run s') ((g a).run s')) :
    Agree good bad ((x >>= f).run s) ((x >>= g).run s) :=
  Agree.bind mid (.refl hx) hf

end Agree

/-- Whenever `x` ends well, `y` does so from a related state, with the same result. -/
def Follows (R : σ → τ → Prop) (x : EStateM ε σ α) (y : EStateM ε' τ α) : Prop :=
  ∀ s t, R s t → ∀ a s', x.run s = .ok a s' → ∃ t', y.run t = .ok a t' ∧ R s' t'

namespace Follows

variable {R : σ → τ → Prop}

theorem pure (a : α) :
    Follows R (Pure.pure a : EStateM ε σ α) (Pure.pure a : EStateM ε' τ α) := by
  intro s t hR a' s' hrun
  cases hrun
  exact ⟨t, rfl, hR⟩

theorem throw (e : ε) (y : EStateM ε' τ α) :
    Follows R (MonadExcept.throw e : EStateM ε σ α) y := by
  intro s t hR a s' hrun
  cases hrun

theorem bind {x : EStateM ε σ α} {y : EStateM ε' τ α} {f : α → EStateM ε σ β}
    {g : α → EStateM ε' τ β} (hx : Follows R x y) (hf : ∀ a, Follows R (f a) (g a)) :
    Follows R (x >>= f) (y >>= g) := by
  intro s t hR b s'' hrun
  rw [EStateM.run_bind] at hrun
  cases hfirst : x.run s with
  | error e s' =>
    rw [hfirst] at hrun
    cases hrun
  | ok a s' =>
    rw [hfirst] at hrun
    obtain ⟨t', hy, hR'⟩ := hx s t hR a s' hfirst
    obtain ⟨t'', hg, hR''⟩ := hf a s' t' hR' b s'' hrun
    refine ⟨t'', ?_, hR''⟩
    rw [EStateM.run_bind, hy]
    exact hg

/-- A program that looks at its whole state goes on as the other one does. -/
theorem get_bind {f : σ → EStateM ε σ α} {g : τ → EStateM ε' τ α}
    (h : ∀ s t, R s t → Follows R (f s) (g t)) :
    Follows R (get >>= f) (get >>= g) :=
  fun s t hR a s' hrun => h s t hR s t hR a s' hrun

theorem ite {p : Prop} [Decidable p] {x x' : EStateM ε σ α} {y y' : EStateM ε' τ α}
    (hthen : Follows R x y) (helse : Follows R x' y') :
    Follows R (if p then x else x') (if p then y else y') := by
  by_cases hp : p
  · simpa only [if_pos hp] using hthen
  · simpa only [if_neg hp] using helse

end Follows

end Replog.Library
