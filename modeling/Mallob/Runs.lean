import Mathlib

namespace Mallob.Runs

variable {S A E : Type} {step : S → A → Except E S}

theorem exists_of_map_eq_ok {α β : Type} {x : Except E α} {f : α → β} {b : β} (h : x.map f = .ok b) :
    ∃ a, x = .ok a ∧ f a = b := by
  cases x with
  | error e => cases h
  | ok a => exact ⟨a, rfl, Except.ok.inj h⟩

theorem exists_of_bind_eq_ok {α β : Type} {x : Except E α} {f : α → Except E β} {b : β} (h : x >>= f = .ok b) :
    ∃ a, x = .ok a ∧ f a = .ok b := by
  cases x with
  | error e => cases h
  | ok a => exact ⟨a, rfl, h⟩

theorem exists_of_toOption {α β : Type} {x : Except E α} {f : α → β} {b : β} (h : x.toOption.map f = some b) :
    ∃ a, x = .ok a ∧ f a = b := by
  cases x with
  | error e => cases h
  | ok a => exact ⟨a, rfl, Option.some.inj h⟩

def run (step : S → A → Except E S) (s : S) (actions : List A) : Except E S := actions.foldlM step s

@[simp] theorem run_nil (s : S) : run step s [] = .ok s := rfl

theorem run_append (s : S) (as bs : List A) :
    run step s (as ++ bs) = (run step s as).bind fun s' => run step s' bs := List.foldlM_append

theorem run_singleton (s : S) (a : A) : run step s [a] = step s a := by
  cases h : step s a with
  | error e => simp [run, h, bind, Except.bind]
  | ok s' => simp [run, h, bind, Except.bind, pure, Except.pure]

theorem run_concat {s s' : S} {as : List A} {a : A} (h : run step s (as ++ [a]) = .ok s') :
    ∃ s₁, run step s as = .ok s₁ ∧ step s₁ a = .ok s' := by
  rw [run_append] at h
  cases hr : run step s as with
  | error e => rw [hr] at h; cases h
  | ok s₁ =>
      rw [hr] at h
      exact ⟨s₁, rfl, (run_singleton s₁ a).symm.trans h⟩

/-- A run fails where its beginning fails or where its last step does. -/
theorem run_concat_error {s : S} {as : List A} {a : A} {e : E} (h : run step s (as ++ [a]) = .error e) :
    run step s as = .error e ∨ ∃ s₁, run step s as = .ok s₁ ∧ step s₁ a = .error e := by
  rw [run_append] at h
  cases hr : run step s as with
  | error e' =>
      rw [hr] at h
      obtain rfl := Except.error.inj h
      exact Or.inl rfl
  | ok s₁ =>
      rw [hr] at h
      exact Or.inr ⟨s₁, rfl, (run_singleton s₁ a).symm.trans h⟩

/-- What holds at the start and is kept by every step holds after every run. -/
theorem run_invariant {P : S → Prop} {s s' : S} {as : List A} (h0 : P s)
    (hstep : ∀ s a s', P s → step s a = .ok s' → P s') (h : run step s as = .ok s') : P s' := by
  induction as using List.reverseRecOn generalizing s' with
  | nil => obtain rfl := Except.ok.inj h; exact h0
  | append_singleton as a ih =>
      obtain ⟨s₁, hr, hs⟩ := run_concat h
      exact hstep s₁ a s' (ih hr) hs

theorem run_take {s s' s₁ : S} {as : List A} {k : Nat} (h : run step s as = .ok s')
    (hk : run step s (as.take k) = .ok s₁) : run step s₁ (as.drop k) = .ok s' := by
  rw [← List.take_append_drop k as, run_append, hk] at h
  exact h

inductive Reaches (step : S → A → Except E S) (permitted : S → A → Prop) (s : S) : List A → S → Prop
  | nil : Reaches step permitted s [] s
  | concat {as : List A} {a : A} {s₁ s₂ : S} : Reaches step permitted s as s₁ → permitted s₁ a →
      step s₁ a = .ok s₂ → Reaches step permitted s (as ++ [a]) s₂

theorem Reaches.invariant {permitted : S → A → Prop} {P : S → Prop} {s s' : S} {as : List A} (h0 : P s)
    (hstep : ∀ s a s', P s → permitted s a → step s a = .ok s' → P s') (h : Reaches step permitted s as s') :
    P s' := by
  induction h with
  | nil => exact h0
  | concat _ hpermitted hok ih => exact hstep _ _ _ ih hpermitted hok

theorem Reaches.run_eq {permitted : S → A → Prop} {s s' : S} {as : List A} (h : Reaches step permitted s as s') :
    run step s as = .ok s' := by
  induction h with
  | nil => rfl
  | concat _ _ hok ih =>
      rw [run_append, ih]
      exact (run_singleton _ _).trans hok

/-- Two outcomes that agree up to a relation of the states and a translation of the faults. The second may stop in a way
of its own. -/
inductive Agree {T F : Type} (R : S → T → Prop) (fault : E → F) (stops : F → Prop) : Except E S → Except F T → Prop
  | ok {s : S} {t : T} : R s t → Agree R fault stops (.ok s) (.ok t)
  | error (e : E) : Agree R fault stops (.error e) (.error (fault e))
  | stop (x : Except E S) {f : F} : stops f → Agree R fault stops x (.error f)

theorem run_agree {T F : Type} {R : S → T → Prop} {fault : E → F} {stops : F → Prop} {step' : T → A → Except F T}
    (hstep : ∀ s t a, R s t → Agree R fault stops (step s a) (step' t a)) {s : S} {t : T} (h : R s t) (as : List A) :
    Agree R fault stops (run step s as) (run step' t as) := by
  induction as generalizing s t with
  | nil => exact .ok h
  | cons a as ih =>
      have hfirst := hstep s t a h
      rw [run, run, List.foldlM_cons, List.foldlM_cons]
      generalize step s a = x, step' t a = y at hfirst ⊢
      cases hfirst with
      | ok hnext => exact ih hnext
      | error e => exact .error e
      | stop x hstops => exact .stop _ hstops

def checked (check : S → A → Bool) (step : S → A → Except E S) (s : S) (a : A) : Option S :=
  if check s a then (step s a).toOption else none

theorem Reaches.of_checked {permitted : S → A → Prop} {check : S → A → Bool}
    (hcheck : ∀ s a, check s a = true → permitted s a) {s s' : S} {as : List A}
    (h : as.foldlM (checked check step) s = some s') : Reaches step permitted s as s' := by
  induction as using List.reverseRecOn generalizing s' with
  | nil =>
      obtain rfl : s = s' := Option.some.inj h
      exact .nil
  | append_singleton as a ih =>
      rw [List.foldlM_append, Option.bind_eq_bind, Option.bind_eq_some_iff] at h
      obtain ⟨s₁, hs₁, hlast⟩ := h
      have hstep : checked check step s₁ a = some s' := by simpa using hlast
      rw [checked] at hstep
      split at hstep
      · next hok =>
          cases hs : step s₁ a with
          | error e => rw [hs] at hstep; cases hstep
          | ok s₂ =>
              rw [hs] at hstep
              obtain rfl := Option.some.inj hstep
              exact .concat (ih hs₁) (hcheck s₁ a hok) hs
      · cases hstep

def Throughout (step : S → A → Except E S) (condition : S → A → Prop) : S → List A → Prop
  | _, [] => True
  | s, a :: as => condition s a ∧ ∀ s', step s a = .ok s' → Throughout step condition s' as

theorem Throughout.after {P : S → A → Prop} {s s' : S} {as bs : List A} {a : A}
    (h : Throughout step P s (as ++ a :: bs)) (hrun : run step s as = .ok s') : P s' a := by
  induction as generalizing s with
  | nil =>
      obtain rfl := Except.ok.inj hrun
      exact h.1
  | cons c as ih =>
      obtain ⟨s₁, hok, hrest⟩ := exists_of_bind_eq_ok hrun
      exact ih (h.2 s₁ hok) hrest

/-- What every step keeps that meets a condition holds after a run whose actions all meet it. -/
theorem Throughout.invariant {condition : S → A → Prop} {P : S → Prop} {s s' : S} {as : List A} (h0 : P s)
    (hstep : ∀ s a s', P s → condition s a → step s a = .ok s' → P s') (h : Throughout step condition s as)
    (hrun : run step s as = .ok s') : P s' := by
  induction as generalizing s with
  | nil =>
      obtain rfl := Except.ok.inj hrun
      exact h0
  | cons a as ih =>
      obtain ⟨s₁, hok, hrest⟩ := exists_of_bind_eq_ok hrun
      exact ih (hstep s a s₁ h0 h.1 hok) (h.2 s₁ hok) hrest

/-- A condition on the states behind the actions is one on all states that are reached. -/
theorem throughout_iff_reached {P : S → Prop} {s : S} (hs : P s) (as : List A) :
    Throughout step (fun s a => ∀ s', step s a = .ok s' → P s') s as ↔
      ∀ k s', run step s (as.take k) = .ok s' → P s' := by
  induction as generalizing s with
  | nil =>
      refine iff_of_true trivial fun k s' hrun => ?_
      rw [List.take_nil] at hrun
      obtain rfl := Except.ok.inj hrun
      exact hs
  | cons a as ih =>
      constructor
      · rintro ⟨hfirst, hrest⟩ k s' hrun
        cases k with
        | zero =>
            obtain rfl := Except.ok.inj hrun
            exact hs
        | succ k =>
            obtain ⟨s₁, hok, hrun⟩ := exists_of_bind_eq_ok hrun
            exact (ih (hfirst s₁ hok)).mp (hrest s₁ hok) k s' hrun
      · intro hall
        have hfirst : ∀ s', step s a = .ok s' → P s' := fun s' hok => hall 1 s' ((run_singleton s a).trans hok)
        refine ⟨hfirst, fun s₁ hok => (ih (hfirst s₁ hok)).mpr fun k s' hrun => ?_⟩
        refine hall (k + 1) s' ?_
        rw [List.take_succ_cons, run, List.foldlM_cons, hok]
        exact hrun

/-- Two conditions that agree under an invariant agree along all runs. -/
theorem throughout_congr {P Q : S → A → Prop} {J : S → Prop} (hiff : ∀ s a, J s → (P s a ↔ Q s a))
    (hstep : ∀ s a s', J s → Q s a → step s a = .ok s' → J s') {s : S} (hs : J s) (as : List A) :
    Throughout step P s as ↔ Throughout step Q s as := by
  induction as generalizing s with
  | nil => exact Iff.rfl
  | cons a as ih =>
      rw [Throughout, Throughout, hiff s a hs]
      exact and_congr_right fun hq => forall₂_congr fun s' hok => ih (hstep s a s' hs hq hok)

/-- In a run to its end the two conditions need to agree only where a step succeeds. -/
theorem throughout_congr_of_run {P Q : S → A → Prop} {J : S → Prop}
    (hiff : ∀ s a s', J s → step s a = .ok s' → (P s a ↔ Q s a))
    (hstep : ∀ s a s', J s → Q s a → step s a = .ok s' → J s') {s s' : S} (hs : J s) {as : List A}
    (hrun : run step s as = .ok s') : Throughout step P s as ↔ Throughout step Q s as := by
  induction as generalizing s with
  | nil => exact Iff.rfl
  | cons a as ih =>
      obtain ⟨s₁, hok, hrest⟩ := exists_of_bind_eq_ok hrun
      rw [Throughout, Throughout, hiff s a s₁ hs hok]
      refine and_congr_right fun hq => forall₂_congr fun s₂ hok₂ => ?_
      obtain rfl := Except.ok.inj (hok.symm.trans hok₂)
      exact ih (hstep s a s₁ hs hq hok) hrest

end Mallob.Runs
