import Mallob.Runs

namespace Mallob.Reentrant

variable {σ ε α β H C : Type}

/-- A procedure fails, returns a value, or calls another component. Until that call returns, the component may
call back; the rest of the procedure then meets the state that the callbacks have left. -/
inductive Outcome (σ ε α : Type)
  | failed (e : ε)
  | returned (a : α) (s : σ)
  | calling (s : σ) (resume : σ → Outcome σ ε α)

def Outcome.bind (f : α → σ → Outcome σ ε β) : Outcome σ ε α → Outcome σ ε β
  | .failed e => .failed e
  | .returned a s => f a s
  | .calling s resume => .calling s fun s' => (resume s').bind f

def Proc (σ ε α : Type) := σ → Outcome σ ε α

namespace Proc

instance : Monad (Proc σ ε) where
  pure a := fun s => .returned a s
  bind x f := fun s => (x s).bind f

def get : Proc σ ε σ := fun s => .returned s s
def modify (f : σ → σ) : Proc σ ε Unit := fun s => .returned () (f s)
def fail (e : ε) : Proc σ ε α := fun _ => .failed e
def call : Proc σ ε Unit := fun s => .calling s fun s' => .returned () s'
def ensure (b : Bool) (e : ε) : Proc σ ε Unit := if b then pure () else fail e

def when (p : Prop) [Decidable p] (x : Proc σ ε Unit) : Proc σ ε Unit := if p then x else pure ()

def ofExcept : Except ε α → Proc σ ε α
  | .ok a => pure a
  | .error e => fail e

def ofOption (e : ε) : Option α → Proc σ ε α
  | some a => pure a
  | none => fail e

end Proc

/-- What holds whenever another component is called, what its callbacks do at most, and which failures
can happen. -/
structure Contract (σ ε : Type) where
  invariant : σ → Prop
  rely : σ → σ → Prop
  tolerated : ε → Prop
  refl : ∀ s, rely s s
  trans : ∀ {s₁ s₂ s₃}, rely s₁ s₂ → rely s₂ s₃ → rely s₁ s₃

variable {c : Contract σ ε} {Q Q' : α → σ → Prop} {s s' : σ} {o : Outcome σ ε α}

def Outcome.Satisfies (c : Contract σ ε) (Q : α → σ → Prop) : Outcome σ ε α → Prop
  | .failed e => c.tolerated e
  | .returned a s => Q a s
  | .calling s resume => c.invariant s ∧ ∀ s', c.invariant s' → c.rely s s' → (resume s').Satisfies c Q

theorem Outcome.Satisfies.mono (h : o.Satisfies c Q) (hQ : ∀ a s, Q a s → Q' a s) : o.Satisfies c Q' := by
  induction o with
  | failed e => exact h
  | returned a s => exact hQ a s h
  | calling s resume ih => exact ⟨h.1, fun s' hs hr => ih s' (h.2 s' hs hr)⟩

theorem Outcome.satisfies_bind {Q : β → σ → Prop} {f : α → σ → Outcome σ ε β} :
    (o.bind f).Satisfies c Q ↔ o.Satisfies c fun a s => (f a s).Satisfies c Q := by
  induction o with
  | failed e => exact Iff.rfl
  | returned a s => exact Iff.rfl
  | calling s resume ih => exact and_congr_right fun _ => forall₃_congr fun s' _ _ => ih s'

namespace Proc

def Ensures (c : Contract σ ε) (x : Proc σ ε α) (s : σ) (Q : α → σ → Prop) : Prop := (x s).Satisfies c Q

variable {x : Proc σ ε α} {f : α → Proc σ ε β}

theorem Ensures.mono (h : x.Ensures c s Q) (hQ : ∀ a s, Q a s → Q' a s) : x.Ensures c s Q' :=
  Outcome.Satisfies.mono h hQ

@[simp] theorem ensures_bind {Q : β → σ → Prop} :
    (x >>= f).Ensures c s Q ↔ x.Ensures c s fun a s => (f a).Ensures c s Q := Outcome.satisfies_bind

@[simp] theorem ensures_pure (a : α) : (pure a : Proc σ ε α).Ensures c s Q ↔ Q a s := Iff.rfl

@[simp] theorem ensures_get {Q : σ → σ → Prop} : (get : Proc σ ε σ).Ensures c s Q ↔ Q s s := Iff.rfl

@[simp] theorem ensures_modify (f : σ → σ) {Q : Unit → σ → Prop} :
    (modify f : Proc σ ε Unit).Ensures c s Q ↔ Q () (f s) := Iff.rfl

@[simp] theorem ensures_fail (e : ε) : (fail e : Proc σ ε α).Ensures c s Q ↔ c.tolerated e := Iff.rfl

@[simp] theorem ensures_call {Q : Unit → σ → Prop} : (call : Proc σ ε Unit).Ensures c s Q ↔
    c.invariant s ∧ ∀ s', c.invariant s' → c.rely s s' → Q () s' := Iff.rfl

@[simp] theorem ensures_ensure {b : Bool} {e : ε} {Q : Unit → σ → Prop} :
    (ensure b e : Proc σ ε Unit).Ensures c s Q ↔ if b then Q () s else c.tolerated e := by
  cases b <;> rfl

@[simp] theorem ensures_when {p : Prop} [Decidable p] {x : Proc σ ε Unit} {Q : Unit → σ → Prop} :
    (when p x).Ensures c s Q ↔ if p then x.Ensures c s Q else Q () s := by
  rw [when]
  split <;> rfl

@[simp] theorem ensures_ofExcept {r : Except ε α} : (ofExcept r : Proc σ ε α).Ensures c s Q ↔
    (∀ a, r = .ok a → Q a s) ∧ ∀ e, r = .error e → c.tolerated e := by
  cases r with
  | ok a => simp [ofExcept]
  | error e => simp [ofExcept]

@[simp] theorem ensures_ofOption {r : Option α} {e : ε} : (ofOption e r : Proc σ ε α).Ensures c s Q ↔
    (∀ a, r = some a → Q a s) ∧ (r = none → c.tolerated e) := by
  cases r with
  | some a => simp [ofOption]
  | none => simp [ofOption]

def KeepsFrom (c : Contract σ ε) (x : Proc σ ε α) (s : σ) : Prop :=
  x.Ensures c s fun _ s' => c.invariant s' ∧ c.rely s s'

theorem KeepsFrom.since {s₁ : σ} (h : x.KeepsFrom c s₁) (hr : c.rely s s₁) :
    x.Ensures c s₁ fun _ s' => c.invariant s' ∧ c.rely s s' :=
  h.mono fun _ _ hkept => ⟨hkept.1, c.trans hr hkept.2⟩

def Keeps (c : Contract σ ε) (x : Proc σ ε α) : Prop := ∀ s, c.invariant s → x.KeepsFrom c s

theorem Keeps.bind (hx : x.Keeps c) (hf : ∀ a, (f a).Keeps c) : (x >>= f).Keeps c := by
  intro s hs
  rw [KeepsFrom, ensures_bind]
  exact (hx s hs).mono fun a s₁ ⟨hs₁, hr₁⟩ => (hf a s₁ hs₁).since hr₁

theorem keeps_pure (a : α) : (pure a : Proc σ ε α).Keeps c := fun s hs => ⟨hs, c.refl s⟩

theorem keeps_call : (call : Proc σ ε Unit).Keeps c := fun _ hs => ⟨hs, fun _ hs' hr => ⟨hs', hr⟩⟩

theorem ensures_forM {P : σ → Prop} {xs : List α} {f : α → Proc σ ε Unit}
    (h : ∀ a ∈ xs, ∀ s, P s → (f a).Ensures c s fun _ s' => P s') (hs : P s) :
    (xs.forM f).Ensures c s fun _ s' => P s' := by
  induction xs generalizing s with
  | nil => exact hs
  | cons a xs ih =>
      have hrounds : (f a >>= fun _ => xs.forM f).Ensures c s fun _ s' => P s' := by
        rw [ensures_bind]
        refine (h a (List.mem_cons_self ..) s hs).mono fun _ s₁ hs₁ => ?_
        exact ih (fun b hb => h b (List.mem_cons_of_mem _ hb)) hs₁
      exact hrounds

theorem keeps_forM {xs : List α} {f : α → Proc σ ε Unit} (h : ∀ a ∈ xs, (f a).Keeps c) : (xs.forM f).Keeps c := by
  intro s hs
  refine ensures_forM (P := fun s' => c.invariant s' ∧ c.rely s s') (fun a ha s₁ ⟨hs₁, hr₁⟩ => ?_) ⟨hs, c.refl s⟩
  exact (h a ha s₁ hs₁).since hr₁

theorem keeps_ite {p : Prop} [Decidable p] {x y : Proc σ ε α} (hx : x.Keeps c) (hy : y.Keeps c) :
    (if p then x else y).Keeps c := by
  split
  · exact hx
  · exact hy

theorem keeps_when {p : Prop} [Decidable p] {x : Proc σ ε Unit} (hx : x.Keeps c) : (when p x).Keeps c :=
  keeps_ite hx (keeps_pure ())

def Preserves (c : Contract σ ε) (x : Proc σ ε α) : Prop :=
  ∀ s, c.invariant s → x.Ensures c s fun _ s' => c.invariant s'

theorem Keeps.preserves (h : x.Keeps c) : x.Preserves c := fun s hs => (h s hs).mono fun _ _ h => h.1

theorem Preserves.bind (hx : x.Preserves c) (hf : ∀ a, (f a).Preserves c) : (x >>= f).Preserves c := by
  intro s hs
  rw [ensures_bind]
  exact (hx s hs).mono fun a s₁ hs₁ => hf a s₁ hs₁

theorem preserves_when {p : Prop} [Decidable p] {x : Proc σ ε Unit} (hx : x.Preserves c) :
    (when p x).Preserves c := by
  rw [when]
  split
  · exact hx
  · exact (keeps_pure ()).preserves

end Proc

structure Component (σ ε H C : Type) where
  handle : H → Proc σ ε Unit
  callback : C → Proc σ ε Unit

inductive Action (H C : Type)
  | handle (h : H)
  | callback (c : C)
  | resume

/-- The state with the rests of the procedures that wait for a call to return, the innermost one first. -/
abbrev Frames (σ ε : Type) := List (σ → Outcome σ ε Unit)

def settle (frames : Frames σ ε) : Outcome σ ε Unit → Except ε (σ × Frames σ ε)
  | .failed e => .error e
  | .returned _ s => .ok (s, frames)
  | .calling s resume => .ok (s, resume :: frames)

/-- A handler starts when no call is under way, a callback only during a call. Other actions are not possible
and change nothing. -/
def Component.step (m : Component σ ε H C) (s : σ × Frames σ ε) : Action H C → Except ε (σ × Frames σ ε)
  | .handle h => if s.2.isEmpty then settle [] (m.handle h s.1) else .ok s
  | .callback b => if s.2.isEmpty then .ok s else settle s.2 (m.callback b s.1)
  | .resume => match s.2 with
    | [] => .ok s
    | resume :: frames => settle frames (resume s.1)

def Ready (c : Contract σ ε) : σ → Frames σ ε → Prop
  | _, [] => True
  | s, resume :: frames => ∀ s', c.invariant s' → c.rely s s' →
      (resume s').Satisfies c fun _ u => c.invariant u ∧ Ready c u frames

theorem Ready.mono {frames : Frames σ ε} (h : Ready c s frames) (hr : c.rely s s') : Ready c s' frames := by
  cases frames with
  | nil => trivial
  | cons resume frames => exact fun u hu hs => h u hu (c.trans hr hs)

theorem settle_sound {frames : Frames σ ε} {o : Outcome σ ε Unit}
    (h : o.Satisfies c fun _ u => c.invariant u ∧ Ready c u frames) :
    (∀ r, settle frames o = .ok r → c.invariant r.1 ∧ Ready c r.1 r.2) ∧
      ∀ e, settle frames o = .error e → c.tolerated e := by
  cases o with
  | failed e => exact ⟨fun r hr => (nomatch hr), fun e' he => Except.error.inj he ▸ h⟩
  | returned a s => exact ⟨fun r hr => Except.ok.inj hr ▸ h, fun e he => by cases he⟩
  | calling s resume => exact ⟨fun r hr => Except.ok.inj hr ▸ h, fun e he => by cases he⟩

theorem Component.step_sound {m : Component σ ε H C} {s : σ × Frames σ ε}
    (hhandle : ∀ h, (m.handle h).Preserves c)
    (hcallback : ∀ b, (m.callback b).Keeps c) (hs : c.invariant s.1 ∧ Ready c s.1 s.2) (a : Action H C) :
    (∀ r, m.step s a = .ok r → c.invariant r.1 ∧ Ready c r.1 r.2) ∧ ∀ e, m.step s a = .error e → c.tolerated e := by
  have hsame : (∀ r, Except.ok s = (.ok r : Except ε _) → c.invariant r.1 ∧ Ready c r.1 r.2) ∧
      ∀ e, (Except.ok s : Except ε (σ × Frames σ ε)) = .error e → c.tolerated e :=
    ⟨fun r h => Except.ok.inj h ▸ hs, fun e h => by cases h⟩
  obtain ⟨s, frames⟩ := s
  cases a with
  | handle h =>
      rw [step]
      split
      · exact settle_sound ((hhandle h s hs.1).mono fun _ u hu => ⟨hu, trivial⟩)
      · exact hsame
  | callback b =>
      rw [step]
      split
      · exact hsame
      · exact settle_sound ((hcallback b s hs.1).mono fun _ u ⟨hu, hr⟩ => ⟨hu, hs.2.mono hr⟩)
  | resume =>
      cases frames with
      | nil => exact hsame
      | cons resume frames => exact settle_sound (hs.2 s hs.1 (c.refl s))

/-- If every handler keeps the invariant and every callback keeps to the contract, then the invariant holds
after every run, during calls as well, and no run ends with another failure than a tolerated one. -/
theorem Component.run_sound {m : Component σ ε H C}
    (hhandle : ∀ h, (m.handle h).Preserves c)
    (hcallback : ∀ b, (m.callback b).Keeps c) (hs : c.invariant s) (actions : List (Action H C)) :
    (∀ r, Runs.run m.step (s, []) actions = .ok r → c.invariant r.1) ∧
      ∀ e, Runs.run m.step (s, []) actions = .error e → c.tolerated e := by
  have hok : ∀ as r, Runs.run m.step (s, []) as = .ok r → c.invariant r.1 ∧ Ready c r.1 r.2 := by
    intro as r h
    have hstart : c.invariant (s, ([] : Frames σ ε)).1 ∧ Ready c s [] := ⟨hs, trivial⟩
    exact Runs.run_invariant (P := fun s => c.invariant s.1 ∧ Ready c s.1 s.2) hstart
      (fun s a s' hs h => (m.step_sound hhandle hcallback hs a).1 s' h) h
  refine ⟨fun r h => (hok actions r h).1, ?_⟩
  induction actions using List.reverseRecOn with
  | nil => intro e h; cases h
  | append_singleton as a ih =>
      intro e h
      rcases Runs.run_concat_error h with h | ⟨s₁, h₁, h⟩
      · exact ih e h
      · exact (m.step_sound hhandle hcallback (hok as s₁ h₁) a).2 e h

end Mallob.Reentrant
