import Mathlib

namespace Mallob.RangeChains

variable {ρ σ : Type} (start size : ρ → Nat)

def Chain : Nat → Nat → List ρ → Prop
  | a, b, [] => a = b
  | a, b, r :: rs => start r = a ∧ Chain (a + size r) b rs

variable {start size} {a b c : Nat} {r r' : ρ} {rs rs' : List ρ}

@[simp] theorem chain_nil : Chain start size a b [] ↔ a = b := Iff.rfl

@[simp] theorem chain_cons : Chain start size a b (r :: rs) ↔ start r = a ∧ Chain start size (a + size r) b rs := Iff.rfl

theorem chain_append : Chain start size a b (rs ++ rs') ↔ ∃ c, Chain start size a c rs ∧ Chain start size c b rs' := by
  induction rs generalizing a with
  | nil => simp
  | cons r rs ih => simp only [List.cons_append, chain_cons, ih, and_assoc, exists_and_left]

theorem Chain.concat (h : Chain start size a b rs) (hr : start r = b) : Chain start size a (b + size r) (rs ++ [r]) :=
  chain_append.mpr ⟨b, h, hr, rfl⟩

theorem Chain.le (h : Chain start size a b rs) : a ≤ b := by
  induction rs generalizing a with
  | nil => exact h.le
  | cons r rs ih => exact (Nat.le_add_right a _).trans (ih h.2)

theorem Chain.bounds (h : Chain start size a b rs) (hr : r ∈ rs) : a ≤ start r ∧ start r + size r ≤ b := by
  obtain ⟨pre, post, rfl⟩ := List.append_of_mem hr
  obtain ⟨c, hpre, hstart, hpost⟩ := chain_append.mp h
  have hle := hpre.le
  have hle' := hpost.le
  omega

theorem Chain.end_unique (h : Chain start size a b rs) (h' : Chain start size a c rs) : b = c := by
  induction rs generalizing a with
  | nil => exact h.symm.trans h'
  | cons r rs ih => exact ih h.2 h'.2

theorem Chain.nil_of_eq (hpos : ∀ r ∈ rs, 0 < size r) (h : Chain start size a a rs) : rs = [] := by
  cases rs with
  | nil => rfl
  | cons r rs =>
      have hle := h.2.le
      have hr := hpos r (List.mem_cons_self ..)
      omega

theorem Chain.split (h : Chain start size a b rs) (hr : r ∈ rs) :
    ∃ pre post, rs = pre ++ r :: post ∧ Chain start size a (start r) pre := by
  obtain ⟨pre, post, rfl⟩ := List.append_of_mem hr
  obtain ⟨c, hpre, rfl, -⟩ := chain_append.mp h
  exact ⟨pre, post, rfl, hpre⟩

/-- Two ranges of a chain are the same one, or one ends before the other begins. -/
theorem Chain.apart (h : Chain start size a b rs) (hr : r ∈ rs) (hr' : r' ∈ rs) :
    r = r' ∨ start r + size r ≤ start r' ∨ start r' + size r' ≤ start r := by
  induction rs generalizing a with
  | nil => cases hr
  | cons x rs ih =>
      obtain ⟨hx, hrest⟩ := h
      rcases List.mem_cons.mp hr with rfl | hmem
      · rcases List.mem_cons.mp hr' with rfl | hmem'
        · exact Or.inl rfl
        · have hb := hrest.bounds hmem'
          omega
      · rcases List.mem_cons.mp hr' with rfl | hmem'
        · have hb := hrest.bounds hmem
          omega
        · exact ih hrest hmem hmem'

theorem Chain.map {start' size' : σ → Nat} {f : ρ → σ} (h : Chain start size a b rs)
    (hstart : ∀ r ∈ rs, start' (f r) = start r) (hsize : ∀ r ∈ rs, size' (f r) = size r) :
    Chain start' size' a b (rs.map f) := by
  induction rs generalizing a with
  | nil => exact h
  | cons r rs ih =>
      refine ⟨(hstart r (List.mem_cons_self ..)).trans h.1, ?_⟩
      rw [hsize r (List.mem_cons_self ..)]
      exact ih h.2 (fun x hx => hstart x (List.mem_cons_of_mem _ hx)) (fun x hx => hsize x (List.mem_cons_of_mem _ hx))

theorem Chain.drop_front {pre : List ρ} (h : Chain start size a b rs) (hp : pre <+: rs)
    (hpre : Chain start size a c pre) : ∃ post, rs = pre ++ post ∧ Chain start size c b post := by
  obtain ⟨post, rfl⟩ := hp
  obtain ⟨c', hc', hpost⟩ := chain_append.mp h
  rw [hc'.end_unique hpre] at hpost
  exact ⟨post, rfl, hpost⟩

/-- Where each range holds given contents, the whole chain holds them one after the other. -/
theorem Chain.contents {α : Type} {contents : ρ → List α} {cells : Nat → α}
    (h : Chain start (fun r => (contents r).length) a b rs)
    (hcells : ∀ r ∈ rs, ∀ (i : Nat) (hi : i < (contents r).length), cells (start r + i) = (contents r)[i]) :
    b = a + (rs.flatMap contents).length ∧
      ∀ (i : Nat) (hi : i < (rs.flatMap contents).length), cells (a + i) = (rs.flatMap contents)[i] := by
  induction rs generalizing a with
  | nil =>
      obtain rfl : a = b := h
      exact ⟨rfl, fun i hi => absurd hi (Nat.not_lt_zero i)⟩
  | cons r rs ih =>
      obtain ⟨hstart, hrest⟩ := h
      obtain ⟨hb, hall⟩ := ih hrest fun x hx => hcells x (List.mem_cons_of_mem _ hx)
      refine ⟨by rw [hb, List.flatMap_cons, List.length_append, Nat.add_assoc], fun i hi => ?_⟩
      simp only [List.flatMap_cons] at hi ⊢
      by_cases hlt : i < (contents r).length
      · rw [List.getElem_append_left hlt, ← hstart]
        exact hcells r (List.mem_cons_self ..) i hlt
      · have hrest : i - (contents r).length < (rs.flatMap contents).length := by
          rw [List.length_append] at hi
          omega
        have hpos : a + i = a + (contents r).length + (i - (contents r).length) := by omega
        rw [List.getElem_append_right (Nat.le_of_not_lt hlt), ← hall _ hrest, hpos]

end Mallob.RangeChains
