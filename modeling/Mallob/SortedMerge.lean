import Mathlib

namespace Mallob.SortedMerge

variable {α : Type} [LinearOrder α]

structure Input (α : Type) where
  head : α
  id : Nat
  rest : List α

def Input.items (x : Input α) : List α := x.head :: x.rest

/-- Inputs stand in the order of their current elements; of two inputs with equal elements, the one
with the greater number comes first. -/
def Input.behind (x y : Input α) : Bool := y.head < x.head || x.head = y.head && x.id < y.id

def place (x : Input α) : List (Input α) → List (Input α)
  | [] => [x]
  | y :: ys => if x.behind y then y :: place x ys else x :: y :: ys

def refill (x : Input α) (xs : List (Input α)) : List (Input α) :=
  match x.rest with
  | [] => xs
  | y :: ys => place ⟨y, x.id, ys⟩ xs

/-- The merged elements, each of them handed out where it is greater than the last one. -/
def merge : Nat → Option α → List (Input α) → List α
  | 0, _, _ => []
  | _ + 1, _, [] => []
  | fuel + 1, last, x :: xs =>
      if ∀ l ∈ last, l < x.head then x.head :: merge fuel (some x.head) (refill x xs)
      else merge fuel last (refill x xs)

def total (xs : List (Input α)) : Nat := (xs.map fun x => x.items.length).sum

structure Ordered (xs : List (Input α)) : Prop where
  heads : xs.Pairwise fun x y => x.head ≤ y.head
  items : ∀ x ∈ xs, x.items.Pairwise (· ≤ ·)

variable {x y : Input α} {xs : List (Input α)} {last : Option α} {a : α}

omit [LinearOrder α] in
@[simp] theorem total_cons (x : Input α) (xs : List (Input α)) : total (x :: xs) = x.rest.length + 1 + total xs := rfl

theorem place_perm (x : Input α) (xs : List (Input α)) : (place x xs).Perm (x :: xs) := by
  induction xs with
  | nil => exact .refl _
  | cons y ys ih =>
      rw [place]
      split
      · exact (ih.cons y).trans (.swap x y ys)
      · exact .refl _

theorem le_of_behind (h : x.behind y = true) : y.head ≤ x.head := by
  simp only [Input.behind, Bool.or_eq_true, decide_eq_true_eq, Bool.and_eq_true] at h
  rcases h with h | h
  · exact h.le
  · exact h.1.ge

theorem le_of_not_behind (h : ¬x.behind y = true) : x.head ≤ y.head := by
  simp only [Input.behind, Bool.or_eq_true, decide_eq_true_eq, not_or, not_lt] at h
  exact h.1

theorem pairwise_place (h : xs.Pairwise fun x y => x.head ≤ y.head) :
    (place x xs).Pairwise fun x y => x.head ≤ y.head := by
  induction xs with
  | nil => exact List.pairwise_singleton _ _
  | cons y ys ih =>
      rw [List.pairwise_cons] at h
      rw [place]
      split
      · next hb =>
          refine List.pairwise_cons.mpr ⟨fun z hz => ?_, ih h.2⟩
          rcases List.mem_cons.mp ((place_perm x ys).mem_iff.mp hz) with rfl | hz
          · exact le_of_behind hb
          · exact h.1 z hz
      · next hb =>
          have hxy := le_of_not_behind hb
          refine List.pairwise_cons.mpr ⟨fun z hz => ?_, List.pairwise_cons.mpr h⟩
          rcases List.mem_cons.mp hz with rfl | hz
          · exact hxy
          · exact hxy.trans (h.1 z hz)

theorem Ordered.tail (h : Ordered (x :: xs)) : Ordered xs :=
  ⟨h.heads.of_cons, fun y hy => h.items y (List.mem_cons_of_mem _ hy)⟩

theorem Ordered.place (h : Ordered xs) (hx : x.items.Pairwise (· ≤ ·)) : Ordered (place x xs) := by
  refine ⟨pairwise_place h.heads, fun y hy => ?_⟩
  rcases List.mem_cons.mp ((place_perm x xs).mem_iff.mp hy) with rfl | hy
  · exact hx
  · exact h.items y hy

theorem Ordered.refill (h : Ordered (x :: xs)) : Ordered (refill x xs) := by
  rw [SortedMerge.refill]
  split
  · exact h.tail
  · next y ys hrest =>
      have hx := h.items x (List.mem_cons_self ..)
      rw [Input.items, hrest] at hx
      exact h.tail.place hx.of_cons

theorem total_place (x : Input α) (xs : List (Input α)) : total (place x xs) = x.rest.length + 1 + total xs :=
  ((place_perm x xs).map _).sum_eq

theorem total_refill (x : Input α) (xs : List (Input α)) : total (refill x xs) + 1 = total (x :: xs) := by
  rw [refill]
  split
  · next hrest => simp [hrest, Nat.add_comm]
  · next y ys hrest => simp only [total_place, total_cons, hrest, List.length_cons]; omega

def Left (xs : List (Input α)) (a : α) : Prop := ∃ x ∈ xs, a ∈ x.items

omit [LinearOrder α] in
theorem left_cons : Left (x :: xs) a ↔ a = x.head ∨ a ∈ x.rest ∨ Left xs a := by
  simp [Left, Input.items, or_assoc]

theorem left_refill : Left (refill x xs) a ↔ a ∈ x.rest ∨ Left xs a := by
  rw [refill]
  split
  · next hrest => simp [hrest]
  · next y ys hrest =>
      have hperm : Left (place ⟨y, x.id, ys⟩ xs) a ↔ Left (⟨y, x.id, ys⟩ :: xs) a := by
        simp only [Left, (place_perm _ xs).mem_iff]
      rw [hperm, left_cons, hrest, List.mem_cons, or_assoc]

theorem Ordered.head_le (h : Ordered (x :: xs)) (ha : Left (x :: xs) a) : x.head ≤ a := by
  obtain ⟨y, hy, hay⟩ := ha
  have hyx : x.head ≤ y.head := by
    rcases List.mem_cons.mp hy with rfl | hy
    · exact le_rfl
    · exact List.rel_of_pairwise_cons h.heads hy
  rcases List.mem_cons.mp hay with rfl | hay
  · exact hyx
  · exact hyx.trans (List.rel_of_pairwise_cons (h.items y hy) hay)

theorem merge_spec {fuel : Nat} (hfuel : total xs ≤ fuel) (h : Ordered xs)
    (hlast : ∀ l ∈ last, ∀ a, Left xs a → l ≤ a) :
    (merge fuel last xs).Pairwise (· < ·) ∧
      ∀ a, a ∈ merge fuel last xs ↔ Left xs a ∧ ∀ l ∈ last, l < a := by
  induction fuel generalizing last xs with
  | zero =>
      cases xs with
      | nil => simp [merge, Left]
      | cons x xs => simp at hfuel
  | succ fuel ih =>
      cases xs with
      | nil => simp [merge, Left]
      | cons x xs =>
          have hfuel' : total (refill x xs) ≤ fuel := by
            have := total_refill x xs
            omega
          have hx : Left (x :: xs) x.head := left_cons.mpr (Or.inl rfl)
          have hle : ∀ a, Left (refill x xs) a → x.head ≤ a :=
            fun a ha => h.head_le (left_cons.mpr (Or.inr (left_refill.mp ha)))
          rw [merge]
          split
          · next hnew =>
              obtain ⟨hpair, hmem⟩ := @ih (refill x xs) (some x.head) hfuel' h.refill
                (by rintro l ⟨⟩ a ha; exact hle a ha)
              refine ⟨List.pairwise_cons.mpr ⟨fun a ha => ((hmem a).mp ha).2 _ rfl, hpair⟩, fun a => ?_⟩
              rw [List.mem_cons, hmem, left_cons, left_refill]
              constructor
              · rintro (rfl | ⟨ha, hlt⟩)
                · exact ⟨Or.inl rfl, hnew⟩
                · exact ⟨Or.inr ha, fun l hl => (hnew l hl).trans (hlt _ rfl)⟩
              · rintro ⟨rfl | ha, hlt⟩
                · exact Or.inl rfl
                · rcases (hle a (left_refill.mpr ha)).eq_or_lt with heq | hgt
                  · exact Or.inl heq.symm
                  · exact Or.inr ⟨ha, by rintro l ⟨⟩; exact hgt⟩
          · next hold =>
              obtain ⟨hpair, hmem⟩ := @ih (refill x xs) last hfuel' h.refill
                (fun l hl a ha => hlast l hl a (left_cons.mpr (Or.inr (left_refill.mp ha))))
              refine ⟨hpair, fun a => ?_⟩
              rw [hmem, left_refill, left_cons]
              constructor
              · rintro ⟨ha, hlt⟩
                exact ⟨Or.inr ha, hlt⟩
              · rintro ⟨rfl | ha, hlt⟩
                · exact absurd hlt hold
                · exact ⟨ha, hlt⟩

end Mallob.SortedMerge
