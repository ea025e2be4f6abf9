import Mathlib

structure Mallob.GrowingVector (α : Type) where
  capacity : Nat := 0
  elems : List α := []

namespace Mallob.GrowingVector

variable {α : Type} (grow : Nat → Nat) (move : α → α)

def pushBack (v : GrowingVector α) (x : α) : GrowingVector α :=
  if v.elems.length = v.capacity then ⟨grow v.capacity, v.elems.map move ++ [move x]⟩
  else { v with elems := v.elems ++ [move x] }

def modifyBack (f : α → α) (v : GrowingVector α) : GrowingVector α :=
  { v with elems := v.elems.modify (v.elems.length - 1) f }

def build (setup : α → α) (xs : List α) : GrowingVector α :=
  xs.foldl (fun v x => (v.pushBack grow move x).modifyBack setup) {}

def Relocated (i n : Nat) : Prop := ∃ m, i < grow^[m] 0 ∧ grow^[m] 0 < n

structure Built (setup : α → α) (xs : List α) (v : GrowingVector α) : Prop where
  length_eq : v.elems.length = xs.length
  capacity_eq : ∃ m, v.capacity = grow^[m] 0 ∧ xs.length ≤ v.capacity ∧ ∀ k < m, grow^[k] 0 < xs.length
  relocated : ∀ i x, xs[i]? = some x → Relocated grow i xs.length → v.elems[i]? = some (move (setup (move x)))
  stayed : ∀ i x, xs[i]? = some x → ¬Relocated grow i xs.length → v.elems[i]? = some (setup (move x))

variable {grow move} {setup : α → α} {xs : List α} {v : GrowingVector α} {x : α}

theorem strictMono_capacities (hgrow : ∀ n, n < grow n) : StrictMono fun m => grow^[m] 0 := by
  refine strictMono_nat_of_lt_succ fun m => ?_
  rw [Function.iterate_succ_apply']
  exact hgrow _

theorem not_relocated_last (i : Nat) : ¬Relocated grow i (i + 1) := by
  rintro ⟨m, hlt, hle⟩
  omega

theorem modify_last (f : α → α) (ys : List α) (y : α) :
    (ys ++ [y]).modify ((ys ++ [y]).length - 1) f = ys ++ [f y] := by
  rw [List.length_append, List.length_singleton, Nat.add_sub_cancel]
  induction ys with
  | nil => rfl
  | cons z ys ih => exact congrArg (z :: ·) ih

/-- An entry of a longer sequence is one of the shorter one or the last. -/
theorem getElem?_concat {i : Nat} {y : α} (h : (xs ++ [x])[i]? = some y) :
    (i < xs.length ∧ xs[i]? = some y) ∨ (i = xs.length ∧ x = y) := by
  rcases Nat.lt_or_ge i xs.length with hlt | hge
  · rw [List.getElem?_append_left hlt] at h
    exact Or.inl ⟨hlt, h⟩
  · have hlast := (List.getElem?_eq_some_iff.mp h).1
    rw [List.length_append, List.length_singleton] at hlast
    obtain rfl : i = xs.length := by omega
    rw [List.getElem?_concat_length] at h
    exact Or.inr ⟨rfl, Option.some.inj h⟩

theorem Built.push_full (hgrow : ∀ n, n < grow n) (hmove : ∀ x, move (move x) = move x)
    (h : Built grow move setup xs v) (hfull : v.elems.length = v.capacity) (x : α) :
    Built grow move setup (xs ++ [x]) ⟨grow v.capacity, v.elems.map move ++ [setup (move x)]⟩ := by
  obtain ⟨m, hcapacity, -, hbefore⟩ := h.capacity_eq
  have hlength := h.length_eq
  have hlast : (v.elems.map move ++ [setup (move x)])[xs.length]? = some (setup (move x)) := by
    rw [← hlength, ← List.length_map (f := move), List.getElem?_concat_length]
  have hfront : ∀ i, i < xs.length → (v.elems.map move ++ [setup (move x)])[i]? = v.elems[i]?.map move := by
    intro i hi
    rw [List.getElem?_append_left (by rw [List.length_map]; omega), List.getElem?_map]
  refine ⟨by simp [hlength], ⟨m + 1, ?_, ?_, ?_⟩, ?_, ?_⟩
  · rw [Function.iterate_succ_apply', hcapacity]
  · have := hgrow v.capacity
    simp only [List.length_append, List.length_singleton]
    omega
  · intro k hk
    rw [List.length_append, List.length_singleton]
    rcases Nat.lt_succ_iff_lt_or_eq.mp hk with hk | rfl
    · have := hbefore k hk
      omega
    · omega
  · intro i y hy hrelocated
    rw [List.length_append, List.length_singleton] at hrelocated
    rcases getElem?_concat hy with ⟨hi, hy⟩ | ⟨rfl, -⟩
    · rw [hfront i hi]
      by_cases hbefore : Relocated grow i xs.length
      · rw [h.relocated i y hy hbefore, Option.map_some, hmove]
      · rw [h.stayed i y hy hbefore, Option.map_some]
    · exact absurd hrelocated (not_relocated_last _)
  · intro i y hy hstayed
    rw [List.length_append, List.length_singleton] at hstayed
    rcases getElem?_concat hy with ⟨hi, -⟩ | ⟨rfl, rfl⟩
    · exact absurd ⟨m, by omega, by omega⟩ hstayed
    · exact hlast

theorem Built.push_room (hgrow : ∀ n, n < grow n) (h : Built grow move setup xs v)
    (hroom : v.elems.length ≠ v.capacity) (x : α) :
    Built grow move setup (xs ++ [x]) { v with elems := v.elems ++ [setup (move x)] } := by
  obtain ⟨m, hcapacity, hle, hbefore⟩ := h.capacity_eq
  have hlength := h.length_eq
  have hmono := strictMono_capacities hgrow
  have hne : ∀ k, grow^[k] 0 ≠ xs.length := by
    intro k heq
    rcases Nat.lt_or_ge k m with hk | hk
    · have := hbefore k hk
      omega
    · have : grow^[m] 0 ≤ grow^[k] 0 := hmono.monotone hk
      omega
  have hsame : ∀ i, Relocated grow i (xs.length + 1) → Relocated grow i xs.length := by
    rintro i ⟨k, hi, hk⟩
    have := hne k
    exact ⟨k, hi, by omega⟩
  have hmore : ∀ i, Relocated grow i xs.length → Relocated grow i (xs.length + 1) := by
    rintro i ⟨k, hi, hk⟩
    exact ⟨k, hi, by omega⟩
  refine ⟨by simp [hlength], ⟨m, hcapacity, ?_, ?_⟩, ?_, ?_⟩
  · simp only [List.length_append, List.length_singleton]
    omega
  · intro k hk
    have := hbefore k hk
    rw [List.length_append, List.length_singleton]
    omega
  · intro i y hy hrelocated
    rw [List.length_append, List.length_singleton] at hrelocated
    rcases getElem?_concat hy with ⟨hi, hy⟩ | ⟨rfl, -⟩
    · rw [List.getElem?_append_left (by omega)]
      exact h.relocated i y hy (hsame i hrelocated)
    · exact absurd hrelocated (not_relocated_last _)
  · intro i y hy hstayed
    rw [List.length_append, List.length_singleton] at hstayed
    rcases getElem?_concat hy with ⟨hi, hy⟩ | ⟨rfl, rfl⟩
    · rw [List.getElem?_append_left (by omega)]
      exact h.stayed i y hy fun hbefore => hstayed (hmore i hbefore)
    · rw [← hlength, List.getElem?_concat_length]

/-- An element is as it was set up if and only if the vector has not grown since then. -/
theorem built_build (hgrow : ∀ n, n < grow n) (hmove : ∀ x, move (move x) = move x) (setup : α → α) (xs : List α) :
    Built grow move setup xs (build grow move setup xs) := by
  induction xs using List.reverseRecOn with
  | nil =>
      exact ⟨rfl, ⟨0, rfl, le_rfl, fun k hk => absurd hk (Nat.not_lt_zero k)⟩, fun i x hx => absurd hx (by simp),
        fun i x hx => absurd hx (by simp)⟩
  | append_singleton xs x ih =>
      have hbuild : build grow move setup (xs ++ [x]) =
          ((build grow move setup xs).pushBack grow move x).modifyBack setup := by
        rw [build, List.foldl_append]
        rfl
      rw [hbuild, pushBack]
      split
      · next hfull =>
          have hpush := ih.push_full hgrow hmove hfull x
          rwa [← modify_last setup] at hpush
      · next hroom =>
          have hpush := ih.push_room hgrow hroom x
          rwa [← modify_last setup] at hpush

end Mallob.GrowingVector
