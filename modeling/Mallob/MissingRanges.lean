import Mathlib

namespace Mallob.MissingRanges

abbrev Range : Type := Nat × Nat

def Contains (e : Nat) (r : Range) : Prop := r.1 ≤ e ∧ e < r.2

instance (e : Nat) (r : Range) : Decidable (Contains e r) := inferInstanceAs (Decidable (_ ∧ _))

def numContaining (e : Nat) (rs : List Range) : Nat := rs.countP fun r => Contains e r

structure Ordered (bound : Nat) (rs : List Range) : Prop where
  nonempty : ∀ r ∈ rs, r.1 < r.2
  bounded : ∀ r ∈ rs, r.2 ≤ bound
  ordered : rs.Pairwise fun r r' => r.2 ≤ r'.1

section Shrink

variable (present : Nat → Bool)

def advance (first : Nat) : Nat → Nat
  | 0 => first
  | n + 1 => if present first then advance (first + 1) n else first

def retreat (last : Nat) : Nat → Nat
  | 0 => last
  | n + 1 => if present (last - 1) then retreat (last - 1) n else last

def shrink (r : Range) : Range :=
  let first := advance present r.1 (r.2 - r.1)
  (first, retreat present r.2 (r.2 - first))

def shrinkAll (rs : List Range) : List Range := (rs.map (shrink present)).filter fun r => r.1 ≠ r.2

variable {present}

theorem advance_spec (first n : Nat) : first ≤ advance present first n ∧ advance present first n ≤ first + n ∧
    (∀ e, first ≤ e → e < advance present first n → present e = true) ∧
    (advance present first n < first + n → present (advance present first n) = false) := by
  induction n generalizing first with
  | zero => exact ⟨le_rfl, le_rfl, fun e h h' => absurd h (not_le.mpr h'), fun h => absurd h (lt_irrefl _)⟩
  | succ n ih =>
      rw [advance]
      split
      · next hpresent =>
          obtain ⟨hle, hbound, hskipped, hstop⟩ := ih (first + 1)
          refine ⟨by omega, by omega, fun e he hlt => ?_, fun h => hstop (by omega)⟩
          rcases he.eq_or_lt with rfl | he
          · exact hpresent
          · exact hskipped e he hlt
      · next hmissing =>
          exact ⟨le_rfl, by omega, fun e h h' => absurd h (not_le.mpr h'), fun _ => by simpa using hmissing⟩

theorem retreat_spec {last n : Nat} (hn : n ≤ last) : last - n ≤ retreat present last n ∧
    retreat present last n ≤ last ∧ (∀ e, retreat present last n ≤ e → e < last → present e = true) ∧
    (last - n < retreat present last n → present (retreat present last n - 1) = false) := by
  induction n generalizing last with
  | zero => exact ⟨le_rfl, le_rfl, fun e h h' => absurd h (not_le.mpr h'), fun h => absurd h (lt_irrefl _)⟩
  | succ n ih =>
      rw [retreat]
      split
      · next hpresent =>
          obtain ⟨hle, hbound, hskipped, hstop⟩ := @ih (last - 1) (by omega)
          refine ⟨by omega, by omega, fun e he hlt => ?_, fun h => hstop (by omega)⟩
          by_cases hlast : e = last - 1
          · rwa [hlast]
          · exact hskipped e he (by omega)
      · next hmissing =>
          exact ⟨by omega, le_rfl, fun e h h' => absurd h (not_le.mpr h'), fun _ => by simpa using hmissing⟩

/-- Only present numbers are cut off, and what is left begins with a missing one. -/
theorem shrink_spec {r : Range} (h : r.1 ≤ r.2) : r.1 ≤ (shrink present r).1 ∧
    (shrink present r).1 ≤ (shrink present r).2 ∧ (shrink present r).2 ≤ r.2 ∧
    (∀ e, present e = false → (Contains e (shrink present r) ↔ Contains e r)) ∧
    ((shrink present r).1 ≠ (shrink present r).2 → present (shrink present r).1 = false) := by
  obtain ⟨hle, hbound, hskipped, hstop⟩ := @advance_spec present r.1 (r.2 - r.1)
  obtain ⟨hle', hbound', hskipped', -⟩ :=
    @retreat_spec present r.2 (r.2 - advance present r.1 (r.2 - r.1)) (Nat.sub_le _ _)
  refine ⟨hle, ?_, hbound', fun e he => ⟨fun hcontains => ?_, fun hcontains => ?_⟩, fun hne => hstop ?_⟩
  · simp only [shrink]
    omega
  · exact ⟨hle.trans hcontains.1, hcontains.2.trans_le hbound'⟩
  · constructor
    · by_contra hlt
      exact absurd (hskipped e hcontains.1 (not_le.mp hlt)) (by simp [he])
    · by_contra hlt
      exact absurd (hskipped' e (not_lt.mp hlt) hcontains.2) (by simp [he])
  · simp only [shrink] at hne
    omega

theorem mem_shrinkAll {rs : List Range} {s : Range} (h : s ∈ shrinkAll present rs) :
    ∃ r ∈ rs, s = shrink present r ∧ s.1 ≠ s.2 := by
  simp only [shrinkAll, List.mem_filter, List.mem_map] at h
  obtain ⟨⟨r, hr, rfl⟩, hne⟩ := h
  exact ⟨r, hr, rfl, by simpa using hne⟩

theorem Ordered.shrinkAll {bound : Nat} {rs : List Range} (h : Ordered bound rs) :
    Ordered bound (shrinkAll present rs) := by
  refine ⟨fun s hs => ?_, fun s hs => ?_, ?_⟩
  · obtain ⟨r, hr, rfl, hne⟩ := mem_shrinkAll hs
    exact lt_of_le_of_ne (shrink_spec (h.nonempty r hr).le).2.1 hne
  · obtain ⟨r, hr, rfl, hne⟩ := mem_shrinkAll hs
    exact (shrink_spec (h.nonempty r hr).le).2.2.1.trans (h.bounded r hr)
  · apply List.Pairwise.filter
    rw [List.pairwise_map]
    refine h.ordered.imp_of_mem fun {r r'} hr hr' hle => ?_
    have hspec := @shrink_spec present r (h.nonempty r hr).le
    have hspec' := @shrink_spec present r' (h.nonempty r' hr').le
    exact hspec.2.2.1.trans (hle.trans hspec'.1)

theorem Ordered.numContaining_shrinkAll {bound : Nat} {rs : List Range} (h : Ordered bound rs) {e : Nat}
    (he : present e = false) :
    numContaining e (MissingRanges.shrinkAll present rs) = numContaining e rs := by
  rw [numContaining, MissingRanges.shrinkAll, List.countP_filter, List.countP_map, numContaining]
  apply List.countP_congr
  intro r hr
  have hspec := @shrink_spec present r (h.nonempty r hr).le
  simp only [Function.comp_apply, Bool.and_eq_true, decide_eq_true_eq, hspec.2.2.2.1 e he]
  refine and_iff_left_of_imp fun hcontains => ?_
  have hshrunk := (hspec.2.2.2.1 e he).mpr hcontains
  exact ne_of_lt (hshrunk.1.trans_lt hshrunk.2)

theorem Ordered.head_shrinkAll {bound : Nat} {rs : List Range} (h : Ordered bound rs) {s : Range}
    (hs : (MissingRanges.shrinkAll present rs).head? = some s) : present s.1 = false := by
  obtain ⟨r, hr, rfl, hne⟩ := mem_shrinkAll (List.mem_of_mem_head? hs)
  exact (shrink_spec (h.nonempty r hr).le).2.2.2.2 hne

end Shrink

def addGap (first last : Nat) (rs : List Range) : List Range :=
  match rs.getLast? with
  | none => rs ++ [(first, last)]
  | some r => if r.2 = first then rs.dropLast ++ [(r.1, last)] else rs ++ [(first, last)]

section Gap

variable {first last : Nat} {rs : List Range}

theorem addGap_cases (first last : Nat) (rs : List Range) : addGap first last rs = rs ++ [(first, last)] ∨
    ∃ init r, rs = init ++ [r] ∧ r.2 = first ∧ addGap first last rs = init ++ [(r.1, last)] := by
  rcases rs.eq_nil_or_concat with rfl | ⟨init, r, rfl⟩
  · exact Or.inl rfl
  · rw [List.concat_eq_append, addGap, List.getLast?_concat, List.dropLast_concat]
    by_cases h : r.2 = first
    · exact Or.inr ⟨init, r, rfl, h, if_pos h⟩
    · exact Or.inl (if_neg h)

theorem Ordered.append {r : Range} (h : Ordered first rs) (hfirst : first ≤ r.1) (hr : r.1 < r.2) :
    Ordered r.2 (rs ++ [r]) := by
  refine ⟨fun s hs => ?_, fun s hs => ?_, ?_⟩
  · rcases List.mem_append.mp hs with hs | hs
    · exact h.nonempty s hs
    · rwa [List.mem_singleton.mp hs]
  · rcases List.mem_append.mp hs with hs | hs
    · exact (h.bounded s hs).trans (hfirst.trans hr.le)
    · rw [List.mem_singleton.mp hs]
  · rw [List.pairwise_append]
    refine ⟨h.ordered, List.pairwise_singleton _ _, fun s hs s' hs' => ?_⟩
    rw [List.mem_singleton.mp hs']
    exact (h.bounded s hs).trans hfirst

theorem Ordered.init {r : Range} (h : Ordered first (rs ++ [r])) : Ordered r.1 rs ∧ r.1 < r.2 := by
  refine ⟨⟨fun s hs => h.nonempty s (List.mem_append_left _ hs), fun s hs => ?_, (List.pairwise_append.mp h.ordered).1⟩,
    h.nonempty r (List.mem_append_right _ List.mem_cons_self)⟩
  exact (List.pairwise_append.mp h.ordered).2.2 s hs r List.mem_cons_self

theorem Ordered.addGap (h : Ordered first rs) (hlt : first < last) :
    Ordered last (MissingRanges.addGap first last rs) := by
  rcases addGap_cases first last rs with heq | ⟨init, r, rfl, hend, heq⟩
  · rw [heq]
    exact h.append (r := (first, last)) le_rfl hlt
  · rw [heq]
    obtain ⟨hinit, hr⟩ := h.init
    exact hinit.append (r := (r.1, last)) le_rfl (hr.trans (hend ▸ hlt))

theorem numContaining_append (e : Nat) (rs : List Range) (r : Range) :
    numContaining e (rs ++ [r]) = numContaining e rs + if r.1 ≤ e ∧ e < r.2 then 1 else 0 := by
  rw [numContaining, List.countP_append, List.countP_singleton]
  simp only [decide_eq_true_eq]
  rfl

theorem numContaining_addGap (hrs : Ordered first rs) (hlt : first < last) (e : Nat) :
    numContaining e (addGap first last rs) = numContaining e rs + if first ≤ e ∧ e < last then 1 else 0 := by
  rcases addGap_cases first last rs with heq | ⟨init, r, rfl, hend, heq⟩
  · rw [heq, numContaining_append]
  · have hr := (hrs.init).2
    rw [heq, numContaining_append, numContaining_append, add_assoc]
    congr 1
    split_ifs <;> omega

theorem Ordered.numContaining_le (h : Ordered first rs) (e : Nat) :
    numContaining e rs ≤ if e < first then 1 else 0 := by
  induction rs using List.reverseRecOn generalizing first with
  | nil => simp [numContaining]
  | append_singleton rs r ih =>
      obtain ⟨hinit, hr⟩ := h.init
      have hrest := ih hinit
      have hbound := h.bounded r (List.mem_append_right _ List.mem_cons_self)
      rw [numContaining_append]
      split_ifs at hrest ⊢ <;> omega

theorem Ordered.numContaining_eq_zero {r : Range} (h : Ordered first (r :: rs)) {e : Nat} (he : e < r.1) :
    numContaining e (r :: rs) = 0 := by
  rw [numContaining, List.countP_eq_zero]
  intro s hs
  have hle : r.1 ≤ s.1 := by
    rcases List.mem_cons.mp hs with rfl | hs
    · exact le_rfl
    · exact (h.nonempty r List.mem_cons_self).le.trans ((List.pairwise_cons.mp h.ordered).1 s hs)
  rw [decide_eq_true_eq]
  exact fun hcontains => absurd hcontains.1 (not_le.mpr (he.trans_le hle))

theorem exists_addGap_cons (first last : Nat) (r : Range) (rs : List Range) :
    ∃ n rest, addGap first last (r :: rs) = (r.1, n) :: rest := by
  rcases addGap_cases first last (r :: rs) with heq | ⟨init, s, hrs, -, heq⟩
  · exact ⟨r.2, rs ++ [(first, last)], heq⟩
  · cases init with
    | nil =>
        obtain ⟨rfl, -⟩ := List.cons.inj hrs
        exact ⟨last, [], heq⟩
    | cons t init =>
        obtain ⟨rfl, -⟩ := List.cons.inj hrs
        exact ⟨r.2, _, heq⟩

end Gap

end Mallob.MissingRanges
