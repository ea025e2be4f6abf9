import Mathlib

namespace Mallob.Cnf

def LitTrue (τ : Nat → Bool) (lit : Int) : Prop := τ lit.natAbs = decide (0 < lit)

instance (τ : Nat → Bool) (lit : Int) : Decidable (LitTrue τ lit) := inferInstanceAs (Decidable (_ = _))

def ClauseTrue (τ : Nat → Bool) (clause : List Int) : Prop := ∃ lit ∈ clause, LitTrue τ lit

def Satisfies (τ : Nat → Bool) (clauses : List (List Int)) : Prop := ∀ clause ∈ clauses, ClauseTrue τ clause

def Entails (clauses : List (List Int)) (clause : List Int) : Prop := ∀ τ, Satisfies τ clauses → ClauseTrue τ clause

def units (lits : List Int) : List (List Int) := lits.map fun lit => [lit]

def conjunction (e : Int) (lits : List Int) : List (List Int) :=
  (lits.map (fun lit => -lit) ++ [e]) :: lits.map fun lit => [-e, lit]

def flat (clauses : List (List Int)) : List Int := clauses.flatMap fun clause => clause ++ [0]

def clausesOf (clause : List Int) : List Int → List (List Int)
  | [] => []
  | lit :: lits => if lit = 0 then clause :: clausesOf [] lits else clausesOf (clause ++ [lit]) lits

section Reading

theorem clausesOf_append_zero {clause lits : List Int} (h : 0 ∉ lits) (rest : List Int) :
    clausesOf clause (lits ++ 0 :: rest) = (clause ++ lits) :: clausesOf [] rest := by
  induction lits generalizing clause with
  | nil => simp [clausesOf]
  | cons lit lits ih =>
      rw [List.mem_cons, not_or] at h
      rw [List.cons_append, clausesOf, if_neg (fun hzero => h.1 hzero.symm), ih h.2, List.append_assoc]
      rfl

theorem clausesOf_flat {clauses : List (List Int)} (h : ∀ clause ∈ clauses, 0 ∉ clause) :
    clausesOf [] (flat clauses) = clauses := by
  induction clauses with
  | nil => rfl
  | cons clause clauses ih =>
      have hflat : flat (clause :: clauses) = clause ++ 0 :: flat clauses := by simp [flat]
      rw [hflat, clausesOf_append_zero (h clause List.mem_cons_self), List.nil_append,
        ih fun clause' hclause => h clause' (List.mem_cons_of_mem _ hclause)]

theorem flat_append (clauses clauses' : List (List Int)) : flat (clauses ++ clauses') = flat clauses ++ flat clauses' :=
  List.flatMap_append

theorem flat_map_map (f : Int → Int) (hf : f 0 = 0) (clauses : List (List Int)) :
    flat (clauses.map (List.map f)) = (flat clauses).map f := by
  simp [flat, List.flatMap_map, List.map_flatMap, hf]

end Reading

variable {τ : Nat → Bool} {lit : Int}

theorem litTrue_neg (h : lit ≠ 0) : LitTrue τ (-lit) ↔ ¬LitTrue τ lit := by
  have hsign : decide (0 < -lit) = !decide (0 < lit) := by
    rw [← decide_not]
    exact decide_eq_decide.mpr (by omega)
  rw [LitTrue, LitTrue, Int.natAbs_neg, hsign]
  cases τ lit.natAbs <;> cases decide (0 < lit) <;> simp

/-- Renaming the variables of a literal renames those of the assignment. -/
theorem litTrue_rename {lit' : Int} {g : Nat → Nat} (habs : lit'.natAbs = g lit.natAbs) (hsign : 0 < lit' ↔ 0 < lit) :
    LitTrue τ lit' ↔ LitTrue (fun v => τ (g v)) lit := by
  rw [LitTrue, LitTrue, habs, decide_eq_decide.mpr hsign]

theorem satisfies_append {clauses clauses' : List (List Int)} :
    Satisfies τ (clauses ++ clauses') ↔ Satisfies τ clauses ∧ Satisfies τ clauses' := List.forall_mem_append

theorem satisfies_units {lits : List Int} : Satisfies τ (units lits) ↔ ∀ lit ∈ lits, LitTrue τ lit := by
  simp [Satisfies, units, ClauseTrue]

section Definition

variable {e : Int} {lits : List Int}

theorem satisfies_conjunction (he : e ≠ 0) (hlits : 0 ∉ lits) :
    Satisfies τ (conjunction e lits) ↔ (LitTrue τ e ↔ ∀ lit ∈ lits, LitTrue τ lit) := by
  have hall : ClauseTrue τ (lits.map (fun lit => -lit) ++ [e]) ↔ (∀ lit ∈ lits, LitTrue τ lit) → LitTrue τ e := by
    constructor
    · rintro ⟨lit, hmem, htrue⟩ hlits'
      rcases List.mem_append.mp hmem with hneg | hlast
      · obtain ⟨lit', hlit', rfl⟩ := List.mem_map.mp hneg
        have hne : lit' ≠ 0 := fun hzero => hlits (hzero ▸ hlit')
        exact absurd (hlits' lit' hlit') ((litTrue_neg hne).mp htrue)
      · rwa [List.mem_singleton.mp hlast] at htrue
    · intro himp
      by_cases hlits' : ∀ lit ∈ lits, LitTrue τ lit
      · exact ⟨e, by simp, himp hlits'⟩
      · push Not at hlits'
        obtain ⟨lit, hlit, hfalse⟩ := hlits'
        have hne : lit ≠ 0 := fun hzero => hlits (hzero ▸ hlit)
        exact ⟨-lit, List.mem_append_left _ (List.mem_map_of_mem hlit), (litTrue_neg hne).mpr hfalse⟩
  have heach : ∀ lit, ClauseTrue τ [-e, lit] ↔ (LitTrue τ e → LitTrue τ lit) := by
    intro lit
    simp only [ClauseTrue, List.mem_cons, List.not_mem_nil, or_false, exists_eq_or_imp, exists_eq_left, litTrue_neg he]
    exact imp_iff_not_or.symm
  rw [Satisfies, conjunction, List.forall_mem_cons, hall, List.forall_mem_map]
  simp only [heach]
  exact ⟨fun h => ⟨fun htrue lit hlit => h.2 lit hlit htrue, h.1⟩, fun h => ⟨h.2, fun lit hlit htrue => h.1 htrue lit hlit⟩⟩

/-- What follows from the conjuncts as units follows under the defined literal. -/
theorem entails_guarded {clauses : List (List Int)} (he : e ≠ 0) (hlits : 0 ∉ lits)
    (hdefined : ∀ clause ∈ conjunction e lits, clause ∈ clauses) {clause : List Int}
    (h : Entails (clauses ++ units lits) clause) : Entails clauses (clause ++ [-e]) := by
  intro τ hτ
  have hdef : Satisfies τ (conjunction e lits) := fun clause' hclause => hτ clause' (hdefined clause' hclause)
  rw [satisfies_conjunction he hlits] at hdef
  by_cases htrue : LitTrue τ e
  · obtain ⟨lit, hlit, hlitTrue⟩ := h τ (satisfies_append.mpr ⟨hτ, satisfies_units.mpr (hdef.mp htrue)⟩)
    exact ⟨lit, List.mem_append_left _ hlit, hlitTrue⟩
  · exact ⟨-e, by simp, (litTrue_neg he).mpr htrue⟩

end Definition

end Mallob.Cnf
