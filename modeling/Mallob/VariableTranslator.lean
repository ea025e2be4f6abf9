import Mallob.Renumbering

namespace Mallob

open Renumbering

structure VariableTranslator where
  empty : Bool := true
  extraVariables : List Nat := []

namespace VariableTranslator

def sign (lit : Int) : Int := if lit > 0 then 1 else -1

def getTldLit (vt : VariableTranslator) (origLit : Int) : Int :=
  if vt.empty then origLit else sign origLit * up vt.extraVariables origLit.natAbs

def getOrigLitOrZero (vt : VariableTranslator) (tldLit : Int) : Int :=
  if vt.empty then tldLit
  else match down vt.extraVariables tldLit.natAbs 0 with
    | none => 0
    | some absLit => sign tldLit * absLit

/-- The do-while loop of addExtraVariable: at least one step, and on until the
last extra variable is passed. -/
def nextFree (last : Option Nat) : Nat → Nat → Nat
  | 0, tldMaxVar => tldMaxVar + 1
  | fuel + 1, tldMaxVar => match last with
    | some e => if e ≥ tldMaxVar + 1 then nextFree last fuel (tldMaxVar + 1) else tldMaxVar + 1
    | none => tldMaxVar + 1

def addExtraVariable (vt : VariableTranslator) (latestOrigMaxVar : Nat) : VariableTranslator where
  empty := false
  extraVariables := vt.extraVariables ++
    [nextFree vt.extraVariables.getLast? (vt.extraVariables.getLast?.getD 0) (vt.getTldLit latestOrigMaxVar).toNat]

/-- One entry in the loop of SolverThread::reportResult over a solution, with
its two assertions. -/
def translateEntry (vt : VariableTranslator) (origSolution : List Int) (entry : Int × Nat) : Option (List Int) :=
  if entry.2 > 0 then
    if entry.1 = entry.2 ∨ entry.1 = -entry.2 then
      let origLit := vt.getOrigLitOrZero entry.1
      let origSolution := if origLit ≠ 0 then origSolution ++ [origLit] else origSolution
      if origSolution.getLast? = some (origSolution.length - 1 : Int) ∨
          origSolution.getLast? = some (1 - origSolution.length : Int) then some origSolution
      else none
    else none
  else some (origSolution ++ [0])

def translateSolution (vt : VariableTranslator) (solution : List Int) : Option (List Int) :=
  if vt.extraVariables.isEmpty then some solution
  else solution.zipIdx.foldlM vt.translateEntry []

def addExtraVariables (vt : VariableTranslator) (latestOrigMaxVars : List Nat) : VariableTranslator :=
  latestOrigMaxVars.foldl addExtraVariable vt

theorem nextFree_eq (last : Option Nat) {fuel tldMaxVar : Nat} (h : last.getD 0 ≤ tldMaxVar + fuel) :
    nextFree last fuel tldMaxVar = max (tldMaxVar + 1) (last.getD 0 + 1) := by
  induction fuel generalizing tldMaxVar with
  | zero =>
      unfold nextFree
      omega
  | succ fuel ih =>
      unfold nextFree
      cases last with
      | none =>
          simp only [Option.getD_none]
          omega
      | some e =>
          simp only [Option.getD_some] at *
          split
          · rw [ih (by omega)]
            omega
          · omega

structure Valid (vt : VariableTranslator) : Prop where
  empty : vt.empty = vt.extraVariables.isEmpty
  sorted : vt.extraVariables.Pairwise (· < ·)
  positive : ∀ e ∈ vt.extraVariables, 0 < e

variable {vt : VariableTranslator}

theorem sign_mul_natAbs (x : Int) : sign x * x.natAbs = x := by
  rw [sign]
  split <;> omega

theorem Valid.getTldLit_eq (h : Valid vt) (x : Int) : vt.getTldLit x = sign x * up vt.extraVariables x.natAbs := by
  rw [getTldLit, h.empty]
  cases hextra : vt.extraVariables with
  | nil =>
      rw [List.isEmpty_nil, if_pos rfl]
      exact (sign_mul_natAbs x).symm
  | cons e es => simp

theorem Valid.getOrigLitOrZero_eq (h : Valid vt) (y : Int) : vt.getOrigLitOrZero y =
    match down vt.extraVariables y.natAbs 0 with
    | none => 0
    | some absLit => sign y * absLit := by
  rw [getOrigLitOrZero, h.empty]
  cases hextra : vt.extraVariables with
  | nil =>
      rw [List.isEmpty_nil, if_pos rfl]
      exact (sign_mul_natAbs y).symm
  | cons e es => simp

theorem natAbs_sign_mul (x : Int) (a : Nat) : (sign x * a).natAbs = a := by
  rw [sign]
  split <;> omega

theorem Valid.natAbs_getTldLit (h : Valid vt) (x : Int) : (vt.getTldLit x).natAbs = up vt.extraVariables x.natAbs := by
  rw [h.getTldLit_eq, natAbs_sign_mul]

theorem Valid.getTldLit_natCast (h : Valid vt) (m : Nat) : vt.getTldLit m = up vt.extraVariables m := by
  rw [h.getTldLit_eq, Int.natAbs_natCast]
  cases m with
  | zero => rw [up_zero h.positive]; rfl
  | succ m => simp [sign]

/-- The variable that is added next lies above the translated maximum and above
the extra variables there are. -/
theorem Valid.extraVariables_add (h : Valid vt) (m : Nat) : ∃ e, (vt.addExtraVariable m).extraVariables =
    vt.extraVariables ++ [e] ∧ up vt.extraVariables m < e ∧ ∀ e' ∈ vt.extraVariables, e' < e := by
  refine ⟨_, rfl, ?_, ?_⟩
  · rw [nextFree_eq _ (by omega), h.getTldLit_natCast, Int.toNat_natCast]
    omega
  · intro e' he'
    rw [nextFree_eq _ (by omega)]
    have hlast : e' ≤ vt.extraVariables.getLast?.getD 0 := by
      obtain ⟨front, last, hsplit⟩ := (List.eq_nil_or_concat vt.extraVariables).resolve_left
        (List.ne_nil_of_mem he')
      have hsorted := h.sorted
      rw [hsplit, List.concat_eq_append] at hsorted he' ⊢
      rw [List.getLast?_concat, Option.getD_some]
      rcases List.mem_append.mp he' with hfront | hlast
      · exact ((List.pairwise_append.mp hsorted).2.2 e' hfront last (by simp)).le
      · exact (List.mem_singleton.mp hlast).le
    omega

theorem Valid.addExtraVariable (h : Valid vt) (m : Nat) : Valid (vt.addExtraVariable m) := by
  obtain ⟨e, heq, hmax, hlast⟩ := h.extraVariables_add m
  refine ⟨?_, ?_, ?_⟩
  · rw [heq]
    simp [VariableTranslator.addExtraVariable]
  · rw [heq]
    exact List.pairwise_append.mpr ⟨h.sorted, List.pairwise_singleton _ _, fun a ha b hb =>
      List.mem_singleton.mp hb ▸ hlast a ha⟩
  · intro e' he'
    rw [heq] at he'
    rcases List.mem_append.mp he' with he' | he'
    · exact h.positive e' he'
    · rw [List.mem_singleton.mp he']
      omega

theorem valid_create : Valid {} := ⟨rfl, List.Pairwise.nil, fun e he => by cases he⟩

theorem Valid.addExtraVariables (h : Valid vt) (ms : List Nat) : Valid (vt.addExtraVariables ms) := by
  induction ms generalizing vt with
  | nil => exact h
  | cons m ms ih => exact ih (h.addExtraVariable m)

/-- No extra variable lies further above the variables of the formula than there are extra variables. -/
structure Ranged (maxVar : Nat) (vt : VariableTranslator) : Prop where
  valid : Valid vt
  extra : ∀ e ∈ vt.extraVariables, e ≤ maxVar + vt.extraVariables.length

theorem ranged_create (maxVar : Nat) : Ranged maxVar {} := ⟨valid_create, List.forall_mem_nil _⟩

theorem length_addExtraVariable (vt : VariableTranslator) (m : Nat) :
    (vt.addExtraVariable m).extraVariables.length = vt.extraVariables.length + 1 := by
  rw [addExtraVariable, List.length_append, List.length_singleton]

theorem Ranged.addExtraVariable {maxVar m : Nat} (h : Ranged maxVar vt) (hm : m ≤ maxVar) :
    Ranged maxVar (vt.addExtraVariable m) := by
  refine ⟨h.valid.addExtraVariable m, ?_⟩
  intro e he
  rw [length_addExtraVariable]
  rcases List.mem_append.mp he with hold | hnew
  · have := h.extra e hold
    omega
  · have hup := up_le vt.extraVariables m
    have hlast : vt.extraVariables.getLast?.getD 0 ≤ maxVar + vt.extraVariables.length := by
      cases hlast : vt.extraVariables.getLast? with
      | none => exact Nat.zero_le _
      | some last => exact h.extra last (List.mem_of_getLast? hlast)
    rw [List.mem_singleton.mp hnew, nextFree_eq _ (by omega), h.valid.getTldLit_natCast, Int.toNat_natCast]
    omega

theorem Ranged.addExtraVariables {maxVar : Nat} (h : Ranged maxVar vt) {ms : List Nat} (hms : ∀ m ∈ ms, m ≤ maxVar) :
    Ranged maxVar (vt.addExtraVariables ms) ∧
      (vt.addExtraVariables ms).extraVariables.length = vt.extraVariables.length + ms.length := by
  induction ms generalizing vt with
  | nil => exact ⟨h, rfl⟩
  | cons m ms ih =>
      obtain ⟨hm, hms⟩ := List.forall_mem_cons.mp hms
      obtain ⟨hranged, hlength⟩ := ih (h.addExtraVariable hm) hms
      refine ⟨hranged, hlength.trans ?_⟩
      rw [length_addExtraVariable, List.length_cons]
      omega

theorem Ranged.natAbs_getTldLit_le {maxVar : Nat} (h : Ranged maxVar vt) {x : Int} (hx : x.natAbs ≤ maxVar) :
    (vt.getTldLit x).natAbs ≤ maxVar + vt.extraVariables.length := by
  rw [h.valid.natAbs_getTldLit]
  exact (up_le _ _).trans (Nat.add_le_add_right hx _)

/-- With room for the extra variables above the variables of the formula, translated literals fit into an int. -/
theorem getTldLit_fits {maxVar : Nat} {ms : List Nat} (hms : ∀ m ∈ ms, m ≤ maxVar)
    (hroom : maxVar + ms.length < 2 ^ 31) {x : Int} (hx : x.natAbs ≤ maxVar) :
    ((VariableTranslator.addExtraVariables {} ms).getTldLit x).natAbs < 2 ^ 31 := by
  obtain ⟨hranged, hlength⟩ := (ranged_create maxVar).addExtraVariables hms
  have hle := hranged.natAbs_getTldLit_le hx
  rw [hlength, List.length_nil] at hle
  omega

theorem Valid.getTldLit_add (h : Valid vt) (m : Nat) {x : Int} (hx : x.natAbs ≤ m) :
    (vt.addExtraVariable m).getTldLit x = vt.getTldLit x := by
  obtain ⟨e, heq, hmax, _⟩ := h.extraVariables_add m
  rw [(h.addExtraVariable m).getTldLit_eq, h.getTldLit_eq, heq, up_append]
  exact ((up_strictMono _).monotone hx).trans_lt hmax

section Translation

variable (h : Valid vt)

include h

theorem Valid.getTldLit_zero : vt.getTldLit 0 = 0 := by
  have hzero := h.getTldLit_natCast 0
  rwa [up_zero h.positive] at hzero

theorem Valid.getTldLit_pos {x : Int} (hx : 0 < x) : vt.getTldLit x = up vt.extraVariables x.natAbs := by
  rw [h.getTldLit_eq, sign, if_pos hx, one_mul]

theorem Valid.getTldLit_neg (x : Int) : vt.getTldLit (-x) = -vt.getTldLit x := by
  rcases lt_trichotomy x 0 with hx | rfl | hx
  · rw [h.getTldLit_eq, h.getTldLit_eq, Int.natAbs_neg, sign, sign, if_pos (by omega), if_neg (by omega)]
    ring
  · rw [Int.neg_zero, h.getTldLit_zero, Int.neg_zero]
  · rw [h.getTldLit_eq, h.getTldLit_eq, Int.natAbs_neg, sign, sign, if_neg (by omega), if_pos hx]
    ring

theorem Valid.getTldLit_lt {x y : Int} (hx : 0 < x) (hxy : x < y) : vt.getTldLit x < vt.getTldLit y := by
  rw [h.getTldLit_pos hx, h.getTldLit_pos (hx.trans hxy)]
  exact_mod_cast up_strictMono vt.extraVariables (by omega : x.natAbs < y.natAbs)

theorem Valid.sign_getTldLit (x : Int) : sign (vt.getTldLit x) = sign x := by
  have hup := le_up vt.extraVariables x.natAbs
  rw [h.getTldLit_eq]
  simp only [sign]
  split
  · rw [if_pos (by omega)]
  · rw [if_neg (by omega)]

theorem Valid.getTldLit_pos_iff {x : Int} : 0 < vt.getTldLit x ↔ 0 < x := by
  have hsign := h.sign_getTldLit x
  simp only [sign] at hsign
  split at hsign <;> split at hsign <;> omega

theorem Valid.getOrigLitOrZero_getTldLit {x : Int} : vt.getOrigLitOrZero (vt.getTldLit x) = x := by
  rw [h.getOrigLitOrZero_eq, h.natAbs_getTldLit, down_up, h.sign_getTldLit]
  exact sign_mul_natAbs x

theorem Valid.getTldLit_injective : Function.Injective vt.getTldLit := by
  intro x y hxy
  rw [← h.getOrigLitOrZero_getTldLit (x := x), hxy, h.getOrigLitOrZero_getTldLit]

theorem Valid.getOrigLitOrZero_extra {y : Int} (hy : y.natAbs ∈ vt.extraVariables) : vt.getOrigLitOrZero y = 0 := by
  rw [h.getOrigLitOrZero_eq, (down_eq_none_iff h.sorted).mpr hy]

theorem Valid.getTldLit_getOrigLitOrZero {y : Int} (hy : y.natAbs ∉ vt.extraVariables) :
    vt.getTldLit (vt.getOrigLitOrZero y) = y := by
  rw [h.getOrigLitOrZero_eq]
  cases hdown : down vt.extraVariables y.natAbs 0 with
  | none => exact absurd ((down_eq_none_iff h.sorted).mp hdown) hy
  | some a =>
      have hup : up vt.extraVariables a = y.natAbs := up_of_down h.sorted h.positive (Nat.zero_le _) hdown
      have hle := le_up vt.extraVariables a
      by_cases ha : a = 0
      · subst ha
        rw [up_zero h.positive] at hup
        have hzero : y = 0 := by omega
        rw [hzero]
        simp [h.getTldLit_zero]
      · have hsign : sign (sign y * a) = sign y := by
          simp only [sign]
          split
          · rw [if_pos (by omega)]
          · rw [if_neg (by omega)]
        simp only
        rw [h.getTldLit_eq, natAbs_sign_mul, hup, hsign, sign_mul_natAbs]

theorem Valid.getOrigLitOrZero_eq_zero_iff {y : Int} :
    vt.getOrigLitOrZero y = 0 ↔ y.natAbs ∈ vt.extraVariables ∨ y = 0 := by
  constructor
  · intro hzero
    by_contra hno
    rw [not_or] at hno
    have hback := h.getTldLit_getOrigLitOrZero hno.1
    rw [hzero, h.getTldLit_zero] at hback
    exact hno.2 hback.symm
  · rintro (hextra | rfl)
    · exact h.getOrigLitOrZero_extra hextra
    · have hzero := h.getOrigLitOrZero_getTldLit (x := 0)
      rwa [h.getTldLit_zero] at hzero

theorem Valid.exists_getTldLit_iff {y : Int} :
    (∃ x, x ≠ 0 ∧ vt.getTldLit x = y) ↔ y ≠ 0 ∧ y.natAbs ∉ vt.extraVariables := by
  constructor
  · rintro ⟨x, hx, rfl⟩
    refine ⟨?_, ?_⟩
    · intro hzero
      exact hx (h.getTldLit_injective (hzero.trans h.getTldLit_zero.symm))
    · rw [h.natAbs_getTldLit]
      exact up_not_mem h.sorted _
  · rintro ⟨hy, hextra⟩
    have hback := h.getTldLit_getOrigLitOrZero hextra
    refine ⟨vt.getOrigLitOrZero y, ?_, hback⟩
    intro hzero
    rw [hzero, h.getTldLit_zero] at hback
    exact hy hback.symm

end Translation

section Solution

variable (h : Valid vt)

include h

def InPlace (solution : List Int) : Prop := ∀ (v : Nat) (lit : Int), solution[v]? = some lit → lit = v ∨ lit = -v

def Translated (vt : VariableTranslator) (i : Nat) (origSolution : List Int) : Prop :=
  (∀ v, up vt.extraVariables v < i ↔ v < origSolution.length) ∧ InPlace origSolution

theorem Valid.translated_skip {i : Nat} {origSolution : List Int} (ht : Translated vt i origSolution)
    (hi : i ∈ vt.extraVariables) : Translated vt (i + 1) origSolution := by
  refine ⟨?_, ht.2⟩
  intro v
  have hne : up vt.extraVariables v ≠ i := fun heq => up_not_mem h.sorted v (heq ▸ hi)
  rw [← ht.1 v]
  omega

omit h in
theorem translated_push {i : Nat} {origSolution : List Int} (ht : Translated vt i origSolution)
    (hi : up vt.extraVariables origSolution.length = i) {l : Int}
    (hlit : l = origSolution.length ∨ l = -origSolution.length) :
    Translated vt (i + 1) (origSolution ++ [l]) := by
  have hmono := up_strictMono vt.extraVariables
  refine ⟨?_, ?_⟩
  · intro v
    rw [List.length_append, List.length_singleton, Nat.lt_succ_iff, Nat.lt_succ_iff, ← hi]
    exact hmono.le_iff_le
  · intro v lit' hv
    rcases Nat.lt_trichotomy v origSolution.length with hlt | rfl | hgt
    · rw [List.getElem?_append_left hlt] at hv
      exact ht.2 v lit' hv
    · rw [List.getElem?_concat_length] at hv
      obtain rfl := Option.some.inj hv
      exact hlit
    · rw [List.getElem?_eq_none (by simp; omega)] at hv
      cases hv

omit h in
/-- The assertion after each entry: the last value stands at its place. -/
theorem translated_last {i : Nat} {origSolution : List Int} (ht : Translated vt i origSolution)
    (hne : origSolution ≠ []) : origSolution.getLast? = some (origSolution.length - 1 : Int) ∨
      origSolution.getLast? = some (1 - origSolution.length : Int) := by
  have hpos := List.length_pos_iff.mpr hne
  have hlast : origSolution[origSolution.length - 1]? = some (origSolution.getLast hne) := by
    rw [← List.getLast?_eq_getElem?, List.getLast?_eq_some_getLast hne]
  rw [List.getLast?_eq_some_getLast hne]
  rcases ht.2 _ _ hlast with heq | heq
  · exact Or.inl (congrArg some (by omega))
  · exact Or.inr (congrArg some (by omega))

theorem Valid.translateEntry_ok {i : Nat} {origSolution : List Int} (ht : Translated vt i origSolution) (hi : 0 < i)
    (hne : origSolution ≠ []) {lit : Int} (hlit : lit = i ∨ lit = -i) :
    ∃ origSolution', vt.translateEntry origSolution (lit, i) = some origSolution' ∧
      Translated vt (i + 1) origSolution' ∧ origSolution' ≠ [] := by
  have habs : lit.natAbs = i := by omega
  have hzero := h.getOrigLitOrZero_eq_zero_iff (y := lit)
  rw [habs] at hzero
  by_cases hextra : i ∈ vt.extraVariables
  · have horig : vt.getOrigLitOrZero lit = 0 := hzero.mpr (Or.inl hextra)
    refine ⟨origSolution, ?_, h.translated_skip ht hextra, hne⟩
    simp [translateEntry, hi, hlit, horig, translated_last ht hne]
  · have horig : vt.getOrigLitOrZero lit ≠ 0 := by
      rw [Ne, hzero]
      rintro (hmem | hzero')
      · exact hextra hmem
      · omega
    have hback := h.getTldLit_getOrigLitOrZero (y := lit) (habs ▸ hextra)
    have hup : up vt.extraVariables (vt.getOrigLitOrZero lit).natAbs = i := by
      rw [← h.natAbs_getTldLit, hback, habs]
    have hlength : (vt.getOrigLitOrZero lit).natAbs = origSolution.length := by
      have hmono := up_strictMono vt.extraVariables
      have hlow := (ht.1 (vt.getOrigLitOrZero lit).natAbs).not.mp (by omega)
      have hup' := (ht.1 origSolution.length).not.mpr (by omega)
      have hle := hmono.le_iff_le (a := (vt.getOrigLitOrZero lit).natAbs) (b := origSolution.length)
      omega
    have hpush := translated_push ht (hlength ▸ hup) (l := vt.getOrigLitOrZero lit) (by omega)
    refine ⟨origSolution ++ [vt.getOrigLitOrZero lit], ?_, hpush, by simp⟩
    have hlast := translated_last hpush (by simp)
    simp only [translateEntry, gt_iff_lt, hi, if_true, hlit, ne_eq, horig, not_false_eq_true, hlast]

theorem Valid.foldlM_translateEntry {entries : List Int} {i : Nat} {origSolution : List Int}
    (ht : Translated vt i origSolution) (hi : 0 < i) (hne : origSolution ≠ [])
    (hentries : ∀ (j : Nat) (lit : Int), entries[j]? = some lit → lit = (i + j : Nat) ∨ lit = -((i + j : Nat) : Int)) :
    ∃ origSolution', (entries.zipIdx i).foldlM vt.translateEntry origSolution = some origSolution' ∧
      Translated vt (i + entries.length) origSolution' := by
  induction entries generalizing i origSolution with
  | nil => exact ⟨origSolution, rfl, ht⟩
  | cons lit entries ih =>
      obtain ⟨origSolution₁, hfirst, ht₁, hne₁⟩ := h.translateEntry_ok ht hi hne (hentries 0 lit rfl)
      obtain ⟨origSolution₂, hrest, ht₂⟩ := ih ht₁ (Nat.succ_pos i) hne₁ (by
        intro j lit' hj
        have hshift := hentries (j + 1) lit' hj
        rwa [← Nat.add_assoc, Nat.add_right_comm] at hshift)
      refine ⟨origSolution₂, ?_, ?_⟩
      · rw [List.zipIdx_cons, List.foldlM_cons, hfirst]
        exact hrest
      · rwa [List.length_cons, ← Nat.add_assoc, Nat.add_right_comm]

theorem Valid.translated_one : Translated vt 1 [0] := by
  refine ⟨?_, ?_⟩
  · intro v
    have hle := le_up vt.extraVariables v
    constructor
    · intro hlt
      rw [List.length_singleton]
      omega
    · intro hlt
      obtain rfl : v = 0 := by simpa using hlt
      rw [up_zero h.positive]
      exact Nat.one_pos
  · intro v lit hv
    rcases v with _ | v
    · obtain rfl := Option.some.inj hv
      exact Or.inl rfl
    · cases hv

/-- A full assignment is translated to one of exactly the original variables it
reaches. -/
theorem Valid.translateSolution_ok {solution : List Int} (hplaces : InPlace solution) :
    ∃ origSolution, vt.translateSolution solution = some origSolution ∧
      Translated vt solution.length origSolution := by
  rw [translateSolution]
  split
  · rename_i hempty
    rw [List.isEmpty_iff] at hempty
    refine ⟨solution, rfl, ?_, hplaces⟩
    intro v
    rw [hempty]
    exact Iff.rfl
  · cases solution with
    | nil => exact ⟨[], rfl, fun v => by simp, hplaces⟩
    | cons zero entries =>
        obtain ⟨origSolution, hrest, ht⟩ := h.foldlM_translateEntry h.translated_one Nat.one_pos (by simp) (by
          intro j lit hj
          rw [Nat.add_comm]
          exact hplaces (j + 1) lit hj)
        refine ⟨origSolution, ?_, ?_⟩
        · rw [List.zipIdx_cons, List.foldlM_cons]
          exact hrest
        · rwa [List.length_cons, Nat.add_comm]

end Solution

def introducing (latestOrigMaxVars : List Nat) : VariableTranslator := addExtraVariables {} latestOrigMaxVars

/-- After any introductions of extra variables both translations are inverse to
each other and keep the order, and a translated solution is one again. -/
theorem translation_isomorphism (ms : List Nat) :
    (introducing ms).extraVariables.Pairwise (· < ·) ∧
    Function.Injective (introducing ms).getTldLit ∧ (∀ x, (introducing ms).getTldLit (-x) = -(introducing ms).getTldLit x) ∧
    (∀ x y, 0 < x → x < y → (introducing ms).getTldLit x < (introducing ms).getTldLit y) ∧
    (∀ y, (∃ x, x ≠ 0 ∧ (introducing ms).getTldLit x = y) ↔ y ≠ 0 ∧ y.natAbs ∉ (introducing ms).extraVariables) ∧
    (∀ x, (introducing ms).getOrigLitOrZero ((introducing ms).getTldLit x) = x) ∧
    (∀ y, (introducing ms).getOrigLitOrZero y = 0 ↔ y.natAbs ∈ (introducing ms).extraVariables ∨ y = 0) ∧
    (∀ y, y.natAbs ∉ (introducing ms).extraVariables → (introducing ms).getTldLit ((introducing ms).getOrigLitOrZero y) = y) ∧
    (∀ (m : Nat) (x : Int), x.natAbs ≤ m → ((introducing ms).addExtraVariable m).getTldLit x = (introducing ms).getTldLit x) ∧
    ∀ solution, InPlace solution → ∃ origSolution, (introducing ms).translateSolution solution = some origSolution ∧
      InPlace origSolution ∧ ∀ v, v < origSolution.length ↔ ((introducing ms).getTldLit v).toNat < solution.length := by
  have h : Valid (introducing ms) := valid_create.addExtraVariables ms
  refine ⟨h.sorted, h.getTldLit_injective, h.getTldLit_neg, fun x y => h.getTldLit_lt, fun y => h.exists_getTldLit_iff,
    fun x => h.getOrigLitOrZero_getTldLit, fun y => h.getOrigLitOrZero_eq_zero_iff,
    fun y => h.getTldLit_getOrigLitOrZero, fun m x => h.getTldLit_add m, ?_⟩
  intro solution hplaces
  obtain ⟨origSolution, hsome, ht⟩ := h.translateSolution_ok hplaces
  refine ⟨origSolution, hsome, ht.2, ?_⟩
  intro v
  rw [h.getTldLit_natCast, Int.toNat_natCast]
  exact (ht.1 v).symm

end VariableTranslator

end Mallob
