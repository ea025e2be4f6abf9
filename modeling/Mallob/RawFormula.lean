import Mallob.SatReader

namespace Mallob.SatReader

open JobDescription (Call)

/-- Clauses, each ended by a zero, a zero, and assumptions with a zero at their end. -/
structure RawFormula where
  clauses : List (List CInt)
  assumptions : List CInt
  clauses_ne_nil : ∀ clause ∈ clauses, clause ≠ []
  zero_notMem_clauses : ∀ clause ∈ clauses, 0 ∉ clause
  zero_notMem_assumptions : 0 ∉ assumptions

namespace RawFormula

def clausePart (f : RawFormula) : List CInt := f.clauses.flatMap fun clause => clause ++ [0]

def ints (f : RawFormula) : List CInt := f.clausePart ++ 0 :: (f.assumptions ++ [0])

def calls (f : RawFormula) : List Call := f.clausePart.map .addLiteral ++ f.assumptions.map .addAssumption

end RawFormula

/-- What can follow a formula unnoticed: an arbitrary number, numbers other than zero, and a zero. -/
def groupInts (groups : List (CInt × List CInt)) : List CInt := groups.flatMap fun group => group.1 :: (group.2 ++ [0])

def Trailing (xs : List CInt) : Prop :=
  ∃ (f : RawFormula) (groups : List (CInt × List CInt)), groups ≠ [] ∧ (∀ group ∈ groups, 0 ∉ group.2) ∧
    xs = f.ints ++ groupInts groups

def readInts (xs : List CInt) (reading : Reading) : Reading :=
  xs.foldl (fun reading x => reading.1.processInt x reading.2) reading

theorem readInts_append (xs ys : List CInt) (reading : Reading) :
    readInts (xs ++ ys) reading = readInts ys (readInts xs reading) := List.foldl_append

theorem readInts_cons (x : CInt) (xs : List CInt) (reading : Reading) :
    readInts (x :: xs) reading = readInts xs (reading.1.processInt x reading.2) := rfl

structure InClauses (emptyClause : Bool) (r : SatReader) : Prop where
  mode : r.contentMode = .raw
  clauses : r.traversingClauses = true
  assumptions : r.traversingAssumptions = false
  emptyClause_eq : r.emptyClause = emptyClause
  valid : r.validInput = false

structure PastClauses (validInput : Bool) (r : SatReader) : Prop where
  mode : r.contentMode = .raw
  clauses : r.traversingClauses = false
  assumptions : r.traversingAssumptions = true
  emptyClause_eq : r.emptyClause = true
  valid : r.validInput = validInput

section Steps

variable {r : SatReader} {x : CInt} {emptyClause : Bool}

theorem InClauses.literal (h : InClauses emptyClause r) (hx : x ≠ 0 ∨ emptyClause = false) (desc : List Call) :
    InClauses (x == 0) (r.processInt x desc).1 ∧ (r.processInt x desc).2 = desc ++ [.addLiteral x] := by
  have hvalid : ¬ r.validInput = true := by simp [h.valid]
  have hnot : ¬ (r.emptyClause && x == 0) = true := by
    rw [h.emptyClause_eq, Bool.and_eq_true, beq_iff_eq]
    rintro ⟨hempty, hzero⟩
    rcases hx with hx | hx
    · exact hx hzero
    · rw [hempty] at hx
      cases hx
  rw [processInt, if_neg hvalid, if_neg hnot, if_pos h.clauses]
  exact ⟨⟨h.mode, h.clauses, h.assumptions, by rw [h.assumptions, Bool.false_or], h.valid⟩, rfl⟩

theorem InClauses.separator (h : InClauses true r) (desc : List Call) :
    PastClauses false (r.processInt 0 desc).1 ∧ (r.processInt 0 desc).2 = desc := by
  have hvalid : ¬ r.validInput = true := by simp [h.valid]
  have hempty : (r.emptyClause && (0 : CInt) == 0) = true := by simp [h.emptyClause_eq]
  rw [processInt, if_neg hvalid, if_pos hempty, if_pos h.clauses]
  exact ⟨⟨h.mode, rfl, rfl, h.emptyClause_eq, h.valid⟩, rfl⟩

theorem PastClauses.assumption (h : PastClauses false r) (hx : x ≠ 0) (desc : List Call) :
    PastClauses false (r.processInt x desc).1 ∧ (r.processInt x desc).2 = desc ++ [.addAssumption x] := by
  have hvalid : ¬ r.validInput = true := by simp [h.valid]
  have hnot : ¬ (r.emptyClause && x == 0) = true := by
    rw [Bool.and_eq_true, beq_iff_eq]
    exact fun hzero => hx hzero.2
  have hclauses : ¬ r.traversingClauses = true := by simp [h.clauses]
  rw [processInt, if_neg hvalid, if_neg hnot, if_neg hclauses]
  exact ⟨⟨h.mode, h.clauses, h.assumptions, by rw [h.assumptions, Bool.true_or], h.valid⟩, rfl⟩

theorem PastClauses.finish (h : PastClauses false r) (desc : List Call) :
    PastClauses true (r.processInt 0 desc).1 ∧ (r.processInt 0 desc).2 = desc := by
  have hvalid : ¬ r.validInput = true := by simp [h.valid]
  have hempty : (r.emptyClause && (0 : CInt) == 0) = true := by simp [h.emptyClause_eq]
  have hclauses : ¬ r.traversingClauses = true := by simp [h.clauses]
  rw [processInt, if_neg hvalid, if_pos hempty, if_neg hclauses, if_pos h.assumptions]
  exact ⟨⟨h.mode, h.clauses, h.assumptions, h.emptyClause_eq, rfl⟩, rfl⟩

/-- One more number makes a valid input invalid, and the reader takes up the assumptions again. -/
theorem PastClauses.invalidate (h : PastClauses true r) (x : CInt) (desc : List Call) :
    PastClauses false (r.processInt x desc).1 ∧ (r.processInt x desc).2 = desc := by
  rw [processInt, h.valid]
  exact ⟨⟨h.mode, h.clauses, h.assumptions, h.emptyClause_eq, rfl⟩, rfl⟩

end Steps

section Forward

variable {reading : Reading}

theorem InClauses.readLiterals (xs : List CInt) (hxs : 0 ∉ xs) {emptyClause : Bool}
    (h : InClauses emptyClause reading.1) : InClauses (emptyClause && xs.isEmpty) (readInts xs reading).1 ∧
      (readInts xs reading).2 = reading.2 ++ xs.map .addLiteral := by
  induction xs generalizing reading emptyClause with
  | nil =>
      rw [List.isEmpty_nil, Bool.and_true, List.map_nil, List.append_nil]
      exact ⟨h, rfl⟩
  | cons x xs ih =>
      rw [List.mem_cons, not_or] at hxs
      obtain ⟨hstate, hdesc⟩ := h.literal (Or.inl (Ne.symm hxs.1)) reading.2
      have hx : (x == 0) = false := by simpa using Ne.symm hxs.1
      rw [hx] at hstate
      obtain ⟨hstate', hdesc'⟩ := ih hxs.2 hstate
      rw [readInts_cons, List.isEmpty_cons, Bool.and_false]
      rw [Bool.false_and] at hstate'
      refine ⟨hstate', ?_⟩
      rw [hdesc', hdesc, List.append_assoc]
      rfl

theorem InClauses.readClauses (clauses : List (List CInt)) (hne : ∀ clause ∈ clauses, clause ≠ [])
    (hzero : ∀ clause ∈ clauses, 0 ∉ clause) (h : InClauses true reading.1) :
    InClauses true (readInts (clauses.flatMap fun clause => clause ++ [0]) reading).1 ∧
      (readInts (clauses.flatMap fun clause => clause ++ [0]) reading).2 =
        reading.2 ++ (clauses.flatMap fun clause => clause ++ [0]).map .addLiteral := by
  induction clauses generalizing reading with
  | nil => exact ⟨h, (List.append_nil _).symm⟩
  | cons clause clauses ih =>
      obtain ⟨hclause, hclauses⟩ := List.forall_mem_cons.mp hne
      obtain ⟨hclauseZero, hclausesZero⟩ := List.forall_mem_cons.mp hzero
      obtain ⟨hstate, hdesc⟩ := h.readLiterals clause hclauseZero
      have hempty : clause.isEmpty = false := by simpa using hclause
      rw [hempty] at hstate
      obtain ⟨hstate', hdesc'⟩ := hstate.literal (x := 0) (Or.inr rfl) (readInts clause reading).2
      obtain ⟨hstate'', hdesc''⟩ := ih hclauses hclausesZero hstate'
      rw [List.flatMap_cons, List.append_assoc, readInts_append, List.singleton_append, readInts_cons]
      refine ⟨hstate'', ?_⟩
      rw [hdesc'', hdesc', hdesc]
      simp

theorem PastClauses.readAssumptions (xs : List CInt) (hxs : 0 ∉ xs) (h : PastClauses false reading.1) :
    PastClauses false (readInts xs reading).1 ∧ (readInts xs reading).2 = reading.2 ++ xs.map .addAssumption := by
  induction xs generalizing reading with
  | nil => exact ⟨h, (List.append_nil _).symm⟩
  | cons x xs ih =>
      rw [List.mem_cons, not_or] at hxs
      obtain ⟨hstate, hdesc⟩ := h.assumption (Ne.symm hxs.1) reading.2
      obtain ⟨hstate', hdesc'⟩ := ih hxs.2 hstate
      rw [readInts_cons]
      refine ⟨hstate', ?_⟩
      rw [hdesc', hdesc, List.append_assoc]
      rfl

theorem readRaw_formula (f : RawFormula) :
    PastClauses true (readRaw f.ints).1 ∧ (readRaw f.ints).2 = f.calls := by
  have hstart : InClauses true (({ contentMode := .raw }, []) : Reading).1 := ⟨rfl, rfl, rfl, rfl, rfl⟩
  obtain ⟨hclauses, hliterals⟩ := hstart.readClauses f.clauses f.clauses_ne_nil f.zero_notMem_clauses
  obtain ⟨hseparator, hsame⟩ := hclauses.separator _
  obtain ⟨hassumptions, hcalls⟩ := hseparator.readAssumptions f.assumptions f.zero_notMem_assumptions
  obtain ⟨hfinish, hsame'⟩ := hassumptions.finish _
  have hread : readRaw f.ints = readInts f.ints ({ contentMode := .raw }, []) := rfl
  rw [hread, RawFormula.ints, RawFormula.clausePart, readInts_append, readInts_cons, readInts_append, readInts_cons]
  refine ⟨hfinish, ?_⟩
  rw [readInts, List.foldl_nil, hsame', hcalls, hsame, hliterals]
  rfl

theorem PastClauses.readGroups (groups : List (CInt × List CInt)) (hgroups : ∀ group ∈ groups, 0 ∉ group.2)
    (h : PastClauses true reading.1) : PastClauses true (readInts (groupInts groups) reading).1 := by
  induction groups generalizing reading with
  | nil => exact h
  | cons group groups ih =>
      obtain ⟨hgroup, hrest⟩ := List.forall_mem_cons.mp hgroups
      have hopen := (h.invalidate group.1 reading.2).1
      have hread := (hopen.readAssumptions group.2 hgroup).1
      rw [groupInts, List.flatMap_cons, List.cons_append, readInts_cons, List.append_assoc, readInts_append,
        List.singleton_append, readInts_cons]
      exact ih hrest (hread.finish _).1

theorem valid_of_trailing {xs : List CInt} (h : Trailing xs) : (readRaw xs).1.isValidInput = true := by
  obtain ⟨f, groups, -, hgroups, rfl⟩ := h
  have hread : readRaw (f.ints ++ groupInts groups) = readInts (groupInts groups) (readRaw f.ints) :=
    readInts_append _ _ _
  have hvalid := (readRaw_formula f).1.readGroups groups hgroups
  rw [hread, isValidInput, hvalid.valid, Bool.or_true]

end Forward

/-- Two lists that go on after their first zero are split at the same place. -/
theorem split_at_zero {xs ys xs' ys' : List CInt} (hxs : 0 ∉ xs) (hxs' : 0 ∉ xs')
    (h : xs ++ 0 :: ys = xs' ++ 0 :: ys') : xs = xs' ∧ ys = ys' := by
  induction xs generalizing xs' with
  | nil =>
      cases xs' with
      | nil => exact ⟨rfl, (List.cons.inj h).2⟩
      | cons x' xs' => exact absurd (List.cons.inj h).1 fun heq => hxs' (heq ▸ List.mem_cons_self)
  | cons x xs ih =>
      rw [List.mem_cons, not_or] at hxs
      cases xs' with
      | nil => exact absurd (List.cons.inj h).1.symm hxs.1
      | cons x' xs' =>
          obtain ⟨rfl, hrest⟩ := List.cons.inj h
          rw [List.mem_cons, not_or] at hxs'
          obtain ⟨rfl, hys⟩ := ih hxs.2 hxs'.2 hrest
          exact ⟨rfl, hys⟩

theorem ints_prefix_free (f f' : RawFormula) {rest : List CInt} (h : f'.ints = f.ints ++ rest) : rest = [] := by
  obtain ⟨clauses, assumptions, hne, hzero, hassumptions⟩ := f
  obtain ⟨clauses', assumptions', hne', hzero', hassumptions'⟩ := f'
  simp only [RawFormula.ints, RawFormula.clausePart] at h
  induction clauses generalizing clauses' with
  | nil =>
      cases clauses' with
      | nil =>
          have htail : assumptions' ++ 0 :: [] = assumptions ++ 0 :: rest := by
            simpa [List.append_assoc] using h
          have hrest := (split_at_zero hassumptions' hassumptions htail).2
          exact hrest.symm
      | cons clause' clauses' =>
          cases clause' with
          | nil => exact absurd rfl (hne' [] List.mem_cons_self)
          | cons x' clause' =>
              have hx' : x' = 0 := (List.cons.inj h).1
              exact absurd List.mem_cons_self (hx' ▸ hzero' _ List.mem_cons_self)
  | cons clause clauses ih =>
      obtain ⟨hclause, hclauses⟩ := List.forall_mem_cons.mp hne
      obtain ⟨hclauseZero, hclausesZero⟩ := List.forall_mem_cons.mp hzero
      cases clauses' with
      | nil =>
          cases clause with
          | nil => exact absurd rfl hclause
          | cons x clause =>
              have hx : 0 = x := (List.cons.inj h).1
              exact absurd List.mem_cons_self (hx ▸ hclauseZero)
      | cons clause' clauses' =>
          obtain ⟨-, hclauses'⟩ := List.forall_mem_cons.mp hne'
          obtain ⟨hclauseZero', hclausesZero'⟩ := List.forall_mem_cons.mp hzero'
          simp only [List.flatMap_cons, List.append_assoc, List.singleton_append] at h
          have hrest := (split_at_zero hclauseZero' hclauseZero h).2
          refine ih hclauses hclausesZero clauses' hclauses' hclausesZero' ?_
          rw [List.append_assoc]
          exact hrest

def Completed (xs : List CInt) : Prop := (∃ f : RawFormula, f.ints = xs) ∨ Trailing xs

theorem Completed.extend {xs ys : List CInt} (h : Completed xs) (x : CInt) (hys : 0 ∉ ys) :
    Trailing (xs ++ x :: (ys ++ [0])) := by
  rcases h with ⟨f, rfl⟩ | ⟨f, groups, -, hgroups, rfl⟩
  · refine ⟨f, [(x, ys)], List.cons_ne_nil _ _, ?_, by simp [groupInts]⟩
    intro group hgroup
    rw [List.mem_singleton.mp hgroup]
    exact hys
  · refine ⟨f, groups ++ [(x, ys)], by simp, ?_, by simp [groupInts]⟩
    intro group hgroup
    rcases List.mem_append.mp hgroup with hgroup | hgroup
    · exact hgroups group hgroup
    · rw [List.mem_singleton.mp hgroup]
      exact hys

inductive Stage : List CInt → SatReader → Prop
  | clauses (f : RawFormula) (current : List CInt) {r : SatReader} : 0 ∉ current → InClauses current.isEmpty r →
      Stage (f.clausePart ++ current) r
  | assumptions (f : RawFormula) {r : SatReader} : PastClauses false r → Stage (f.clausePart ++ 0 :: f.assumptions) r
  | completed {xs : List CInt} {r : SatReader} : Completed xs → PastClauses true r → Stage xs r
  | trailing {xs ys : List CInt} {x : CInt} {r : SatReader} : Completed xs → 0 ∉ ys → PastClauses false r →
      Stage (xs ++ x :: ys) r

theorem notMem_concat {xs : List CInt} {x : CInt} (hxs : 0 ∉ xs) (hx : x ≠ 0) : 0 ∉ xs ++ [x] := by
  rw [List.mem_append, List.mem_singleton, not_or]
  exact ⟨hxs, Ne.symm hx⟩

theorem Stage.step {xs : List CInt} {r : SatReader} (h : Stage xs r) (x : CInt) (desc : List Call) :
    Stage (xs ++ [x]) (r.processInt x desc).1 := by
  cases h with
  | clauses f current hcurrent hstate =>
      rw [List.append_assoc]
      by_cases hx : x = 0
      · subst hx
        cases current with
        | nil =>
            exact .assumptions { f with assumptions := [], zero_notMem_assumptions := List.not_mem_nil }
              (hstate.separator desc).1
        | cons y current =>
            have hclause : ∀ clause ∈ f.clauses ++ [y :: current], clause ≠ [] ∧ 0 ∉ clause := by
              intro clause hclause
              rcases List.mem_append.mp hclause with hclause | hclause
              · exact ⟨f.clauses_ne_nil clause hclause, f.zero_notMem_clauses clause hclause⟩
              · rw [List.mem_singleton.mp hclause]
                exact ⟨List.cons_ne_nil _ _, hcurrent⟩
            have hnext := Stage.clauses { f with
              clauses := f.clauses ++ [y :: current]
              clauses_ne_nil := fun clause hmem => (hclause clause hmem).1
              zero_notMem_clauses := fun clause hmem => (hclause clause hmem).2 } [] List.not_mem_nil
              (hstate.literal (x := 0) (Or.inr rfl) desc).1
            simpa [RawFormula.clausePart] using hnext
      · have hstate' := (hstate.literal (Or.inl hx) desc).1
        have hzero : (x == 0) = (current ++ [x]).isEmpty := by
          rw [beq_eq_false_iff_ne.mpr hx]
          simp
        rw [hzero] at hstate'
        exact .clauses f (current ++ [x]) (notMem_concat hcurrent hx) hstate'
  | assumptions f hstate =>
      rw [List.append_assoc, List.cons_append]
      by_cases hx : x = 0
      · subst hx
        exact .completed (Or.inl ⟨f, rfl⟩) (hstate.finish desc).1
      · exact .assumptions { f with
          assumptions := f.assumptions ++ [x]
          zero_notMem_assumptions := notMem_concat f.zero_notMem_assumptions hx } (hstate.assumption hx desc).1
  | completed hcompleted hstate => exact .trailing hcompleted List.not_mem_nil (hstate.invalidate x desc).1
  | @trailing xs ys y r hcompleted hys hstate =>
      rw [List.append_assoc, List.cons_append]
      by_cases hx : x = 0
      · subst hx
        exact .completed (Or.inr (hcompleted.extend y hys)) (hstate.finish desc).1
      · exact .trailing hcompleted (notMem_concat hys hx) (hstate.assumption hx desc).1

theorem stage_readRaw (xs : List CInt) : Stage xs (readRaw xs).1 := by
  induction xs using List.reverseRecOn with
  | nil => exact .clauses ⟨[], [], by simp, by simp, List.not_mem_nil⟩ [] List.not_mem_nil ⟨rfl, rfl, rfl, rfl, rfl⟩
  | append_singleton xs x ih =>
      rw [readRaw, List.foldl_append]
      exact ih.step x (readRaw xs).2

theorem completed_of_valid {xs : List CInt} (h : (readRaw xs).1.isValidInput = true) : Completed xs := by
  have hinvalid : ∀ r : SatReader, r.contentMode = .raw → r.validInput = false → r.isValidInput = false := by
    intro r hmode hvalid
    simp [isValidInput, hmode, hvalid]
  cases stage_readRaw xs with
  | clauses f current hcurrent hstate =>
      rw [hinvalid _ hstate.mode hstate.valid] at h
      cases h
  | assumptions f hstate =>
      rw [hinvalid _ hstate.mode hstate.valid] at h
      cases h
  | completed hcompleted hstate => exact hcompleted
  | trailing hcompleted hys hstate =>
      rw [hinvalid _ hstate.mode hstate.valid] at h
      cases h

theorem not_formula_of_trailing {xs : List CInt} (h : Trailing xs) (f : RawFormula) : f.ints ≠ xs := by
  obtain ⟨f', groups, hne, -, rfl⟩ := h
  intro heq
  have hnil := ints_prefix_free f' f heq
  cases groups with
  | nil => exact hne rfl
  | cons group groups => cases hnil

/-- Exactly the formulas are accepted, with their numbers as literals and assumptions, unless a formula is
followed by groups of numbers that end with a zero. -/
theorem raw_acceptance_iff (xs : List CInt) :
    (((readRaw xs).1.isValidInput = true ↔ ∃ f : RawFormula, f.ints = xs) ∧
      ∀ f : RawFormula, f.ints = xs →
        (readRaw xs).2 = f.clausePart.map .addLiteral ++ f.assumptions.map .addAssumption) ↔ ¬ Trailing xs := by
  have hformula : ∀ f : RawFormula, f.ints = xs → (readRaw xs).1.isValidInput = true ∧ (readRaw xs).2 = f.calls := by
    rintro f rfl
    obtain ⟨hstate, hcalls⟩ := readRaw_formula f
    rw [isValidInput, hstate.valid, Bool.or_true]
    exact ⟨rfl, hcalls⟩
  constructor
  · rintro ⟨haccepted, -⟩ htrailing
    obtain ⟨f, hf⟩ := haccepted.mp (valid_of_trailing htrailing)
    exact not_formula_of_trailing htrailing f hf
  · intro htrailing
    refine ⟨⟨fun hvalid => (completed_of_valid hvalid).resolve_right htrailing, ?_⟩, fun f hf => (hformula f hf).2⟩
    rintro ⟨f, hf⟩
    exact (hformula f hf).1

/-- After a complete formula without clauses and assumptions, two more numbers make the input valid again. -/
theorem trailing_numbers_accepted : (readRaw [0, 0, 5, 0]).1.isValidInput = true ∧
    ¬ ∃ f : RawFormula, f.ints = [0, 0, 5, 0] := by
  refine ⟨by decide, ?_⟩
  rintro ⟨f, hf⟩
  refine not_formula_of_trailing ⟨⟨[], [], by simp, by simp, List.not_mem_nil⟩, [(5, [])], by simp, ?_, rfl⟩ f hf
  intro group hgroup
  rw [List.mem_singleton.mp hgroup]
  exact List.not_mem_nil

end Mallob.SatReader
