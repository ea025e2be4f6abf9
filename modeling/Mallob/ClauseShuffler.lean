import Mathlib

namespace Mallob

structure RandomSource (ρ : Type) where
  draw : ρ → Nat → Nat × ρ
  draw_lt : ∀ r n, 0 < n → (draw r n).1 < n

namespace ClauseShuffler

variable {ρ α β : Type} (src : RandomSource ρ)

def swap (xs : List α) (i j : Nat) : List α :=
  match xs[i]?, xs[j]? with
  | some a, some b => (xs.set j a).set i b
  | _, _ => xs

def shuffleFrom : Nat → Nat → List α → ρ → List α × ρ
  | 0, _, xs, r => (xs, r)
  | left + 1, i, xs, r =>
      let (d, r) := src.draw r (xs.length - i)
      shuffleFrom left (i + 1) (swap xs i (i + d)) r

def shuffle (xs : List α) (r : ρ) : List α × ρ := shuffleFrom src (xs.length - 1) 0 xs r

/-- The sizes and the starts of the clauses that end in the input. -/
def clauseList : Nat → Nat → List Int → List (Nat × Nat)
  | _, _, [] => []
  | i, clauseStart, lit :: lits =>
      if lit = 0 then (i - clauseStart, clauseStart) :: clauseList (i + 1) (i + 1) lits
      else clauseList (i + 1) clauseStart lits

def clauseAt (input : List Int) (clause : Nat × Nat) : List Int := (input.drop clause.2).take clause.1

def shuffleLiterals : List (Nat × Nat) → List Int → ρ → List Int × ρ
  | [], input, r => (input, r)
  | clause :: clauses, input, r =>
      let (lits, r) := shuffle src (clauseAt input clause) r
      shuffleLiterals clauses (input.take clause.2 ++ lits ++ input.drop (clause.2 + clause.1)) r

/-- None stands for the failed assertion about the total size. -/
def doShuffle (input : List Int) (permuteClauses permuteLiterals : Bool) (r : ρ) : Option (List Int) :=
  let clauses := clauseList 0 0 input
  if (clauses.map Prod.fst).sum + clauses.length = input.length then
    let (clauses, r) := if permuteClauses then shuffle src clauses r else (clauses, r)
    if permuteLiterals then some (shuffleLiterals src clauses input r).1 else some input
  else none

section Shuffle

theorem swap_perm (xs : List α) (i j : Nat) : (swap xs i j).Perm xs := by
  rw [swap]
  split
  · next a b ha hb =>
      obtain ⟨hi, rfl⟩ := List.getElem?_eq_some_iff.mp ha
      obtain ⟨hj, rfl⟩ := List.getElem?_eq_some_iff.mp hb
      exact List.set_set_perm hj hi
  · exact List.Perm.refl xs

theorem swap_map (f : α → β) (xs : List α) (i j : Nat) : swap (xs.map f) i j = (swap xs i j).map f := by
  simp only [swap, List.getElem?_map]
  cases xs[i]? with
  | none => rfl
  | some a =>
      cases xs[j]? with
      | none => rfl
      | some b => simp only [Option.map_some, List.map_set]

theorem shuffleFrom_perm (left i : Nat) (xs : List α) (r : ρ) : (shuffleFrom src left i xs r).1.Perm xs := by
  induction left generalizing i xs r with
  | zero => exact List.Perm.refl xs
  | succ left ih => exact (ih _ _ _).trans (swap_perm _ _ _)

theorem shuffle_perm (xs : List α) (r : ρ) : (shuffle src xs r).1.Perm xs := shuffleFrom_perm src _ _ xs r

theorem shuffleFrom_map (f : α → β) (left i : Nat) (xs : List α) (r : ρ) :
    shuffleFrom src left i (xs.map f) r = ((shuffleFrom src left i xs r).1.map f, (shuffleFrom src left i xs r).2) := by
  induction left generalizing i xs r with
  | zero => rfl
  | succ left ih => simp only [shuffleFrom, List.length_map, swap_map, ih]

theorem shuffle_map (f : α → β) (xs : List α) (r : ρ) :
    (shuffle src (xs.map f) r).1 = (shuffle src xs r).1.map f := by
  rw [shuffle, List.length_map, shuffleFrom_map]
  rfl

end Shuffle

def text (clauses : List (List Int)) : List Int := clauses.flatMap (· ++ [0])

def clausesFrom : List Int → List Int → List (List Int)
  | _, [] => []
  | begun, lit :: lits => if lit = 0 then begun :: clausesFrom [] lits else clausesFrom (begun ++ [lit]) lits

def clausesOf (lits : List Int) : List (List Int) := clausesFrom [] lits

def positions : Nat → List (List Int) → List (Nat × Nat)
  | _, [] => []
  | start, c :: cs => (c.length, start) :: positions (start + c.length + 1) cs

variable {clauses clauses' : List (List Int)}

@[simp] theorem text_cons (c : List Int) (cs : List (List Int)) : text (c :: cs) = c ++ 0 :: text cs := by
  simp [text]

theorem text_append (cs cs' : List (List Int)) : text (cs ++ cs') = text cs ++ text cs' := List.flatMap_append

theorem clausesFrom_append {c : List Int} (h : 0 ∉ c) (begun rest : List Int) :
    clausesFrom begun (c ++ 0 :: rest) = (begun ++ c) :: clausesFrom [] rest := by
  induction c generalizing begun with
  | nil => rw [List.nil_append, clausesFrom, if_pos rfl, List.append_nil]
  | cons lit c ih =>
      rw [List.mem_cons, not_or] at h
      rw [List.cons_append, clausesFrom, if_neg (Ne.symm h.1), ih h.2, List.append_assoc]
      rfl

theorem clausesOf_text (h : ∀ c ∈ clauses, 0 ∉ c) : clausesOf (text clauses) = clauses := by
  induction clauses with
  | nil => rfl
  | cons c cs ih =>
      have hrest := ih fun c' hc' => h c' (List.mem_cons_of_mem c hc')
      rw [clausesOf] at hrest ⊢
      rw [text_cons, clausesFrom_append (h c List.mem_cons_self), hrest, List.nil_append]

theorem clauseList_append {c : List Int} (h : 0 ∉ c) {i start : Nat} (hstart : start ≤ i) (rest : List Int) :
    clauseList i start (c ++ 0 :: rest) =
      (i + c.length - start, start) :: clauseList (i + c.length + 1) (i + c.length + 1) rest := by
  induction c generalizing i with
  | nil =>
      rw [List.nil_append, clauseList, if_pos rfl]
      rfl
  | cons lit c ih =>
      rw [List.mem_cons, not_or] at h
      rw [List.cons_append, clauseList, if_neg (Ne.symm h.1), ih h.2 (Nat.le_succ_of_le hstart), List.length_cons,
        show i + 1 + c.length = i + (c.length + 1) by omega]

theorem clauseList_text (h : ∀ c ∈ clauses, 0 ∉ c) (start : Nat) :
    clauseList start start (text clauses) = positions start clauses := by
  induction clauses generalizing start with
  | nil => rfl
  | cons c cs ih =>
      rw [text_cons, clauseList_append (h c List.mem_cons_self) le_rfl, positions, Nat.add_sub_cancel_left,
        ih fun c' hc' => h c' (List.mem_cons_of_mem c hc')]

theorem sum_positions (start : Nat) (clauses : List (List Int)) :
    ((positions start clauses).map Prod.fst).sum + (positions start clauses).length = (text clauses).length := by
  induction clauses generalizing start with
  | nil => rfl
  | cons c cs ih =>
      have hrest := ih (start + c.length + 1)
      rw [positions, List.map_cons, List.sum_cons, List.length_cons, text_cons, List.length_append, List.length_cons]
      omega

theorem map_clauseAt_positions (front clauses : List (List Int)) :
    (positions (text front).length clauses).map (clauseAt (text (front ++ clauses))) = clauses := by
  induction clauses generalizing front with
  | nil => rfl
  | cons c cs ih =>
      have hlength : (text (front ++ [c])).length = (text front).length + c.length + 1 := by
        simp [text, Nat.add_assoc]
      have hrest := ih (front ++ [c])
      rw [hlength, List.append_assoc, List.singleton_append] at hrest
      have hat : clauseAt (text (front ++ c :: cs)) (c.length, (text front).length) = c := by
        simp only [clauseAt, text_append, text_cons, List.drop_left, List.take_left]
      rw [positions, List.map_cons, hat, hrest]

/-- A position in a sequence of clauses is that of a clause between others. -/
theorem mem_positions {start : Nat} {clause : Nat × Nat} (h : clause ∈ positions start clauses) :
    ∃ front c back, clauses = front ++ c :: back ∧ clause = (c.length, start + (text front).length) := by
  induction clauses generalizing start with
  | nil => cases h
  | cons c cs ih =>
      rw [positions] at h
      rcases List.mem_cons.mp h with rfl | h
      · exact ⟨[], c, cs, rfl, rfl⟩
      · obtain ⟨front, c', back, hcs, hclause⟩ := ih h
        refine ⟨c :: front, c', back, by rw [hcs, List.cons_append], ?_⟩
        rw [hclause, text_cons, List.length_append, List.length_cons]
        simp only [Prod.mk.injEq, true_and]
        omega

theorem forall₂_perm_iff :
    List.Forall₂ List.Perm clauses' clauses ↔ clauses'.map Multiset.ofList = clauses.map Multiset.ofList := by
  rw [← List.forall₂_eq_eq_eq, List.forall₂_map_left_iff, List.forall₂_map_right_iff]
  simp only [Multiset.coe_eq_coe]

theorem positions_congr (h : List.Forall₂ List.Perm clauses' clauses) (start : Nat) :
    positions start clauses' = positions start clauses := by
  induction h generalizing start with
  | nil => rfl
  | cons hperm _ ih => rw [positions, positions, hperm.length_eq, ih]

theorem shuffleLiterals_text (pairs : List (Nat × Nat)) (hpairs : ∀ clause ∈ pairs, clause ∈ positions 0 clauses)
    (r : ρ) : ∃ clauses', (shuffleLiterals src pairs (text clauses) r).1 = text clauses' ∧
      List.Forall₂ List.Perm clauses' clauses := by
  induction pairs generalizing clauses r with
  | nil => exact ⟨clauses, rfl, List.forall₂_same.mpr fun c _ => List.Perm.refl c⟩
  | cons clause pairs ih =>
      obtain ⟨front, c, back, hclauses, hclause⟩ := mem_positions (hpairs clause List.mem_cons_self)
      rw [Nat.zero_add] at hclause
      have hat : clauseAt (text clauses) clause = c := by
        simp only [hclauses, hclause, clauseAt, text_append, text_cons, List.drop_left, List.take_left]
      have hperm := shuffle_perm src c r
      have hone : List.Forall₂ List.Perm (front ++ (shuffle src c r).1 :: back) clauses := by
        rw [hclauses]
        exact List.rel_append (List.forall₂_same.mpr fun c _ => List.Perm.refl c)
          (List.Forall₂.cons hperm (List.forall₂_same.mpr fun c _ => List.Perm.refl c))
      have hplaced : (text clauses).take clause.2 ++ (shuffle src c r).1 ++ (text clauses).drop (clause.2 + clause.1) =
          text (front ++ (shuffle src c r).1 :: back) := by
        simp only [hclauses, hclause, text_append, text_cons, List.take_left, List.append_assoc]
        rw [← List.drop_drop, List.drop_left, List.drop_left]
      obtain ⟨clauses', htext, hclauses'⟩ := @ih (front ++ (shuffle src c r).1 :: back)
        (fun clause' hmem => by
          rw [positions_congr hone]
          exact hpairs clause' (List.mem_cons_of_mem clause hmem)) (shuffle src c r).2
      refine ⟨clauses', ?_, ?_⟩
      · rw [shuffleLiterals, hat]
        simp only
        rw [hplaced, htext]
      · rw [forall₂_perm_iff] at hclauses' hone ⊢
        exact hclauses'.trans hone

theorem length_text_eq (h : List.Forall₂ List.Perm clauses' clauses) :
    (text clauses').length = (text clauses).length := by
  rw [← sum_positions 0, positions_congr h, sum_positions]

theorem zero_not_mem (h : List.Forall₂ List.Perm clauses' clauses) (hclauses : ∀ c ∈ clauses, 0 ∉ c) :
    ∀ c ∈ clauses', 0 ∉ c := by
  induction h with
  | nil => exact hclauses
  | cons hperm _ ih =>
      intro c hc
      rcases List.mem_cons.mp hc with rfl | hc
      · exact fun hmem => hclauses _ List.mem_cons_self (hperm.mem_iff.mp hmem)
      · exact ih (fun c hc => hclauses c (List.mem_cons_of_mem _ hc)) c hc

variable (permuteClauses permuteLiterals : Bool) (r : ρ)

theorem doShuffle_text (h : ∀ c ∈ clauses, 0 ∉ c) :
    ∃ clauses', doShuffle src (text clauses) permuteClauses permuteLiterals r = some (text clauses') ∧
      List.Forall₂ List.Perm clauses' clauses ∧ (permuteLiterals = false → clauses' = clauses) := by
  have hrefl : List.Forall₂ List.Perm clauses clauses := List.forall₂_same.mpr fun c _ => List.Perm.refl c
  simp only [doShuffle, clauseList_text h, if_pos (sum_positions 0 clauses)]
  cases permuteLiterals with
  | false => exact ⟨clauses, rfl, hrefl, fun _ => rfl⟩
  | true =>
      generalize hdrawn :
        (if permuteClauses then shuffle src (positions 0 clauses) r else (positions 0 clauses, r)) = drawn
      have hpairs : ∀ clause ∈ drawn.1, clause ∈ positions 0 clauses := by
        intro clause hmem
        rw [← hdrawn] at hmem
        split at hmem
        · exact (shuffle_perm src _ r).mem_iff.mp hmem
        · exact hmem
      obtain ⟨clauses', htext, hperm⟩ := shuffleLiterals_text src drawn.1 hpairs drawn.2
      exact ⟨clauses', congrArg some htext, hperm, fun hfalse => nomatch hfalse⟩

/-- The clause list after it has been shuffled, as it is found in the input. -/
def shuffledClauses (input : List Int) : List (List Int) :=
  (if permuteClauses then (shuffle src (clauseList 0 0 input) r).1 else clauseList 0 0 input).map (clauseAt input)

/-- The result has the clauses of the shuffled list, with their literals permuted or not. -/
def Shuffled (input : List Int) : Prop :=
  ∃ out, doShuffle src input permuteClauses permuteLiterals r = some out ∧ out.length = input.length ∧
    List.Forall₂ List.Perm (clausesOf out) (shuffledClauses src permuteClauses r input) ∧
    (permuteLiterals = false → clausesOf out = shuffledClauses src permuteClauses r input)

def drawnOrder (n : Nat) : List Nat := if permuteClauses then (shuffle src (List.range n) r).1 else List.range n

/-- The clause that is drawn for a position has the same literals as the one that stands there. -/
def Unmoved (clauses : List (List Int)) (order : List Nat) : Prop :=
  List.Forall₂ (fun k j =>
    if permuteLiterals then (clauses.getD k []).Perm (clauses.getD j []) else clauses.getD k [] = clauses.getD j [])
    (List.range clauses.length) order

theorem map_getD_range (clauses : List (List Int)) :
    (List.range clauses.length).map (fun k => clauses.getD k []) = clauses := by
  refine List.ext_getElem (by simp) fun k hk hk' => ?_
  simp [List.getElem?_eq_getElem hk']

theorem shuffledClauses_text (h : ∀ c ∈ clauses, 0 ∉ c) : shuffledClauses src permuteClauses r (text clauses) =
    (drawnOrder src permuteClauses r clauses.length).map fun k => clauses.getD k [] := by
  have hread := map_clauseAt_positions [] clauses
  rw [List.nil_append] at hread
  rw [shuffledClauses, drawnOrder, clauseList_text h]
  split
  · rw [← shuffle_map, ← shuffle_map, map_getD_range]
    exact congrArg (fun cs => (shuffle src cs r).1) hread
  · rw [map_getD_range]
    exact hread

/-- The formula is shuffled as announced if and only if the order that is drawn changes nothing but the order of
literals. -/
theorem shuffled_iff (h : ∀ c ∈ clauses, 0 ∉ c) : Shuffled src permuteClauses permuteLiterals r (text clauses) ↔
    Unmoved permuteLiterals clauses (drawnOrder src permuteClauses r clauses.length) := by
  obtain ⟨clauses', hout, hperm, hsame⟩ := doShuffle_text src permuteClauses permuteLiterals r h
  have hdecoded := clausesOf_text (zero_not_mem hperm h)
  have hunmoved : Unmoved permuteLiterals clauses (drawnOrder src permuteClauses r clauses.length) ↔
      List.Forall₂ (fun c d => if permuteLiterals then List.Perm c d else c = d) clauses
        (shuffledClauses src permuteClauses r (text clauses)) := by
    have hranged := List.forall₂_map_left_iff
      (R := fun c d => if permuteLiterals then List.Perm c d else c = d) (f := fun k => clauses.getD k [])
      (l := List.range clauses.length) (u := shuffledClauses src permuteClauses r (text clauses))
    rw [map_getD_range] at hranged
    rw [hranged, shuffledClauses_text src permuteClauses r h, List.forall₂_map_right_iff]
    rfl
  have hshuffled : Shuffled src permuteClauses permuteLiterals r (text clauses) ↔
      List.Forall₂ List.Perm clauses' (shuffledClauses src permuteClauses r (text clauses)) ∧
        (permuteLiterals = false → clauses' = shuffledClauses src permuteClauses r (text clauses)) := by
    rw [Shuffled, hout]
    constructor
    · rintro ⟨out, heq, -, hrest⟩
      obtain rfl := Option.some.inj heq
      rwa [hdecoded] at hrest
    · intro hrest
      rw [← hdecoded] at hrest
      exact ⟨text clauses', rfl, length_text_eq hperm, hrest⟩
  rw [hunmoved, hshuffled]
  cases permuteLiterals with
  | true =>
      simp only [if_true, Bool.true_eq_false, false_implies, and_true]
      rw [forall₂_perm_iff, forall₂_perm_iff, forall₂_perm_iff.mp hperm]
  | false =>
      obtain rfl := hsame rfl
      simp only [Bool.false_eq_true, if_false, List.forall₂_eq_eq_eq, true_implies, and_iff_right_iff_imp]
      intro heq
      rw [← heq]
      exact List.forall₂_same.mpr fun c _ => List.Perm.refl c

def lastSource : RandomSource Unit where
  draw _ n := (n - 1, ())
  draw_lt := fun _ _ hn => Nat.sub_lt hn Nat.one_pos

/-- Two clauses with the same literals change places: a shuffled formula only if literals may be permuted. -/
theorem shuffled_iff_last : drawnOrder lastSource true () 2 = [1, 0] ∧
    Shuffled lastSource true true () (text [[1, -2], [-2, 1]]) ∧
    ¬Shuffled lastSource true false () (text [[1, -2], [-2, 1]]) := by
  have hpermuted : Shuffled lastSource true true () (text [[1, -2], [-2, 1]]) ↔
      Unmoved true [[1, -2], [-2, 1]] [1, 0] := shuffled_iff lastSource true true () (by decide)
  have hplain : Shuffled lastSource true false () (text [[1, -2], [-2, 1]]) ↔
      Unmoved false [[1, -2], [-2, 1]] [1, 0] := shuffled_iff lastSource true false () (by decide)
  refine ⟨by decide, hpermuted.mpr ?_, fun hshuffled => ?_⟩
  · exact .cons (List.Perm.swap _ _ _) (.cons (List.Perm.swap _ _ _) .nil)
  · obtain ⟨heq, -⟩ := List.forall₂_cons.mp (hplain.mp hshuffled)
    revert heq
    decide

/-- The two clauses should change places. -/
theorem not_shuffled : doShuffle lastSource (text [[1], [2]]) true true () = some (text [[1], [2]]) ∧
    shuffledClauses lastSource true () (text [[1], [2]]) = [[2], [1]] ∧
    ¬Shuffled lastSource true true () (text [[1], [2]]) := by
  have hout : doShuffle lastSource (text [[1], [2]]) true true () = some (text [[1], [2]]) := by decide
  have hclauses : shuffledClauses lastSource true () (text [[1], [2]]) = [[2], [1]] := by decide
  refine ⟨hout, hclauses, ?_⟩
  rintro ⟨out, heq, -, hperm, -⟩
  rw [hout] at heq
  obtain rfl := Option.some.inj heq
  rw [hclauses, forall₂_perm_iff] at hperm
  revert hperm
  decide

end ClauseShuffler

end Mallob
