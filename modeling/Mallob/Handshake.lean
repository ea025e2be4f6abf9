import Mathlib

namespace Mallob.Handshake

variable {α : Type}

/-- A value that is handed over through a pair of flags, the values that wait
for the flags, and those that came out. -/
structure Slot (α : Type) where
  doFlag : Bool
  didFlag : Bool
  content : α
  deferred : List α
  taken : List α

namespace Slot

def pass (x : Slot α) (a : α) : Slot α :=
  if x.doFlag then { x with deferred := x.deferred ++ [a] } else { x with content := a, doFlag := true }

def acknowledge (x : Slot α) : Slot α := if x.didFlag then { x with doFlag := false } else x

def refill (x : Slot α) : Slot α :=
  if !x.doFlag && !x.didFlag then
    match x.deferred with
    | [] => x
    | a :: deferred => { x with content := a, doFlag := true, deferred := deferred }
  else x

def takeContent (x : Slot α) (ready : Bool) : Slot α :=
  if x.doFlag && !x.didFlag && ready then { x with taken := x.taken ++ [x.content], didFlag := true } else x

def reset (x : Slot α) : Slot α := if !x.doFlag then { x with didFlag := false } else x

def waiting (x : Slot α) : List α := if x.doFlag && !x.didFlag then [x.content] else []

def Kept (x : Slot α) (passed : List α) : Prop := passed.Perm (x.taken ++ x.waiting ++ x.deferred)

variable {x : Slot α} {passed : List α}

theorem pass_busy (h : x.doFlag = true) (a : α) : x.pass a = { x with deferred := x.deferred ++ [a] } := if_pos h

theorem pass_free (h : ¬x.doFlag = true) (a : α) : x.pass a = { x with content := a, doFlag := true } := if_neg h

theorem refill_busy (h : ¬(!x.doFlag && !x.didFlag) = true) : x.refill = x := if_neg h

theorem refill_nil (h : x.deferred = []) : x.refill = x := by
  rw [refill, h]
  exact ite_self x

theorem refill_cons (hfree : (!x.doFlag && !x.didFlag) = true) {a : α} {deferred : List α}
    (h : x.deferred = a :: deferred) : x.refill = { x with content := a, doFlag := true, deferred := deferred } := by
  rw [refill, if_pos hfree, h]

theorem Kept.pass (h : x.Kept passed) (hfree : x.doFlag = true ∨ x.didFlag = false) (a : α) :
    (x.pass a).Kept (passed ++ [a]) := by
  unfold Kept at h
  cases hdo : x.doFlag with
  | true =>
      rw [Kept, pass_busy hdo]
      simp only [waiting] at h ⊢
      rw [← List.append_assoc]
      exact h.append_right [a]
  | false =>
      have hdid : x.didFlag = false := by simpa [hdo] using hfree
      rw [Kept, pass_free (by simp [hdo])]
      simp only [waiting, hdo, hdid, Bool.false_and, Bool.false_eq_true, if_false, List.append_nil, Bool.not_false,
        Bool.and_self, if_true] at h ⊢
      refine (h.append_right [a]).trans ?_
      rw [List.append_assoc, List.append_assoc]
      exact (@List.perm_append_comm _ x.deferred [a]).append_left x.taken

theorem Kept.acknowledge (h : x.Kept passed) : x.acknowledge.Kept passed := by
  cases hdid : x.didFlag with
  | true => simpa [Kept, Slot.acknowledge, hdid, waiting] using h
  | false => simpa [Slot.acknowledge, hdid] using h

theorem Kept.refill (h : x.Kept passed) : x.refill.Kept passed := by
  by_cases hfree : (!x.doFlag && !x.didFlag) = true
  · cases hdeferred : x.deferred with
    | nil => rwa [refill_nil hdeferred]
    | cons a deferred =>
        rw [refill_cons hfree hdeferred]
        rw [Bool.and_eq_true, Bool.not_eq_true', Bool.not_eq_true'] at hfree
        simpa [Kept, waiting, hfree.1, hfree.2, hdeferred] using h
  · rwa [refill_busy hfree]

theorem Kept.takeContent (h : x.Kept passed) (ready : Bool) : (x.takeContent ready).Kept passed := by
  rw [Slot.takeContent]
  split
  · rename_i hready
    have hwaiting : x.waiting = [x.content] := by
      rw [Bool.and_eq_true] at hready
      rw [waiting, if_pos hready.1]
    rw [Kept, hwaiting] at h
    simpa [Kept, waiting] using h
  · exact h

theorem Kept.reset (h : x.Kept passed) : x.reset.Kept passed := by
  cases hdo : x.doFlag with
  | true => simpa [Slot.reset, hdo] using h
  | false => simpa [Kept, Slot.reset, hdo, waiting] using h

def round (x : Slot α) : Slot α := (x.acknowledge.refill.takeContent true).reset

def remaining (x : Slot α) : Nat :=
  2 * x.deferred.length + if x.didFlag then 1 else if x.doFlag then 2 else 0

theorem remaining_round (x : Slot α) : x.round.remaining = x.remaining - 1 := by
  obtain ⟨doFlag, didFlag, content, deferred, taken⟩ := x
  cases doFlag <;> cases didFlag <;> cases deferred <;>
    simp [round, acknowledge, refill, takeContent, reset, remaining]
  omega

theorem Kept.round (h : x.Kept passed) : x.round.Kept passed :=
  ((h.acknowledge.refill).takeContent true).reset

theorem Kept.rounds (h : x.Kept passed) (n : Nat) : (Slot.round^[n] x).Kept passed := by
  induction n with
  | zero => exact h
  | succ n ih =>
      rw [Function.iterate_succ_apply']
      exact ih.round

theorem remaining_rounds (x : Slot α) (n : Nat) : (Slot.round^[n] x).remaining = x.remaining - n := by
  induction n with
  | zero => rfl
  | succ n ih =>
      rw [Function.iterate_succ_apply', remaining_round, ih]
      omega

theorem round_idle (h : x.remaining = 0) : x.round = x := by
  obtain ⟨doFlag, didFlag, content, deferred, taken⟩ := x
  cases doFlag <;> cases didFlag <;> cases deferred <;>
    simp_all [remaining, round, acknowledge, refill, takeContent, reset]

theorem Kept.taken (h : x.Kept passed) (hremaining : x.remaining = 0) : passed.Perm x.taken := by
  obtain ⟨doFlag, didFlag, content, deferred, taken⟩ := x
  cases doFlag <;> cases didFlag <;> cases deferred <;> simp_all [remaining, Kept, waiting]

theorem Kept.delivered (h : x.Kept passed) {n : Nat} (hn : x.remaining ≤ n) :
    passed.Perm (Slot.round^[n] x).taken := by
  refine (h.rounds n).taken ?_
  rw [remaining_rounds]
  omega

end Slot

end Mallob.Handshake
