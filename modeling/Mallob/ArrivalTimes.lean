import Mallob.MessageQueue
import Mallob.OrderedSet

namespace Mallob.Client

open MessageQueue

def earlier (a b : ℚ) : Bool := a < b

theorem earlier_iff {a b : ℚ} : earlier a b = true ↔ a < b := decide_eq_true_iff

instance comparator_earlier : Comparator earlier := .of_key id fun _ _ => earlier_iff

/-- The conversion of a float to a long: the smallest long stands for a value out of range. -/
def longOfFloat (x : ℚ) : Int :=
  let n := if 0 ≤ x then ⌊x⌋ else ⌈x⌉
  if -2 ^ 63 ≤ n ∧ n < 2 ^ 63 then n else -2 ^ 63

def millis (time : ℚ) : Int := longOfFloat (binary32 (1000 * time))

structure Arrivals where
  arrivalTimes : OrderedSet earlier := OrderedSet.empty
  nextArrivalTimeMillis : Int := -1

inductive Fault
  | beforeFirst
  | endless
deriving DecidableEq

namespace Arrivals

def handleNewJob (s : Arrivals) (arrival : ℚ) : Arrivals :=
  { arrivalTimes := s.arrivalTimes.insert arrival
    nextArrivalTimeMillis :=
      match (s.arrivalTimes.insert arrival).toList.head? with
      | some first => millis first
      | none => s.nextArrivalTimeMillis }

def nextArrival (s : Arrivals) : ℚ := binary32 (binary32 (1 / 1000) * binary32 s.nextArrivalTimeMillis)

def Triggers (s : Arrivals) (time : ℚ) : Prop := 0 ≤ s.nextArrival ∧ s.nextArrival ≤ time

instance decidableTriggers (s : Arrivals) (time : ℚ) : Decidable (s.Triggers time) :=
  inferInstanceAs (Decidable (_ ∧ _))

/-- The set without the element at a position. The iterator is left at the element behind it. -/
def eraseAt (times : OrderedSet earlier) (it : Nat) : OrderedSet earlier :=
  ⟨times.toList.eraseIdx it, times.sorted.sublist (List.eraseIdx_sublist _ _)⟩

@[simp] theorem toList_eraseAt_zero (times : OrderedSet earlier) : (eraseAt times 0).toList = times.toList.tail :=
  List.eraseIdx_zero ..

def loop (time : ℚ) : Nat → OrderedSet earlier → Nat → Int → Bool → Except Fault (Arrivals × Bool)
  | 0, _, _, _, _ => .error .endless
  | fuel + 1, times, it, next, notify =>
      match times.toList[it]? with
      | none => .ok (⟨times, next⟩, notify)
      | some arr =>
          if arr > time then .ok (⟨times, millis arr⟩, notify)
          else
            let times := eraseAt times it
            if it = times.toList.length then .ok (⟨times, next⟩, true)
            else
              match it with
              | 0 => .error .beforeFirst
              | it + 1 => loop time fuel times (it + 1) next true

def advance (s : Arrivals) (time : ℚ) : Except Fault (Arrivals × Bool) :=
  if s.Triggers time then loop time (s.arrivalTimes.toList.length + 1) s.arrivalTimes 0 (-1) false
  else .ok (s, false)

def Processed (s : Arrivals) (time : ℚ) (s' : Arrivals) (notify : Bool) : Prop :=
  (∀ a, a ∈ s'.arrivalTimes.toList ↔ a ∈ s.arrivalTimes.toList ∧ time < a) ∧
    s'.nextArrivalTimeMillis = (s'.arrivalTimes.next none).elim (-1) millis ∧
    (notify = true ↔ ∃ a ∈ s.arrivalTimes.toList, a ∉ s'.arrivalTimes.toList)

theorem loop_begin (time : ℚ) (fuel : Nat) (times : OrderedSet earlier) :
    loop time (fuel + 1) times 0 (-1) false =
      match times.toList with
      | [] => .ok (⟨times, -1⟩, false)
      | arr :: rest =>
          if time < arr then .ok (⟨times, millis arr⟩, false)
          else if rest = [] then .ok (⟨eraseAt times 0, -1⟩, true)
          else .error .beforeFirst := by
  rw [loop]
  cases htimes : times.toList with
  | nil => rfl
  | cons arr rest =>
      have hrest : (eraseAt times 0).toList = rest := by rw [toList_eraseAt_zero, htimes, List.tail_cons]
      simp only [List.getElem?_cons_zero, gt_iff_lt, hrest]
      cases rest with
      | nil => rfl
      | cons arr' rest => rfl

theorem le_head {times : OrderedSet earlier} {arr a : ℚ} {rest : List ℚ} (htimes : times.toList = arr :: rest)
    (ha : a ∈ times.toList) : arr ≤ a := by
  have hsorted := times.sorted
  rw [htimes] at hsorted ha
  rcases List.mem_cons.mp ha with rfl | ha
  · exact le_rfl
  · exact (earlier_iff.mp ((List.pairwise_cons.mp hsorted).1 a ha)).le

theorem processed_later {s : Arrivals} {time arr : ℚ} {rest : List ℚ} (htimes : s.arrivalTimes.toList = arr :: rest)
    (hlater : time < arr) : s.Processed time ⟨s.arrivalTimes, millis arr⟩ false := by
  refine ⟨?_, ?_, ?_⟩
  · intro a
    exact ⟨fun ha => ⟨ha, hlater.trans_le (le_head htimes ha)⟩, And.left⟩
  · simp only [OrderedSet.next, htimes, List.head?_cons]
    rfl
  · simp

theorem processed_single {s : Arrivals} {time arr : ℚ} (htimes : s.arrivalTimes.toList = [arr])
    (hdue : ¬time < arr) : s.Processed time ⟨eraseAt s.arrivalTimes 0, -1⟩ true := by
  have hrest : (eraseAt s.arrivalTimes 0).toList = [] := by rw [toList_eraseAt_zero, htimes, List.tail_cons]
  refine ⟨?_, ?_, ?_⟩
  · intro a
    simp only [hrest, htimes, List.mem_singleton, List.not_mem_nil, false_iff]
    rintro ⟨rfl, hlater⟩
    exact hdue hlater
  · simp only [OrderedSet.next, hrest, List.head?_nil]
    rfl
  · simp [hrest, htimes]

/-- The due times are removed properly if and only if the first one is later or there is no second one. -/
theorem advance_processed_iff (s : Arrivals) (time : ℚ) (h : s.Triggers time) :
    (∃ s' notify, s.advance time = .ok (s', notify) ∧ s.Processed time s' notify) ↔
      s.arrivalTimes.toList.length ≤ 1 ∨ ∀ a ∈ s.arrivalTimes.toList, time < a := by
  rw [advance, if_pos h, loop_begin]
  split
  · next htimes =>
      refine iff_of_true ⟨_, _, rfl, ?_⟩ (Or.inl (by simp [htimes]))
      refine ⟨?_, ?_, ?_⟩ <;> simp [OrderedSet.next, htimes]
  · next arr rest htimes =>
      by_cases hlater : time < arr
      · rw [if_pos hlater]
        refine iff_of_true ⟨_, _, rfl, processed_later htimes hlater⟩ (Or.inr ?_)
        intro a ha
        exact hlater.trans_le (le_head htimes ha)
      · rw [if_neg hlater]
        split
        · next hrest =>
            subst hrest
            exact iff_of_true ⟨_, _, rfl, processed_single htimes hlater⟩ (Or.inl (by rw [htimes]; rfl))
        · next hrest =>
            refine iff_of_false ?_ ?_
            · rintro ⟨_, _, herror, _⟩
              cases herror
            · rintro (hlength | hall)
              · rw [htimes, List.length_cons, Nat.succ_le_succ_iff, Nat.le_zero, List.length_eq_zero_iff] at hlength
                exact hrest hlength
              · exact hlater (hall arr (by rw [htimes]; exact List.mem_cons_self))

def twoJobs : Arrivals := (handleNewJob {} 1).handleNewJob 2

theorem advance_processed_iff_one : (∃ s' notify, (handleNewJob {} 1).advance 1 = .ok (s', notify) ∧
      (handleNewJob {} 1).Processed 1 s' notify) ↔
    (handleNewJob {} 1).arrivalTimes.toList.length ≤ 1 ∨ ∀ a ∈ (handleNewJob {} 1).arrivalTimes.toList, 1 < a :=
  advance_processed_iff (handleNewJob {} 1) 1 (by decide +kernel)

theorem not_always_processed : twoJobs.Triggers 1 ∧ twoJobs.advance 1 = .error .beforeFirst ∧
    ¬∀ (s : Arrivals) (time : ℚ), s.Triggers time →
      ∃ s' notify, s.advance time = .ok (s', notify) ∧ s.Processed time s' notify := by
  have htriggers : twoJobs.Triggers 1 := by decide +kernel
  have hfault : twoJobs.advance 1 = .error .beforeFirst := by
    rw [advance, if_pos htriggers]
    rfl
  refine ⟨htriggers, hfault, ?_⟩
  intro hall
  obtain ⟨s', notify, hok, -⟩ := hall twoJobs 1 htriggers
  rw [hfault] at hok
  cases hok

end Arrivals

end Mallob.Client
