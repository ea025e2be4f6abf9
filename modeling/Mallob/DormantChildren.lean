import Mallob.Runs

namespace Mallob

open Runs

/-- The dormant children of a job tree. The cursor is a position in the list, its length stands for the end. -/
structure DormantChildren where
  useDormantChildren : Bool
  ranks : List Nat := []
  cursor : Nat := 0

namespace DormantChildren

inductive Fault
  | endDereferenced
  | beforeFirst
  | endless
deriving DecidableEq

/-- None stands for -1. -/
def getRankOfNextDormantChild (s : DormantChildren) : Except Fault (Option Nat × DormantChildren) :=
  if s.ranks = [] then .ok (none, s)
  else
    match s.ranks[s.cursor]? with
    | none => .error .endDereferenced
    | some rank => .ok (some rank, { s with cursor := if s.cursor + 1 = s.ranks.length then 0 else s.cursor + 1 })

def eraseLoop (rank : Nat) : Nat → List Nat → Nat → Except Fault (List Nat)
  | 0, _, _ => .error .endless
  | fuel + 1, ranks, it =>
      match ranks[it]? with
      | none => .ok ranks
      | some r =>
          if r = rank then
            if it = 0 then .error .beforeFirst else eraseLoop rank fuel (ranks.eraseIdx it) it
          else eraseLoop rank fuel ranks (it + 1)

def removeDormantChild (s : DormantChildren) (rank : Nat) : Except Fault DormantChildren :=
  if s.ranks = [] then .ok s
  else
    match s.ranks[s.cursor]? with
    | none => .error .endDereferenced
    | some currentRank =>
        (eraseLoop rank (s.ranks.length + 1) s.ranks 0).map fun ranks =>
          { s with ranks := ranks, cursor := if currentRank ∈ ranks then ranks.idxOf currentRank else 0 }

/-- The cursor stays at its element, behind the new one. -/
def insertAtCursor (s : DormantChildren) (rank : Nat) : DormantChildren :=
  { s with ranks := s.ranks.insertIdx s.cursor rank, cursor := s.cursor + 1 }

def addDormantChild (s : DormantChildren) (rank : Nat) : Except Fault DormantChildren :=
  if s.useDormantChildren then (s.removeDormantChild rank).map (insertAtCursor · rank) else .ok s

inductive Call
  | addDormantChild (rank : Nat)
  | removeDormantChild (rank : Nat)
  | getRankOfNextDormantChild

def perform (s : DormantChildren) : Call → Except Fault (Option Nat × DormantChildren)
  | .addDormantChild rank => (s.addDormantChild rank).map fun s' => (none, s')
  | .removeDormantChild rank => (s.removeDormantChild rank).map fun s' => (none, s')
  | .getRankOfNextDormantChild => s.getRankOfNextDormantChild

def step (s : DormantChildren) (call : Call) : Except Fault DormantChildren := (s.perform call).map Prod.snd

structure Sound (s : DormantChildren) : Prop where
  nodup : s.ranks.Nodup
  cursor_le : s.cursor ≤ s.ranks.length
  cursor_lt : s.ranks ≠ [] → s.cursor < s.ranks.length

/-- The call reads and moves the cursor only where there is an element, leaves it at one and returns a rank of the
list, if there is one. -/
def Safe (s : DormantChildren) (call : Call) : Prop :=
  ∃ result s', s.perform call = .ok (result, s') ∧ s'.Sound ∧
    (call = .getRankOfNextDormantChild → (∀ rank, result = some rank → rank ∈ s.ranks) ∧ (result = none ↔ s.ranks = []))

variable {s : DormantChildren} {rank first : Nat} {rest : List Nat}

theorem eraseLoop_behind {fuel : Nat} (back : List Nat) (front : List Nat) (hfront : front ≠ [])
    (hfuel : back.length < fuel) :
    eraseLoop rank fuel (front ++ back) front.length = .ok (front ++ back.filter (· ≠ rank)) := by
  induction back generalizing fuel front with
  | nil =>
      obtain ⟨fuel, rfl⟩ : ∃ f, fuel = f + 1 := ⟨fuel - 1, by omega⟩
      rw [eraseLoop, List.append_nil, List.getElem?_eq_none le_rfl, List.filter_nil, List.append_nil]
  | cons r back ih =>
      obtain ⟨fuel, rfl⟩ : ∃ f, fuel = f + 1 := ⟨fuel - 1, by omega⟩
      have hfuel' : back.length < fuel := Nat.lt_of_succ_lt_succ hfuel
      have hget : (front ++ r :: back)[front.length]? = some r := by simp
      rw [eraseLoop, hget]
      by_cases hr : r = rank
      · have herase : (front ++ r :: back).eraseIdx front.length = front ++ back := by
          rw [List.eraseIdx_append_of_length_le le_rfl, Nat.sub_self, List.eraseIdx_zero, List.tail_cons]
        simp only [if_pos hr, List.length_eq_zero_iff, if_neg hfront, herase]
        rw [ih front hfront hfuel', List.filter_cons_of_neg (by simpa using hr)]
      · have hrest := ih (front ++ [r]) (by simp) hfuel'
        rw [List.length_append, List.length_singleton, List.append_assoc, List.singleton_append,
          List.append_assoc, List.singleton_append] at hrest
        simp only [if_neg hr]
        rw [hrest, List.filter_cons_of_pos (by simpa using hr)]

/-- The loop leaves the list through its front if the first element is erased. -/
theorem eraseLoop_cons : eraseLoop rank ((first :: rest).length + 1) (first :: rest) 0 =
    if first = rank then .error .beforeFirst else .ok (first :: rest.filter (· ≠ rank)) := by
  rw [eraseLoop, List.getElem?_cons_zero]
  simp only [if_true]
  split
  · rfl
  · exact eraseLoop_behind rest [first] (by simp) (by simp)

theorem Sound.getElem?_cursor (h : s.Sound) (hne : s.ranks ≠ []) : ∃ r, s.ranks[s.cursor]? = some r :=
  ⟨_, List.getElem?_eq_getElem (h.cursor_lt hne)⟩

theorem Sound.safe_next (h : s.Sound) : s.Safe .getRankOfNextDormantChild := by
  by_cases hempty : s.ranks = []
  · refine ⟨none, s, ?_, h, fun _ => ⟨fun _ hrank => absurd hrank (by simp), iff_of_true rfl hempty⟩⟩
    simp only [perform, getRankOfNextDormantChild, hempty, if_true]
  · obtain ⟨r, hr⟩ := h.getElem?_cursor hempty
    have hlt := h.cursor_lt hempty
    refine ⟨some r, { s with cursor := if s.cursor + 1 = s.ranks.length then 0 else s.cursor + 1 }, ?_,
      ⟨h.nodup, ?_, fun _ => ?_⟩, fun _ => ⟨?_, iff_of_false (by simp) hempty⟩⟩
    · simp only [perform, getRankOfNextDormantChild, if_neg hempty, hr]
    · simp only
      split <;> omega
    · simp only
      split <;> omega
    · intro rank hrank
      obtain rfl := Option.some.inj hrank
      exact List.mem_of_getElem? hr

/-- A rank is removed properly from the empty list and from behind the first element. -/
theorem Sound.removeDormantChild (h : s.Sound) :
    (s.ranks.head? = some rank ∧ s.removeDormantChild rank = .error .beforeFirst) ∨
    s.ranks.head? ≠ some rank ∧ ∃ s', s.removeDormantChild rank = .ok s' ∧ s'.Sound ∧
      s'.ranks = s.ranks.filter (· ≠ rank) ∧ (s'.ranks = [] → s.ranks = []) := by
  cases hranks : s.ranks with
  | nil =>
      refine Or.inr ⟨by simp, s, ?_, h, hranks, fun _ => rfl⟩
      rw [DormantChildren.removeDormantChild, if_pos hranks]
  | cons first rest =>
      have hne : s.ranks ≠ [] := by simp [hranks]
      obtain ⟨currentRank, hcurrent⟩ := h.getElem?_cursor hne
      rw [DormantChildren.removeDormantChild, if_neg hne, hcurrent, hranks]
      simp only [eraseLoop_cons]
      by_cases hfirst : first = rank
      · rw [if_pos hfirst]
        exact Or.inl ⟨by rw [hfirst]; rfl, rfl⟩
      · rw [if_neg hfirst]
        have hcursor : (if currentRank ∈ first :: rest.filter (· ≠ rank) then
            (first :: rest.filter (· ≠ rank)).idxOf currentRank else 0) < (first :: rest.filter (· ≠ rank)).length := by
          split
          · next hmem => exact List.idxOf_lt_length_of_mem hmem
          · exact Nat.succ_pos _
        refine Or.inr ⟨fun heq => hfirst (Option.some.inj heq), _, rfl, ⟨?_, hcursor.le, fun _ => hcursor⟩, ?_, ?_⟩
        · have hnodup := h.nodup
          rw [hranks] at hnodup
          exact hnodup.sublist (List.filter_sublist.cons_cons first)
        · rw [List.filter_cons_of_pos (by simpa using hfirst)]
        · intro hempty
          cases hempty

theorem Sound.safe_remove_iff (h : s.Sound) : s.Safe (.removeDormantChild rank) ↔ s.ranks.head? ≠ some rank := by
  rcases @Sound.removeDormantChild s rank h with ⟨hfirst, herror⟩ | ⟨hfirst, s', hok, hsound, -, -⟩
  · refine iff_of_false (fun ⟨_, _, hok, _⟩ => ?_) (fun hne => hne hfirst)
    rw [perform, herror] at hok
    cases hok
  · refine iff_of_true ⟨none, s', ?_, hsound, fun hcall => by cases hcall⟩ hfirst
    rw [perform, hok]
    rfl

/-- The cursor refers to an element after an insertion if and only if it did so before. -/
theorem Sound.insertAtCursor_iff (h : s.Sound) (hrank : rank ∉ s.ranks) :
    (s.insertAtCursor rank).Sound ↔ s.ranks ≠ [] := by
  have hlength : (s.ranks.insertIdx s.cursor rank).length = s.ranks.length + 1 :=
    List.length_insertIdx_of_le_length h.cursor_le rank
  constructor
  · intro hsound hempty
    have hcursor := hsound.cursor_lt (List.ne_nil_of_length_eq_add_one hlength)
    rw [insertAtCursor, hlength, hempty] at hcursor
    exact absurd hcursor (by simp)
  · intro hne
    have hlt := h.cursor_lt hne
    refine ⟨?_, ?_, fun _ => ?_⟩
    · rw [insertAtCursor, (List.perm_insertIdx rank s.ranks hlt.le).nodup_iff]
      exact List.nodup_cons.mpr ⟨hrank, h.nodup⟩
    · rw [insertAtCursor, hlength]
      exact Nat.succ_le_succ h.cursor_le
    · rw [insertAtCursor, hlength]
      exact Nat.succ_lt_succ hlt

/-- An addition is safe if and only if there are other children and the rank is not the first of them. -/
theorem Sound.safe_add_iff (h : s.Sound) (huse : s.useDormantChildren = true) :
    s.Safe (.addDormantChild rank) ↔ s.ranks ≠ [] ∧ s.ranks.head? ≠ some rank := by
  rw [Safe, perform, addDormantChild, if_pos huse]
  rcases @Sound.removeDormantChild s rank h with ⟨hfirst, herror⟩ | ⟨hfirst, s', hok, hsound, hranks, hempty⟩
  · rw [herror]
    refine iff_of_false (fun ⟨_, _, hok, _⟩ => ?_) (fun hne => hne.2 hfirst)
    cases hok
  · rw [hok]
    have hrank : rank ∉ s'.ranks := by simp [hranks]
    have hkept : s'.ranks = [] ↔ s.ranks = [] := ⟨hempty, fun hnil => by rw [hranks, hnil]; rfl⟩
    rw [and_iff_left hfirst, Ne, ← hkept, ← Ne, ← hsound.insertAtCursor_iff hrank]
    constructor
    · rintro ⟨result, s'', hperform, hs'', -⟩
      obtain ⟨-, rfl⟩ := Prod.mk.inj (Except.ok.inj hperform)
      exact hs''
    · intro hs''
      exact ⟨none, _, rfl, hs'', fun hcall => by cases hcall⟩

def start : DormantChildren where
  useDormantChildren := true

theorem sound_start : start.Sound := ⟨List.nodup_nil, le_rfl, fun hne => absurd rfl hne⟩

/-- Only the first child can be added to an empty list, and the cursor then misses it. -/
theorem safe_start_iff (call : Call) : start.Safe call ↔ ∀ rank, call ≠ .addDormantChild rank := by
  cases call with
  | addDormantChild rank =>
      rw [sound_start.safe_add_iff rfl]
      exact iff_of_false (fun h => h.1 rfl) (fun h => h rank rfl)
  | removeDormantChild rank =>
      rw [sound_start.safe_remove_iff]
      exact iff_of_true (by simp [start]) (fun rank h => by cases h)
  | getRankOfNextDormantChild => exact iff_of_true sound_start.safe_next (fun rank h => by cases h)

theorem step_start {call : Call} (h : ∀ rank, call ≠ .addDormantChild rank) : step start call = .ok start := by
  cases call with
  | addDormantChild rank => exact absurd rfl (h rank)
  | removeDormantChild rank => rfl
  | getRankOfNextDormantChild => rfl

/-- All calls are safe if and only if no child is ever added. -/
theorem safe_throughout_iff (calls : List Call) :
    Throughout step Safe start calls ↔ ∀ rank, .addDormantChild rank ∉ calls := by
  induction calls with
  | nil => exact iff_of_true trivial fun rank => List.not_mem_nil
  | cons call calls ih =>
      constructor
      · rintro ⟨hsafe, hrest⟩ rank hmem
        have hcall := (safe_start_iff call).mp hsafe
        rcases List.mem_cons.mp hmem with heq | hmem
        · exact hcall rank heq.symm
        · exact ih.mp (hrest start (step_start hcall)) rank hmem
      · intro hnone
        have hcall : ∀ rank, call ≠ .addDormantChild rank := by
          rintro rank rfl
          exact hnone rank List.mem_cons_self
        refine ⟨(safe_start_iff call).mpr hcall, fun s' hok => ?_⟩
        obtain rfl := Except.ok.inj ((step_start hcall).symm.trans hok)
        exact ih.mpr fun rank hmem => hnone rank (List.mem_cons_of_mem call hmem)

/-- The first child that is added is not found by the cursor. -/
theorem cursor_lost : ¬Throughout step Safe start [.addDormantChild 5] ∧
    run step start [.addDormantChild 5, .getRankOfNextDormantChild] = .error .endDereferenced := by
  refine ⟨fun h => ?_, rfl⟩
  exact (safe_start_iff _).mp h.1 5 rfl

end DormantChildren

end Mallob
