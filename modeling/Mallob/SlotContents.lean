import Mallob.ClauseSlot

namespace Mallob.Sharing

variable {σ : Type} {n : Nat} {slot slot' : ClauseSlot} {chunk chunk' front back : Chunk}
  {cells cells' seen rest : List Chunk} {inserter : ClauseSlot.Inserter σ} {s s' : σ}

namespace Chunk

def elements (n : Nat) (chunk : Chunk) : List (List Int) :=
  match chunk.data with
  | none => []
  | some b => b.elements n

/-- A valid chunk between two operations: its counter is right. -/
structure Live (n : Nat) (chunk : Chunk) : Prop where
  state_eq : chunk.state = .valid 0
  unused : chunk.unusedCounter < 5
  holds : ∃ b, chunk.data = some b ∧ b.Sound n ∧ chunk.numElems = (b.elements n).length

structure Dead (chunk : Chunk) : Prop where
  state_eq : chunk.state = .invalid
  unused : chunk.unusedCounter < 5
  data_eq : chunk.data = none
  numElems_eq : chunk.numElems = 0

def Cell (n : Nat) (chunk : Chunk) : Prop := chunk.Live n ∨ chunk.Dead

theorem Dead.elements_eq (h : chunk.Dead) : chunk.elements n = [] := by
  rw [elements, h.data_eq]

theorem Cell.numElems_eq (h : chunk.Cell n) : chunk.numElems = (chunk.elements n).length := by
  rcases h with ⟨-, -, b, hb, -, hnum⟩ | h
  · rw [elements, hb]
    exact hnum
  · rw [h.elements_eq]
    exact h.numElems_eq

theorem Cell.state_ne_sentinel (h : chunk.Cell n) : chunk.state ≠ .sentinel := by
  rcases h with h | h
  · simp [h.state_eq]
  · simp [h.state_eq]

theorem Live.enter (h : chunk.Live n) : chunk.enter = some { chunk with state := .valid 1 } := by
  rw [Chunk.enter, h.state_eq]

theorem Dead.enter (h : chunk.Dead) : chunk.enter = none := by
  rw [Chunk.enter, h.state_eq]

theorem leave_of_valid_one (h : chunk.state = .valid 1) : chunk.leave = { chunk with state := .valid 0 } := by
  rw [leave, h]

end Chunk

namespace ClauseSlot

/-- The chunks that are tried, without the exchange of valid and invalid ones. -/
def visit (slot : ClauseSlot) (inserter : Inserter σ) : List Chunk → σ → Except DatabaseFault (Bool × List Chunk × σ)
  | [], s => .ok (false, [], s)
  | chunk :: rest, s =>
      if slot.isFull chunk ∨ chunk.state = .invalid then
        (visit slot inserter rest s).map fun r => (r.1, chunk :: r.2.1, r.2.2)
      else
        match inserter { chunk with state := .valid 1 } s with
        | .error e => .error e
        | .ok (true, inserted, s') => .ok (true, inserted.leave :: rest, s')
        | .ok (false, inserted, s') =>
            (visit slot inserter rest s').map fun r => (r.1, inserted.leave :: r.2.1, r.2.2)

def Inserter.KeepsState (inserter : Inserter σ) : Prop :=
  ∀ chunk s finished chunk' s', inserter chunk s = .ok (finished, chunk', s') → chunk'.state = chunk.state

def SeenInvalid (seen : List Chunk) (first : Option Nat) : Prop :=
  ∀ k ∈ first, 1 ≤ k ∧ ∃ chunk, seen[k]? = some chunk ∧ chunk.state = .invalid

theorem set_perm {α : Type} {xs : List α} {k : Nat} {x y : α} (h : xs[k]? = some x) :
    (xs.set k y ++ [x]).Perm (xs ++ [y]) := by
  induction xs generalizing k with
  | nil => simp at h
  | cons a xs ih =>
      cases k with
      | zero =>
          obtain rfl : a = x := by simpa using h
          simp only [List.set_cons_zero, List.cons_append]
          exact (List.perm_append_singleton a (y :: xs)).trans ((List.perm_append_singleton y xs).symm.cons a)
      | succ k => exact (ih (by simpa using h)).cons a

theorem swapInvalid_spec {first : Option Nat} (hfirst : SeenInvalid (front :: seen) first)
    (hstate : chunk.state = .valid 0) :
    ∃ seen' chunk' first', swapInvalid (front :: seen) first chunk = (front :: seen', chunk', first') ∧
      (seen' ++ [chunk']).Perm (seen ++ [chunk]) ∧ SeenInvalid (front :: seen' ++ [chunk']) first' := by
  cases first with
  | none => exact ⟨seen, chunk, none, rfl, .refl _, by simp [SeenInvalid]⟩
  | some k =>
      obtain ⟨hk, invalid, hget, hinvalid⟩ := hfirst k rfl
      obtain ⟨k, rfl⟩ := Nat.exists_eq_add_of_le' hk
      refine ⟨seen.set k chunk, invalid, none, ?_, set_perm (by simpa using hget), by simp [SeenInvalid]⟩
      rw [swapInvalid, hget]
      simp only [hstate, hinvalid, and_self, if_true, List.set_cons_succ]

theorem SeenInvalid.append {first : Option Nat} (h : SeenInvalid seen first) (cs : List Chunk) :
    SeenInvalid (seen ++ cs) first := by
  intro k hk
  obtain ⟨hpos, c, hc, hinvalid⟩ := h k hk
  exact ⟨hpos, c, by rw [List.getElem?_append_left (List.getElem?_eq_some_iff.mp hc).1]; exact hc, hinvalid⟩

/-- Up to the order of the chunks, the loop does what visiting the chunks does. -/
theorem sweep_visit (hkeep : inserter.KeepsState) (busy : Bool) (s : σ) {first : Option Nat}
    (hfirst : SeenInvalid (front :: seen) first) (hcells : ∀ c ∈ cells, c.Cell n) (hback : back.state = .sentinel) :
    match slot.visit inserter cells s with
    | .error e => slot.sweep inserter (front :: seen) first busy (cells ++ [back]) s = .error e
    | .ok (finished, cells', s') =>
        ∃ ds, slot.sweep inserter (front :: seen) first busy (cells ++ [back]) s =
            .ok ⟨finished, busy, front :: ds ++ [back], s'⟩ ∧ ds.Perm (seen ++ cells') := by
  induction cells generalizing seen first s with
  | nil => exact ⟨seen, by simp [sweep, hback], by simp⟩
  | cons chunk cells ih =>
      have hcell := hcells chunk (List.mem_cons_self ..)
      have hrest := fun c hc => hcells c (List.mem_cons_of_mem _ hc)
      have hskip : ∀ first', SeenInvalid (front :: seen ++ [chunk]) first' →
          slot.sweep inserter (front :: seen) first busy (chunk :: cells ++ [back]) s =
            slot.sweep inserter (front :: (seen ++ [chunk])) first' busy (cells ++ [back]) s →
          slot.visit inserter (chunk :: cells) s =
            (slot.visit inserter cells s).map (fun r => (r.1, chunk :: r.2.1, r.2.2)) →
          match slot.visit inserter (chunk :: cells) s with
          | .error e => slot.sweep inserter (front :: seen) first busy (chunk :: cells ++ [back]) s = .error e
          | .ok (finished, cells', s') =>
              ∃ ds, slot.sweep inserter (front :: seen) first busy (chunk :: cells ++ [back]) s =
                  .ok ⟨finished, busy, front :: ds ++ [back], s'⟩ ∧ ds.Perm (seen ++ cells') := by
        intro first' hfirst' hsweep hvisit
        have := @ih (seen ++ [chunk]) s first' hfirst' hrest
        rw [hvisit, hsweep]
        cases hv : slot.visit inserter cells s with
        | error e => rw [hv] at this; exact this
        | ok r =>
            rw [hv] at this
            obtain ⟨ds, hds, hperm⟩ := this
            exact ⟨ds, hds, by simpa using hperm⟩
      have hns := hcell.state_ne_sentinel
      by_cases hfull : slot.isFull chunk = true
      · refine hskip first (hfirst.append [chunk]) ?_ ?_
        · rw [List.cons_append, sweep, if_neg hns, if_pos hfull]
          rfl
        · rw [visit, if_pos (Or.inl hfull)]
      · rcases hcell with hlive | hdead
        · have hnot : ¬(slot.isFull chunk = true ∨ chunk.state = .invalid) := by simp [hfull, hlive.state_eq]
          rw [visit, if_neg hnot, List.cons_append, sweep, if_neg hns, if_neg hfull, hlive.enter]
          simp only
          cases hins : inserter { chunk with state := .valid 1 } s with
          | error e => rfl
          | ok r =>
              obtain ⟨finished, inserted, s'⟩ := r
              have hstate : inserted.state = .valid 1 := hkeep _ _ _ _ _ hins
              have hleft : inserted.leave.state = .valid 0 := by rw [Chunk.leave_of_valid_one hstate]
              obtain ⟨seen', chunk', first', hswap, hperm, hfirst'⟩ := swapInvalid_spec hfirst hleft
              simp only [hswap]
              cases finished with
              | true =>
                  refine ⟨seen' ++ chunk' :: cells, by simp, ?_⟩
                  have := hperm.append_right cells
                  simpa using this
              | false =>
                  simp only [Bool.false_eq_true, if_false]
                  have := @ih (seen' ++ [chunk']) s' first' hfirst' hrest
                  cases hv : slot.visit inserter cells s' with
                  | error e => rw [hv] at this; exact this
                  | ok r =>
                      rw [hv] at this
                      obtain ⟨ds, hds, hds'⟩ := this
                      refine ⟨ds, hds, hds'.trans ?_⟩
                      have := hperm.append_right r.2.1
                      simpa using this
        · refine hskip (if first.isNone ∧ chunk.state = .invalid then some (front :: seen).length else first) ?_ ?_ ?_
          · by_cases hnone : first.isNone = true
            · rw [if_pos ⟨hnone, hdead.state_eq⟩]
              rintro k ⟨⟩
              exact ⟨by simp, chunk, by simp, hdead.state_eq⟩
            · rw [if_neg (fun h => hnone h.1)]
              exact hfirst.append [chunk]
          · rw [List.cons_append, sweep, if_neg hns, if_neg hfull, hdead.enter]
            simp [hdead.state_eq]
          · rw [visit, if_pos (Or.inr hdead.state_eq)]

def inner (slot : ClauseSlot) : List Chunk := (slot.chunks.drop 1).dropLast

def held (cells : List Chunk) : Nat := cells.countP fun c => c.data.isSome

def stored (n : Nat) (cells : List Chunk) : Multiset (List Int) := (cells.flatMap (Chunk.elements n) : List (List Int))

def kind (slot : ClauseSlot) : Nat × Nat × Bool × Nat :=
  (slot.clauseSize, slot.lbdValue, slot.uniformLbdValues, slot.chunkSize)

structure Sound (slot : ClauseSlot) : Prop where
  shape : ∃ front back, slot.chunks = front :: slot.inner ++ [back] ∧ front.state = .sentinel ∧ back.state = .sentinel
  cell : ∀ c ∈ slot.inner, c.Cell slot.entrySize
  count : slot.numChunks = held slot.inner
  quiet : slot.acquiringChunk = false ∧ slot.modifyingListEnd = false
  size_pos : 1 ≤ slot.clauseSize

theorem inner_eq {numChunks : Int} :
    inner { slot with chunks := front :: rest ++ [back], numChunks := numChunks } = rest := by
  simp [inner]

theorem entrySize_pos (h : slot.Sound) : 0 < slot.entrySize := by
  have := h.size_pos
  rw [entrySize]
  omega

theorem Sound.replace (h : slot.Sound) (rest : List Chunk) (numChunks : Int) (hfront : front.state = .sentinel)
    (hback : back.state = .sentinel) (hcells : ∀ c ∈ rest, c.Cell slot.entrySize) (hcount : numChunks = held rest) :
    Sound { slot with chunks := front :: rest ++ [back], numChunks := numChunks } := by
  refine ⟨⟨front, back, by rw [inner_eq], hfront, hback⟩, ?_, ?_, h.quiet, h.size_pos⟩
  · rw [inner_eq]
    exact hcells
  · rw [inner_eq]
    exact hcount

theorem stored_perm {cs ds : List Chunk} (h : cs.Perm ds) : stored n cs = stored n ds :=
  Multiset.coe_eq_coe.mpr (h.flatMap_right _)

@[simp] theorem stored_nil : stored n [] = 0 := rfl

@[simp] theorem stored_cons (c : Chunk) (cs : List Chunk) : stored n (c :: cs) = (c.elements n : Multiset _) + stored n cs := by
  simp [stored, ← Multiset.coe_add]

@[simp] theorem stored_append (cs ds : List Chunk) : stored n (cs ++ ds) = stored n cs + stored n ds := by
  simp [stored, ← Multiset.coe_add]

theorem held_perm {cs ds : List Chunk} (h : cs.Perm ds) : held cs = held ds := h.countP_eq _

@[simp] theorem held_nil : held [] = 0 := rfl

@[simp] theorem held_cons (c : Chunk) (cs : List Chunk) : held (c :: cs) = held cs + if c.data.isSome then 1 else 0 := by
  simp [held, List.countP_cons]

@[simp] theorem held_append (cs ds : List Chunk) : held (cs ++ ds) = held cs + held ds := by
  simp [held]

theorem Sound.tryChunks (h : slot.Sound) (hkeep : inserter.KeepsState) :
    match slot.visit inserter slot.inner s with
    | .error e => slot.tryChunks inserter s = .error e
    | .ok (finished, cells', s') => ∃ front back ds, front.state = .sentinel ∧ back.state = .sentinel ∧
        slot.tryChunks inserter s = .ok ⟨finished, false, front :: ds ++ [back], s'⟩ ∧ ds.Perm cells' := by
  obtain ⟨front, back, hchunks, hfront, hback⟩ := h.shape
  have hnone : SeenInvalid [front] none := by simp [SeenInvalid]
  have hsweep := @sweep_visit _ _ slot _ _ _ _ inserter hkeep false s none hnone h.cell hback
  have htry : slot.tryChunks inserter s = slot.sweep inserter [front] none false (slot.inner ++ [back]) s := by
    rw [ClauseSlot.tryChunks, hchunks]
    rfl
  rw [htry]
  cases hv : slot.visit inserter slot.inner s with
  | error e =>
      rw [hv] at hsweep
      exact hsweep
  | ok r =>
      rw [hv] at hsweep
      obtain ⟨ds, hds, hperm⟩ := hsweep
      exact ⟨front, back, ds, hfront, hback, hds, by simpa using hperm⟩

def entryOf (slot : ClauseSlot) (c : Clause) : List Int :=
  if (if slot.uniformLbdValues then 0 else c.lbd) ≠ 0 then (if slot.uniformLbdValues then 0 else c.lbd) :: c.lits
  else c.lits

theorem length_entryOf (slot : ClauseSlot) {c : Clause} (hsize : c.size = slot.clauseSize) (hlbd : c.lbd ≠ 0) :
    (slot.entryOf c).length = slot.entrySize := by
  rw [entryOf, entrySize, ← hsize]
  cases slot.uniformLbdValues with
  | true => simp [Clause.size]
  | false => simp [Clause.size, hlbd]

theorem insertOne_keepsState (slot : ClauseSlot) (c : Clause) : (slot.insertOne c).KeepsState := by
  intro chunk s finished chunk' s' h
  rw [insertOne] at h
  split at h
  · cases h
  · cases hins : slot.insertClause _ c with
    | error e => rw [hins] at h; cases h
    | ok r =>
        rw [hins] at h
        cases r with
        | none =>
            obtain ⟨-, rfl, -⟩ := by simpa [bind, Except.bind, pure, Except.pure] using h
            rfl
        | some b' =>
            obtain ⟨-, rfl⟩ := by simpa [bind, Except.bind, pure, Except.pure] using h
            rfl

def Accepts (slot : ClauseSlot) (chunk : Chunk) (c : Clause) : Prop :=
  ¬slot.isFull chunk ∧ ∃ b b', chunk.data = some b ∧ b.produce c.lits (if slot.uniformLbdValues then 0 else c.lbd) = some b'

theorem visit_insertOne {c : Clause} (hn : 0 < slot.entrySize) (hcells : ∀ d ∈ cells, d.Cell slot.entrySize)
    (hsize : c.size = slot.clauseSize) (hlbd : c.lbd ≠ 0) :
    ∃ finished cells', slot.visit (slot.insertOne c) cells () = .ok (finished, cells', ()) ∧
      (∀ d ∈ cells', d.Cell slot.entrySize) ∧ held cells' = held cells ∧
      stored slot.entrySize cells' = (if finished then {slot.entryOf c} else 0) + stored slot.entrySize cells ∧
      (finished = false → cells' = cells ∧ ∀ d ∈ cells, ¬slot.Accepts d c) := by
  induction cells with
  | nil => exact ⟨false, [], rfl, by simp, rfl, by simp, fun _ => ⟨rfl, by simp⟩⟩
  | cons chunk cells ih =>
      obtain ⟨finished, cells', hvisit, hcells', hheld, hstored, hnot⟩ :=
        ih (fun d hd => hcells d (List.mem_cons_of_mem _ hd))
      have hcell := hcells chunk (List.mem_cons_self ..)
      have hskip : ∀ d : Chunk, d = chunk → ¬slot.Accepts chunk c → slot.visit (slot.insertOne c) (chunk :: cells) () =
            (slot.visit (slot.insertOne c) cells ()).map (fun r => (r.1, d :: r.2.1, r.2.2)) →
          ∃ finished cells', slot.visit (slot.insertOne c) (chunk :: cells) () = .ok (finished, cells', ()) ∧
            (∀ d ∈ cells', d.Cell slot.entrySize) ∧ held cells' = held (chunk :: cells) ∧
            stored slot.entrySize cells' =
              (if finished then {slot.entryOf c} else 0) + stored slot.entrySize (chunk :: cells) ∧
            (finished = false → cells' = chunk :: cells ∧ ∀ d ∈ chunk :: cells, ¬slot.Accepts d c) := by
        rintro d rfl hrefuses hstep
        rw [hstep, hvisit]
        refine ⟨finished, d :: cells', rfl, ?_, ?_, ?_, ?_⟩
        · intro d' hd'
          rcases List.mem_cons.mp hd' with rfl | hd'
          · exact hcell
          · exact hcells' d' hd'
        · simp [hheld]
        · simp only [stored_cons, hstored]
          exact add_left_comm _ _ _
        · intro hf
          obtain ⟨rfl, hall⟩ := hnot hf
          exact ⟨rfl, by simpa using ⟨hrefuses, hall⟩⟩
      by_cases hfull : slot.isFull chunk = true
      · exact hskip chunk rfl (fun h => h.1 hfull) (by rw [visit, if_pos (Or.inl hfull)])
      · rcases hcell with hlive | hdead
        · obtain ⟨hstate, hunused, b, hb, hsound, hnum⟩ := hlive
          have hnot : ¬(slot.isFull chunk = true ∨ chunk.state = .invalid) := by simp [hfull, hstate]
          have hrestore : ({ chunk with state := .valid 1 } : Chunk).leave = chunk := by
            rw [Chunk.leave_of_valid_one rfl]
            simp [← hstate]
          cases hp : b.produce c.lits (if slot.uniformLbdValues then 0 else c.lbd) with
          | none =>
              refine hskip _ hrestore ?_ ?_
              · rintro ⟨-, b₁, b₂, hb₁, hb₂⟩
                rw [hb] at hb₁
                obtain rfl := Option.some.inj hb₁
                rw [hp] at hb₂
                cases hb₂
              · rw [visit, if_neg hnot, insertOne]
                simp only [hb, insertClause, hsize, ne_eq, not_true_eq_false, if_false, hp]
                rfl
          | some b' =>
              have hlen : (slot.entryOf c).length = slot.entrySize := length_entryOf slot hsize hlbd
              obtain ⟨hsound', helems⟩ := hsound.produce hn hlen hp
              refine ⟨true, { chunk with data := some b', numElems := chunk.numElems + 1 } :: cells, ?_, ?_, ?_, ?_, by simp⟩
              · rw [visit, if_neg hnot, insertOne]
                simp only [hb, insertClause, hsize, ne_eq, not_true_eq_false, if_false, hp]
                simp [bind, Except.bind, pure, Except.pure, Chunk.leave, hstate]
              · intro d hd
                rcases List.mem_cons.mp hd with rfl | hd
                · refine Or.inl ⟨hstate, hunused, b', rfl, hsound', ?_⟩
                  simp only [hnum, helems, List.length_append, List.length_singleton]
                  push_cast
                  ring
                · exact hcells d (List.mem_cons_of_mem _ hd)
              · simp [hb]
              · simp only [stored_cons, Chunk.elements, hb, helems, if_true, ← Multiset.coe_add, Multiset.coe_singleton]
                rw [entryOf, add_comm (b.elements slot.entrySize : Multiset (List Int)), add_assoc]
        · have hrefuses : ¬slot.Accepts chunk c := by
            rintro ⟨-, b, -, hb, -⟩
            rw [hdead.data_eq] at hb
            cases hb
          exact hskip chunk rfl hrefuses (by rw [visit, if_pos (Or.inr hdead.state_eq)])

end ClauseSlot

end Mallob.Sharing
