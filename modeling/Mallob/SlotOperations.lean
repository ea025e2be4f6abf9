import Mallob.SlotContents

namespace Mallob.Sharing

namespace ClauseSlot

variable {n : Nat} {slot slot' : ClauseSlot} {chunk front back : Chunk} {cells rest : List Chunk} {b b' : RingBuffer}

structure Fresh (slot : ClauseSlot) (data : Nat) (chunk : Chunk) : Prop where
  state_eq : chunk.state = .valid 0
  data_eq : chunk.data = some (slot.allocateBuffer data)
  numElems_eq : chunk.numElems = 0
  unused : chunk.unusedCounter < 5

theorem Fresh.live {data : Nat} (h : slot.Fresh data chunk) : chunk.Live slot.entrySize := by
  refine ⟨h.state_eq, h.unused, _, h.data_eq, ?_, ?_⟩
  · exact RingBuffer.sound_new _ _ _
  · rw [h.numElems_eq, allocateBuffer, RingBuffer.elements_new]
    rfl

theorem Fresh.elements_eq {data : Nat} (h : slot.Fresh data chunk) : chunk.elements n = [] := by
  rw [Chunk.elements, h.data_eq]
  exact RingBuffer.elements_new _ _ _

theorem Fresh.not_isFull {data : Nat} (h : slot.Fresh data chunk) (hs : slot.Sound)
    (hfits : slot.entrySize < slot.chunkSize) : ¬slot.isFull chunk := by
  have hcap : 0 < slot.clauseCapacityPerChunk := Nat.div_pos hfits.le (entrySize_pos hs)
  simp only [isFull, h.numElems_eq, decide_eq_true_eq]
  omega

theorem Fresh.accepts {data : Nat} {c : Clause} (h : slot.Fresh data chunk) (hs : slot.Sound)
    (hfits : slot.entrySize < slot.chunkSize) (hsize : c.size = slot.clauseSize) (hlbd : c.lbd ≠ 0) :
    slot.Accepts chunk c := by
  refine ⟨h.not_isFull hs hfits, slot.allocateBuffer data, ?_⟩
  have hlen := length_entryOf slot hsize hlbd
  obtain ⟨b', hb'⟩ := @RingBuffer.produce_new slot.chunkSize data c.lits
    (if slot.uniformLbdValues then 0 else c.lbd) (by rw [← entryOf, hlen]; exact hfits)
  exact ⟨b', h.data_eq, hb'⟩

theorem reuseCell_spec (hcells : ∀ c ∈ cells, c.Cell n) (hback : back.state = .sentinel) :
    (reuseCell b (cells ++ [back]) = none ∧ ∀ c ∈ cells, c.state ≠ .invalid) ∨
    ∃ pre post dead, cells = pre ++ dead :: post ∧ dead.Dead ∧
      reuseCell b (cells ++ [back]) =
        some (pre ++ { dead with data := some b, numElems := 0, state := .valid 0 } :: post ++ [back]) := by
  induction cells with
  | nil => exact Or.inl ⟨by simp [reuseCell, hback], by simp⟩
  | cons c cells ih =>
      have hcell := hcells c (List.mem_cons_self ..)
      have hns := hcell.state_ne_sentinel
      rw [List.cons_append, reuseCell, if_neg hns]
      rcases hcell with hlive | hdead
      · have hswitch : c.switchState .invalid .inCreation = none := by simp [Chunk.switchState, hlive.state_eq]
        rw [hswitch]
        rcases ih (fun d hd => hcells d (List.mem_cons_of_mem _ hd)) with ⟨hnone, hall⟩ | ⟨pre, post, dead, rfl, hdead, hsome⟩
        · refine Or.inl ⟨by simp [hnone], fun d hd => ?_⟩
          rcases List.mem_cons.mp hd with rfl | hd
          · simp [hlive.state_eq]
          · exact hall d hd
        · exact Or.inr ⟨c :: pre, post, dead, rfl, hdead, by rw [hsome]; rfl⟩
      · have hswitch : c.switchState .invalid .inCreation = some { c with state := .inCreation } := by
          simp [Chunk.switchState, hdead.state_eq]
        rw [hswitch]
        exact Or.inr ⟨[], cells, c, rfl, hdead, rfl⟩

theorem swapLast_append (xs : List Chunk) (s c : Chunk) : swapLast (xs ++ [s, c]) = xs ++ [c, s] := by
  induction xs with
  | nil => rfl
  | cons x xs ih =>
      cases xs with
      | nil => rfl
      | cons y ys =>
          have : swapLast (x :: (y :: ys ++ [s, c])) = x :: swapLast (y :: ys ++ [s, c]) := by
            cases ys with
            | nil => rfl
            | cons z zs => rfl
          rw [List.cons_append, this, ih]
          rfl

structure Extended (slot slot' : ClauseSlot) : Prop where
  sound : slot'.Sound
  kind_eq : slot'.kind = slot.kind
  inner_eq : ∃ data pre post fresh, slot'.inner = pre ++ fresh :: post ∧ slot.Fresh data fresh ∧
    (slot.inner = pre ∧ post = [] ∨ ∃ dead : Chunk, dead.Dead ∧ slot.inner = pre ++ dead :: post)

theorem Extended.held_eq (h : slot.Extended slot') : held slot'.inner = held slot.inner + 1 := by
  obtain ⟨data, pre, post, fresh, hinner, hfresh, ⟨hpre, rfl⟩ | ⟨dead, hdead, hpre⟩⟩ := h.inner_eq
  · rw [hinner, hpre]
    simp [hfresh.data_eq]
  · rw [hinner, hpre]
    simp only [held_append, held_cons, hfresh.data_eq, hdead.data_eq, Option.isSome_some, Option.isSome_none, if_true,
      Bool.false_eq_true, if_false]
    omega

theorem Extended.stored_eq (h : slot.Extended slot') : stored n slot'.inner = stored n slot.inner := by
  obtain ⟨data, pre, post, fresh, hinner, hfresh, ⟨hpre, rfl⟩ | ⟨dead, hdead, hpre⟩⟩ := h.inner_eq
  · rw [hinner, hpre]
    simp [hfresh.elements_eq]
  · rw [hinner, hpre]
    simp [hfresh.elements_eq, hdead.elements_eq]

/-- A new chunk gets a place in the list, the one of an invalid chunk if there is any. -/
theorem Sound.addChunk (h : slot.Sound) (data : Nat) :
    ∃ slot', slot.addChunk data = some slot' ∧ slot.Extended slot' := by
  obtain ⟨front, back, hchunks, hfront, hback⟩ := h.shape
  have hdrop : slot.chunks.drop 1 = slot.inner ++ [back] := by rw [hchunks]; rfl
  have htake : slot.chunks.take 1 = [front] := by rw [hchunks]; rfl
  rcases reuseCell_spec (b := slot.allocateBuffer data) h.cell hback with ⟨hnone, hall⟩ | ⟨pre, post, dead, hinner, hdead, hsome⟩
  · let fresh : Chunk := { data := some (slot.allocateBuffer data), state := .valid 0 }
    have hfresh : slot.Fresh data fresh := ⟨rfl, rfl, rfl, Nat.zero_lt_succ 4⟩
    have happend : swapLast (slot.chunks ++ [fresh]) = front :: (slot.inner ++ [fresh]) ++ [back] := by
      rw [hchunks]
      have := swapLast_append (front :: slot.inner) back fresh
      simpa using this
    refine ⟨_, ?_, h.replace (slot.inner ++ [fresh]) (slot.numChunks + 1) hfront hback ?_ ?_, rfl,
      data, slot.inner, [], fresh, inner_eq, hfresh, Or.inl ⟨rfl, rfl⟩⟩
    · rw [ClauseSlot.addChunk, hdrop, hnone]
      simp only [appendAndUpdateIterators, h.quiet.2, Bool.false_eq_true, if_false, ← happend]
      rfl
    · intro c hc
      rcases List.mem_append.mp hc with hc | hc
      · exact h.cell c hc
      · rw [List.mem_singleton.mp hc]
        exact Or.inl (hfresh.live)
    · simp [h.count, fresh, held]
  · let fresh : Chunk := { dead with data := some (slot.allocateBuffer data), numElems := 0, state := .valid 0 }
    have hfresh : slot.Fresh data fresh := ⟨rfl, rfl, rfl, hdead.unused⟩
    refine ⟨_, ?_, h.replace (pre ++ fresh :: post) (slot.numChunks + 1) hfront hback ?_ ?_, rfl,
      data, pre, post, fresh, inner_eq, hfresh, Or.inr ⟨dead, hdead, hinner⟩⟩
    · rw [ClauseSlot.addChunk, hdrop, hsome, htake]
      simp [fresh]
    · intro c hc
      rcases List.mem_append.mp hc with hc | hc
      · exact h.cell c (by rw [hinner]; exact List.mem_append_left _ hc)
      · rcases List.mem_cons.mp hc with rfl | hc
        · exact Or.inl (hfresh.live)
        · exact h.cell c (by rw [hinner]; exact List.mem_append_right _ (List.mem_cons_of_mem _ hc))
    · rw [h.count, hinner]
      simp only [held_append, held_cons, hdead.data_eq, fresh, Option.isSome_some, Option.isSome_none, if_true,
        Bool.false_eq_true, if_false]
      push_cast
      ring

theorem releaseLast_spec (hcells : ∀ c ∈ cells, c.Cell n) (hfront : front.state = .sentinel) (busy : Bool) :
    (held cells = 0 ∧ releaseLast (cells ++ [front]) busy = .error busy) ∨
    ∃ pre live post, cells = pre ++ live :: post ∧ live.Live n ∧ (∀ c ∈ pre, c.Dead) ∧
      releaseLast (cells ++ [front]) busy =
        .ok (live, pre ++ { live with data := none, numElems := 0, state := .invalid } :: post ++ [front]) := by
  induction cells with
  | nil => exact Or.inl ⟨rfl, by simp [releaseLast, hfront]⟩
  | cons c cells ih =>
      have hcell := hcells c (List.mem_cons_self ..)
      rw [List.cons_append, releaseLast, if_neg hcell.state_ne_sentinel]
      rcases hcell with hlive | hdead
      · have hswitch : c.switchState (.valid 0) .inDeletion = some { c with state := .inDeletion } := by
          simp [Chunk.switchState, hlive.state_eq]
        rw [hswitch]
        exact Or.inr ⟨[], c, cells, rfl, hlive, by simp, rfl⟩
      · have hswitch : c.switchState (.valid 0) .inDeletion = none := by simp [Chunk.switchState, hdead.state_eq]
        have hbusy : (busy || c.state.busy) = busy := by simp [hdead.state_eq, ChunkState.busy]
        rw [hswitch]
        simp only [hbusy]
        rcases ih (fun d hd => hcells d (List.mem_cons_of_mem _ hd)) with
          ⟨hzero, herror⟩ | ⟨pre, live, post, rfl, hlive, hpre, hok⟩
        · refine Or.inl ⟨by simp [hzero, hdead.data_eq], by rw [herror]; rfl⟩
        · exact Or.inr ⟨c :: pre, live, post, rfl, hlive, List.forall_mem_cons.mpr ⟨hdead, hpre⟩, by rw [hok]; rfl⟩

structure Released (slot : ClauseSlot) (live : Chunk) (slot' : ClauseSlot) : Prop where
  held_eq : held slot.inner = held slot'.inner + 1
  inner_eq : ∃ pre dead post, slot.inner = pre ++ live :: post ∧ slot'.inner = pre ++ dead :: post ∧
    ∀ c ∈ dead :: post, c.Dead

theorem Sound.releaseChunk (h : slot.Sound) :
    (held slot.inner = 0 ∧ slot.releaseChunk = .ok (.totalFail, none, slot)) ∨
    ∃ data slot' live, slot.releaseChunk = .ok (.success, some (data, live), slot') ∧ slot'.Sound ∧ slot'.kind = slot.kind ∧
      live ∈ slot.inner ∧ slot.Released live slot' ∧
      stored slot.entrySize slot.inner = (live.elements slot.entrySize : Multiset _) + stored slot.entrySize slot'.inner := by
  obtain ⟨front, back, hchunks, hfront, hback⟩ := h.shape
  have hrev : slot.chunks.reverse = back :: (slot.inner.reverse ++ [front]) := by rw [hchunks]; simp
  have hcells : ∀ c ∈ slot.inner.reverse, c.Cell slot.entrySize := fun c hc => h.cell c (List.mem_reverse.mp hc)
  rw [ClauseSlot.releaseChunk]
  rcases releaseLast_spec hcells hfront false with
    ⟨hzero, herror⟩ | ⟨pre, live, post, hinner, hlive, hpre, hok⟩
  · refine Or.inl ?_
    have hheld : held slot.inner = 0 := by rw [← hzero]; exact held_perm (List.reverse_perm _).symm
    exact ⟨hheld, by rw [if_pos (by rw [h.count, hheld]; rfl)]⟩
  · refine Or.inr ?_
    have hinner' : slot.inner = post.reverse ++ live :: pre.reverse := by
      rw [← List.reverse_reverse slot.inner, hinner]
      simp
    obtain ⟨hstate, hunused, b, hb, hsound, hnum⟩ := hlive
    have hheld : held slot.inner = held (post.reverse ++ pre.reverse) + 1 := by
      rw [hinner']
      simp only [held_append, held_cons, hb, Option.isSome_some, if_true]
      omega
    let dead : Chunk := { live with data := none, numElems := 0, state := .invalid }
    have hdead : dead.Dead := ⟨rfl, hunused, rfl, rfl⟩
    refine ⟨b.memory, _, live, ?_, h.replace (post.reverse ++ dead :: pre.reverse)
      (slot.numChunks - 1) hfront hback ?_ ?_, rfl, ?_, ?_, ?_⟩
    · rw [if_neg (by rw [h.count, hheld]; omega), hrev]
      simp only [List.drop_succ_cons, List.drop_zero, hok, hb]
      simp [dead]
    · intro c hc
      rcases List.mem_append.mp hc with hc | hc
      · exact h.cell c (by rw [hinner']; exact List.mem_append_left _ hc)
      · rcases List.mem_cons.mp hc with rfl | hc
        · exact Or.inr hdead
        · exact h.cell c (by rw [hinner']; exact List.mem_append_right _ (List.mem_cons_of_mem _ hc))
    · rw [h.count, hheld]
      simp only [held_append, held_cons, dead, Option.isSome_none, Bool.false_eq_true, if_false]
      push_cast
      ring
    · rw [hinner']
      simp
    · refine ⟨?_, post.reverse, dead, pre.reverse, hinner', by rw [inner_eq], ?_⟩
      · rw [inner_eq, hheld]
        simp [held_append, dead]
      · exact List.forall_mem_cons.mpr ⟨hdead, fun c hc => hpre c (List.mem_reverse.mp hc)⟩
    · rw [inner_eq, hinner']
      simp only [stored_append, stored_cons, hdead.elements_eq, Multiset.coe_nil, zero_add]
      exact add_left_comm _ _ _

theorem length_chunksOf (n : Nat) (xs : List Int) : (chunksOf n xs).length = xs.length / n := by
  simp [chunksOf]

def NonzeroLits (slot : ClauseSlot) (e : List Int) : Prop := 0 ∉ e.drop (e.length - slot.clauseSize)

/-- Clauses that are taken out of a ring buffer are written behind each other. -/
theorem takeClauses_spec (hn : 0 < slot.entrySize) {maxNumClauses : Int} {fuel received : Nat} {selection : List Int}
    (hb : b.Sound slot.entrySize) (hfuel : (b.elements slot.entrySize).length < fuel) :
    (slot.takeClauses maxNumClauses fuel b received selection = .error .zeroLiteral ∧
      ∃ e ∈ b.elements slot.entrySize, 0 ∈ e) ∨
    ∃ b' es, slot.takeClauses maxNumClauses fuel b received selection =
        .ok (b', received + es.length, selection ++ es.flatten) ∧ b'.Sound slot.entrySize ∧
      (b.elements slot.entrySize).Perm (es ++ b'.elements slot.entrySize) ∧ (∀ e ∈ es, slot.NonzeroLits e) ∧
      (0 ≤ maxNumClauses → received ≤ maxNumClauses → (received + es.length : Int) ≤ maxNumClauses) := by
  induction fuel generalizing b received selection with
  | zero => omega
  | succ fuel ih =>
      rw [takeClauses]
      split
      · next hmore =>
        obtain ⟨hsound, hcase⟩ := hb.consume hn
        cases hc : b.consume slot.entrySize with
        | mk taken b' =>
            rw [hc] at hsound hcase
            cases taken with
            | none =>
                refine Or.inr ⟨b', [], by simp, hsound, ?_, by simp, by simp⟩
                rw [hcase.1, hcase.2]
                exact .refl _
            | some e =>
                simp only at hcase ⊢
                split
                · next hzero =>
                    exact Or.inl ⟨rfl, e, hcase.symm.subset (List.mem_cons_self ..), List.mem_of_mem_drop hzero⟩
                · next hnonzero =>
                  have hless : (b'.elements slot.entrySize).length < fuel := by
                    have := hcase.length_eq
                    rw [List.length_cons] at this
                    omega
                  rcases ih hsound hless with ⟨herror, e', he', hzero⟩ | ⟨b'', es, hok, hsound', hperm, hlits, hbound⟩
                  · exact Or.inl ⟨herror, e', hcase.symm.subset (List.mem_cons_of_mem _ he'), hzero⟩
                  · refine Or.inr ⟨b'', e :: es, ?_, hsound', hcase.trans (hperm.cons e), ?_, ?_⟩
                    · rw [hok]
                      simp only [List.length_cons, List.flatten_cons, List.append_assoc, Except.ok.injEq, Prod.mk.injEq,
                        and_true, true_and]
                      omega
                    · intro e' he'
                      rcases List.mem_cons.mp he' with rfl | he'
                      · exact hnonzero
                      · exact hlits e' he'
                    · intro hmax hle
                      have := hbound hmax
                      simp only [List.length_cons]
                      push_cast at this ⊢
                      omega
      · exact Or.inr ⟨b, [], by simp, hb, .refl _, by simp, by simp⟩

/-- A visit to a chunk hands out some of its clauses. A chunk that becomes stale is empty. -/
theorem visitChunk_spec (hn : 0 < slot.entrySize) (maxNumClauses : Int) (received : Nat) (selection : List Int)
    (h : chunk.Live slot.entrySize) :
    (slot.visitChunk maxNumClauses { chunk with state := .valid 1 } received selection = .error .zeroLiteral ∧
      ∃ e ∈ chunk.elements slot.entrySize, 0 ∈ e) ∨
    ∃ chunk' es b', slot.visitChunk maxNumClauses { chunk with state := .valid 1 } received selection =
        .ok (chunk', received + es.length, selection ++ es.flatten) ∧ chunk'.state = .valid 1 ∧
      chunk'.data = some b' ∧ b'.Sound slot.entrySize ∧ chunk'.numElems = (b'.elements slot.entrySize).length ∧
      (chunk.elements slot.entrySize).Perm (es ++ b'.elements slot.entrySize) ∧
      (5 ≤ chunk'.unusedCounter → b'.elements slot.entrySize = []) ∧ (∀ e ∈ es, slot.NonzeroLits e) ∧
      (0 ≤ maxNumClauses → received ≤ maxNumClauses → (received + es.length : Int) ≤ maxNumClauses) := by
  obtain ⟨hstate, hunused, b, hb, hsound, hnum⟩ := h
  have helems : chunk.elements slot.entrySize = b.elements slot.entrySize := by rw [Chunk.elements, hb]
  rw [visitChunk]
  simp only [hb, helems]
  by_cases hempty : isEmpty chunk = true
  · have hempty' : isEmpty { chunk with state := ChunkState.valid 1 } = true := hempty
    have hnone : b.elements slot.entrySize = [] := by
      simp only [isEmpty, hnum, decide_eq_true_eq] at hempty
      exact List.length_eq_zero_iff.mp (by omega)
    rw [hb] at hempty'
    refine Or.inr ⟨⟨some b, .valid 1, chunk.unusedCounter + 1, chunk.numElems⟩, [], b, ?_, rfl, rfl, hsound, hnum,
      by simp, fun _ => hnone, by simp, by simp⟩
    rw [if_pos hempty']
    simp
  · have hempty' : ¬isEmpty { chunk with state := ChunkState.valid 1 } = true := hempty
    rw [hb] at hempty'
    rw [if_neg hempty']
    have hfuel : (b.elements slot.entrySize).length < b.consumed.length + b.ringbuf.data.length + 1 := by
      rw [RingBuffer.elements, length_chunksOf, List.length_append]
      exact Nat.lt_succ_of_le (Nat.div_le_self _ _)
    rcases takeClauses_spec hn hsound hfuel with ⟨herror, hzero⟩ | ⟨b', es, hok, hsound', hperm, hlits, hbound⟩
    · exact Or.inl ⟨by rw [herror]; rfl, hzero⟩
    · refine Or.inr ⟨_, es, b', by rw [hok]; rfl, rfl, rfl, hsound', ?_, hperm, ?_, hlits, hbound⟩
      · have := hperm.length_eq
        rw [List.length_append] at this
        simp only [hnum]
        omega
      · simp only
        split
        · omega
        · omega

structure Fetching (slot : ClauseSlot) (maxNumClauses : Int) (cells : List Chunk) (f f' : Fetched) (front : Chunk) (cells' : List Chunk)
    (es : List (List Int)) : Prop where
  chunks_eq : f'.chunks = front :: cells' ++ f.chunks
  cell : ∀ c ∈ cells', c.Cell slot.entrySize
  selection_eq : f'.selection = f.selection ++ es.flatten
  received_eq : f'.received = f.received + es.length
  nonzero : ∀ e ∈ es, slot.NonzeroLits e
  bounded : 0 ≤ maxNumClauses → f.received ≤ maxNumClauses → f'.received ≤ maxNumClauses
  stored_eq : stored slot.entrySize cells = (es : Multiset _) + stored slot.entrySize cells'
  held_eq : ∃ removed, f'.released = f.released ++ removed ∧ held cells = held cells' + removed.length ∧
    f'.numChunks = f.numChunks - removed.length

theorem Fetching.step {maxNumClauses : Int} {f f₁ f' : Fetched} {cells' : List Chunk} {chunk' : Chunk} {es fs : List (List Int)}
    (h : Fetching slot maxNumClauses cells f₁ f' front cells' fs) (hchunks : f₁.chunks = chunk' :: f.chunks) (hcell : chunk'.Cell slot.entrySize)
    (hselection : f₁.selection = f.selection ++ es.flatten) (hreceived : f₁.received = f.received + es.length)
    (hnonzero : ∀ e ∈ es, slot.NonzeroLits e)
    (hbounded : 0 ≤ maxNumClauses → f.received ≤ maxNumClauses → (f.received + es.length : Int) ≤ maxNumClauses)
    (hstored : (↑(chunk.elements slot.entrySize) : Multiset (List Int)) = ↑es + ↑(chunk'.elements slot.entrySize))
    (hheld : ∃ removed, f₁.released = f.released ++ removed ∧
      (if chunk.data.isSome then 1 else 0) = (if chunk'.data.isSome then 1 else 0) + removed.length ∧
      f₁.numChunks = f.numChunks - removed.length) :
    Fetching slot maxNumClauses (chunk :: cells) f f' front (cells' ++ [chunk']) (es ++ fs) := by
  refine ⟨?_, ?_, ?_, ?_, ?_, ?_, ?_, ?_⟩
  · rw [h.chunks_eq, hchunks]
    simp
  · intro c hc
    rcases List.mem_append.mp hc with hc | hc
    · exact h.cell c hc
    · rw [List.mem_singleton.mp hc]
      exact hcell
  · rw [h.selection_eq, hselection, List.flatten_append, List.append_assoc]
  · rw [h.received_eq, hreceived, List.length_append, Nat.add_assoc]
  · intro e he
    rcases List.mem_append.mp he with he | he
    · exact hnonzero e he
    · exact h.nonzero e he
  · intro hmax hle
    refine h.bounded hmax ?_
    rw [hreceived]
    exact_mod_cast hbounded hmax hle
  · rw [stored_cons, hstored, h.stored_eq, stored_append, stored_cons, stored_nil, ← Multiset.coe_add, add_zero]
    abel
  · obtain ⟨removed, hrel, hone, hnum⟩ := hheld
    obtain ⟨removed', hrel', hrest, hnum'⟩ := h.held_eq
    refine ⟨removed ++ removed', by rw [hrel', hrel, List.append_assoc], ?_, ?_⟩
    · simp only [held_append, held_cons, List.length_append, hrest, hone, held_nil]
      omega
    · rw [hnum', hnum, List.length_append]
      push_cast
      ring

/-- A visited chunk stays in its place, or is removed once it is stale. -/
theorem settleChunk_spec {f : Fetched} (hstate : chunk.state = .valid 1) (hdata : chunk.data = some b)
    (hsound : b.Sound n) (hnum : chunk.numElems = (b.elements n).length)
    (hstale : 5 ≤ chunk.unusedCounter → b.elements n = []) :
    ∃ chunk' removed, settleChunk chunk f = .ok { f with
        chunks := chunk' :: f.chunks, numChunks := f.numChunks - (removed : List Nat).length
        released := f.released ++ removed } ∧
      chunk'.Cell n ∧ chunk'.elements n = b.elements n ∧ (if chunk'.data.isSome then 1 else 0) + removed.length = 1 := by
  rw [settleChunk, Chunk.leave_of_valid_one hstate]
  split
  · next hfive =>
      have hnone := hstale hfive
      refine ⟨{ chunk with data := none, unusedCounter := 0, state := .invalid }, [b.memory], ?_, Or.inr ?_, ?_, rfl⟩
      · simp [removeStale, Chunk.switchState, hdata]
      · refine ⟨rfl, Nat.zero_lt_succ 4, rfl, ?_⟩
        rw [hnum, hnone]
        rfl
      · rw [hnone]
        rfl
  · next hfew =>
      refine ⟨{ chunk with state := .valid 0 }, [], by simp, Or.inl ⟨rfl, Nat.lt_of_not_le hfew, b, hdata, hsound, hnum⟩,
        ?_, ?_⟩
      · simp [Chunk.elements, hdata]
      · simp [hdata]

theorem fetchChunks_spec (hn : 0 < slot.entrySize) {maxNumClauses : Int} {f : Fetched}
    (hcells : ∀ c ∈ cells, c.Cell slot.entrySize) (hfront : front.state = .sentinel) :
    (slot.fetchChunks maxNumClauses (cells ++ [front]) f = .error .zeroLiteral ∧
      ∃ e ∈ stored slot.entrySize cells, 0 ∈ e) ∨
    ∃ f' cells' es, slot.fetchChunks maxNumClauses (cells ++ [front]) f = .ok f' ∧
      Fetching slot maxNumClauses cells f f' front cells' es := by
  induction cells generalizing f with
  | nil =>
      refine Or.inr ⟨{ f with chunks := front :: f.chunks }, [], [], by simp [fetchChunks, hfront], ?_⟩
      exact ⟨rfl, by simp, by simp, rfl, by simp, fun _ h => h, by simp, [], by simp, rfl, by simp⟩
  | cons chunk cells ih =>
      have hcell := hcells chunk (List.mem_cons_self ..)
      have hrest := fun c hc => hcells c (List.mem_cons_of_mem _ hc)
      rw [List.cons_append, fetchChunks, if_neg hcell.state_ne_sentinel]
      rcases hcell with hlive | hdead
      · rw [hlive.enter]
        simp only
        rcases visitChunk_spec hn maxNumClauses f.received f.selection hlive
          with ⟨herror, e, he, hzero⟩ | ⟨visited, es, b', hok, hstate, hdata, hsound, hnum, hperm, hstale, hlits, hbound⟩
        · refine Or.inl ⟨by rw [herror], e, ?_, hzero⟩
          rw [stored_cons]
          exact Multiset.mem_add.mpr (Or.inl he)
        · obtain ⟨chunk', removed, hsettle, hcell', helems, hone⟩ := @settleChunk_spec _ visited b'
            { f with received := f.received + es.length, selection := f.selection ++ es.flatten }
            hstate hdata hsound hnum hstale
          rw [hok]
          simp only [hsettle, Except.bind]
          rcases @ih ⟨chunk' :: f.chunks, f.numChunks - removed.length, f.received + es.length,
              f.selection ++ es.flatten, f.released ++ removed⟩ hrest with
            ⟨herror, e, he, hzero⟩ | ⟨f', cells', fs, hok', hfetch⟩
          · refine Or.inl ⟨herror, e, ?_, hzero⟩
            rw [stored_cons]
            exact Multiset.mem_add.mpr (Or.inr he)
          · refine Or.inr ⟨f', cells' ++ [chunk'], es ++ fs, hok', hfetch.step rfl hcell' rfl rfl hlits hbound ?_ ?_⟩
            · rw [helems]
              exact Multiset.coe_eq_coe.mpr hperm
            · obtain ⟨-, -, b, hb, -⟩ := hlive
              exact ⟨removed, rfl, by rw [hb]; exact hone.symm, rfl⟩
      · rw [hdead.enter]
        rcases @ih { f with chunks := chunk :: f.chunks } hrest with ⟨herror, e, he, hzero⟩ | ⟨f', cells', es, hok, hfetch⟩
        · refine Or.inl ⟨herror, e, ?_, hzero⟩
          rw [stored_cons]
          exact Multiset.mem_add.mpr (Or.inr he)
        · refine Or.inr ⟨f', cells' ++ [chunk], [] ++ es, hok, hfetch.step rfl (Or.inr hdead) (by simp) rfl (by simp) (by simp)
            (by simp) ?_⟩
          exact ⟨[], by simp, by simp, by simp⟩

/-- Clauses that are fetched from a slot are no longer stored there, and nothing else is lost. -/
theorem Sound.getClauses (h : slot.Sound) (selection : List Int) (maxNumClauses : Int) :
    (slot.getClauses selection maxNumClauses = .error .zeroLiteral ∧
      ∃ e ∈ stored slot.entrySize slot.inner, 0 ∈ e) ∨
    ∃ (es : List (List Int)) (slot' : ClauseSlot) (released : List Nat), slot.getClauses selection maxNumClauses =
        .ok (es.length, selection ++ es.flatten, slot', released) ∧ slot'.Sound ∧ slot'.kind = slot.kind ∧
      stored slot.entrySize slot.inner = (es : Multiset _) + stored slot.entrySize slot'.inner ∧
      held slot.inner = held slot'.inner + released.length ∧ (∀ e ∈ es, slot.NonzeroLits e) ∧
      (0 ≤ maxNumClauses → (es.length : Int) ≤ maxNumClauses) := by
  obtain ⟨front, back, hchunks, hfront, hback⟩ := h.shape
  have hrev : slot.chunks.reverse = back :: (slot.inner.reverse ++ [front]) := by rw [hchunks]; simp
  have hcells : ∀ c ∈ slot.inner.reverse, c.Cell slot.entrySize := fun c hc => h.cell c (List.mem_reverse.mp hc)
  have hperm : slot.inner.reverse.Perm slot.inner := List.reverse_perm _
  rw [ClauseSlot.getClauses, hrev]
  simp only [List.drop_succ_cons, List.drop_zero, List.take_succ_cons, List.take_zero]
  rcases @fetchChunks_spec slot front slot.inner.reverse (entrySize_pos h) maxNumClauses
      ⟨[back], slot.numChunks, 0, selection, []⟩ hcells hfront with
    ⟨herror, e, he, hzero⟩ | ⟨f', cells', es, hok, hf⟩
  · refine Or.inl ⟨by rw [herror]; rfl, e, ?_, hzero⟩
    rwa [stored_perm hperm] at he
  · obtain ⟨removed, hreleased, hheld, hnum⟩ := hf.held_eq
    rw [held_perm hperm] at hheld
    have hselection : f'.selection = selection ++ es.flatten := hf.selection_eq
    have hreceived : f'.received = es.length := by rw [hf.received_eq, Nat.zero_add]
    have hreleased : f'.released = removed := hreleased
    have hchunks' : f'.chunks = front :: cells' ++ [back] := hf.chunks_eq
    have hnum' : f'.numChunks = held cells' := by
      rw [hnum]
      simp only [h.count, hheld]
      push_cast
      ring
    refine Or.inr ⟨es, { slot with chunks := front :: cells' ++ [back], numChunks := f'.numChunks }, removed, ?_,
      h.replace cells' f'.numChunks hfront hback hf.cell hnum', rfl, ?_, ?_, hf.nonzero, ?_⟩
    · rw [hok]
      simp only [bind, Except.bind, pure, Except.pure, hselection, hreceived, hreleased, hchunks']
    · rw [inner_eq, ← hf.stored_eq]
      exact (stored_perm hperm).symm
    · rw [inner_eq]
      exact hheld
    · intro hmax
      rw [← hreceived]
      exact hf.bounded hmax hmax

end ClauseSlot

end Mallob.Sharing
