import Mallob.OfferedChunks
import Mallob.BinFilling
import Mallob.Runs

namespace Mallob.Sharing

open BinFilling (fill fillAll packedItems)
open ClauseSlot (Proper held stored)

variable {κ : Type} {n k : Nat} {r r' : Ringbuf} {b b' : RingBuffer} {ints ints' : List Int} {slot : ClauseSlot}
  {conditional : Conditional κ} {cs : List (Clause × Nat)} {s s' : BulkState κ} {cells : List Chunk}

def Ringbuf.offsets (r : Ringbuf) : Ringbuf := { r with data := [] }

def Ringbuf.room (n : Nat) : Nat → Ringbuf → Nat
  | 0, _ => 0
  | fuel + 1, r =>
      match r.produce (List.replicate n 0) with
      | none => 0
      | some r' => room n fuel r' + 1

/-- A ring buffer holds no more ranges than it has space for integers. -/
def RingBuffer.room (n : Nat) (b : RingBuffer) : Nat := b.ringbuf.room n b.ringbuf.space

theorem Ringbuf.offsets_produce (h : r.offsets = r'.offsets) (hlen : ints.length = ints'.length) :
    (r.produce ints).map Ringbuf.offsets = (r'.produce ints').map Ringbuf.offsets := by
  obtain ⟨hspace, hnext, hwritten, hfin⟩ : r.space = r'.space ∧ r.next = r'.next ∧ r.written = r'.written ∧
      r.fin = r'.fin := by
    simpa [Ringbuf.offsets] using h
  simp only [Ringbuf.produce, hspace, hnext, hwritten, hfin, hlen]
  split
  · rfl
  · split
    · rw [apply_ite (Option.map Ringbuf.offsets), apply_ite (Option.map Ringbuf.offsets)]
      rfl
    · rfl

theorem Ringbuf.room_congr {fuel : Nat} (h : r.offsets = r'.offsets) : r.room n fuel = r'.room n fuel := by
  induction fuel generalizing r r' with
  | zero => rfl
  | succ fuel ih =>
      have hproduce := offsets_produce h (rfl : (List.replicate n (0 : Int)).length = _)
      rw [room, room]
      cases hr : r.produce (List.replicate n 0) with
      | none =>
          rw [hr, Option.map_none, eq_comm, Option.map_eq_none_iff] at hproduce
          rw [hproduce]
      | some r₁ =>
          rw [hr, Option.map_some, eq_comm, Option.map_eq_some_iff] at hproduce
          obtain ⟨r₂, hr₂, hsame⟩ := hproduce
          rw [hr₂]
          exact congrArg (· + 1) (ih hsame.symm)

theorem Ringbuf.Aligned.length_le (h : r.Aligned n) : r.data.length ≤ r.space := by
  rcases h with ⟨hle, hlt, -, hdata, -⟩ | ⟨hlt, hspace, hpos, hw, hdata, -, -⟩
  · omega
  · have hend : r.fin.getD r.space ≤ r.space := by
      cases hf : r.fin with
      | none => exact le_rfl
      | some e => exact (hpos e hf).2.le
    omega

/-- There is room for one range less behind a range that has been accepted. -/
theorem Ringbuf.room_of_produce {fuel : Nat} (hr : r.produce ints = some r') (hlen : ints.length = n) :
    r.room n (fuel + 1) = r'.room n fuel + 1 := by
  have hproduce := @offsets_produce r r ints (List.replicate n 0) rfl (by rw [hlen, List.length_replicate])
  rw [hr, Option.map_some, eq_comm, Option.map_eq_some_iff] at hproduce
  obtain ⟨r₁, hr₁, hsame⟩ := hproduce
  rw [room, hr₁]
  exact congrArg (· + 1) (room_congr hsame)

theorem Ringbuf.room_of_refused {fuel : Nat} (hr : r.produce ints = none) (hlen : ints.length = n) :
    r.room n fuel = 0 := by
  cases fuel with
  | zero => rfl
  | succ fuel =>
      have hproduce := @offsets_produce r r ints (List.replicate n 0) rfl (by rw [hlen, List.length_replicate])
      rw [hr, Option.map_none, eq_comm, Option.map_eq_none_iff] at hproduce
      rw [room, hproduce]

theorem Ringbuf.Aligned.room_succ (h : r.Aligned n) (hn : 0 < n) {fuel : Nat}
    (hfuel : r.space ≤ r.data.length + fuel) : r.room n (fuel + 1) = r.room n fuel := by
  induction fuel generalizing r with
  | zero =>
      cases hr : r.produce (List.replicate n 0) with
      | none => exact room_of_refused hr (List.length_replicate ..)
      | some r' =>
          obtain ⟨haligned, hdata, hspace⟩ := h.produce hn (List.length_replicate ..) hr
          have hle := haligned.length_le
          rw [hdata, hspace, List.length_append, List.length_replicate] at hle
          omega
  | succ fuel ih =>
      cases hr : r.produce (List.replicate n 0) with
      | none => rw [room_of_refused hr (List.length_replicate ..), room_of_refused hr (List.length_replicate ..)]
      | some r' =>
          obtain ⟨haligned, hdata, hspace⟩ := h.produce hn (List.length_replicate ..) hr
          rw [room_of_produce hr (List.length_replicate ..), room_of_produce hr (List.length_replicate ..),
            ih haligned]
          rw [hdata, hspace, List.length_append, List.length_replicate]
          omega

theorem RingBuffer.Sound.room_of_produce (h : b.Sound n) (hn : 0 < n) {data : List Int} {prefixOrZero : Int}
    (hlen : (if prefixOrZero ≠ 0 then prefixOrZero :: data else data).length = n)
    (hb : b.produce data prefixOrZero = some b') : b.room n = b'.room n + 1 := by
  rw [RingBuffer.produce, Option.map_eq_some_iff] at hb
  obtain ⟨r, hr, rfl⟩ := hb
  obtain ⟨-, -, hspace⟩ := h.aligned.produce hn hlen hr
  have hstable := h.aligned.room_succ hn (Nat.le_add_left _ _)
  rw [RingBuffer.room, RingBuffer.room, hspace, ← hstable]
  exact Ringbuf.room_of_produce hr hlen

theorem RingBuffer.room_of_refused {data : List Int} {prefixOrZero : Int}
    (hlen : (if prefixOrZero ≠ 0 then prefixOrZero :: data else data).length = n)
    (hb : b.produce data prefixOrZero = none) : b.room n = 0 := by
  rw [RingBuffer.produce, Option.map_eq_none_iff] at hb
  exact Ringbuf.room_of_refused hb hlen

def Chunk.room (n : Nat) (chunk : Chunk) : Nat :=
  match chunk.data with
  | none => 0
  | some b => b.room n

def BulkEvent.pos : BulkEvent → Nat
  | .evaluated pos _ => pos
  | .inserted pos => pos
  | .deferred pos => pos
  | .discarded pos => pos

namespace ClauseSlot

def asks (conditional : Conditional κ) (filter : κ) (x : Clause × Nat) : Bool × κ := conditional filter x.1

def bulkEvent : BinFilling.Event (Clause × Nat) → BulkEvent
  | .asked x verdict => .evaluated x.2 verdict
  | .packed x => .inserted x.2

def packedEntries (slot : ClauseSlot) (es : List (BinFilling.Event (Clause × Nat))) : List (List Int) :=
  (packedItems es).map fun x => slot.entryOf x.1

@[simp] theorem packedEntries_append (slot : ClauseSlot) (es es' : List (BinFilling.Event (Clause × Nat))) :
    slot.packedEntries (es ++ es') = slot.packedEntries es ++ slot.packedEntries es' := by
  rw [packedEntries, BinFilling.packedItems_append, List.map_append]
  rfl

structure Dealt (slot : ClauseSlot) (cs : List (Clause × Nat)) (s : BulkState κ)
    (o : BinFilling.Outcome (Clause × Nat) κ) (s' : BulkState κ) : Prop where
  events_eq : s'.events = s.events ++ o.events.map bulkEvent
  filter_eq : s'.filter = o.filter
  cPtr_eq : s'.cPtr = o.left ++ slot.behind cs

theorem fillChunk_fill {o : BinFilling.Outcome (Clause × Nat) κ} (hcs : ∀ x ∈ cs, Proper x) (hn : 0 < slot.entrySize)
    (hb : b.Sound slot.entrySize)
    (ho : fill (asks conditional) (b.room slot.entrySize) s.filter (slot.groupOf cs) = o) :
    ∃ b' s', slot.fillChunk conditional cs b k s = .ok (o.left.isEmpty && !(slot.behind cs).isEmpty, b',
        k + (packedItems o.events).length, s') ∧ b'.Sound slot.entrySize ∧
      b'.elements slot.entrySize = b.elements slot.entrySize ++ slot.packedEntries o.events ∧ slot.Dealt cs s o s' := by
  induction cs generalizing k b s o with
  | nil =>
      obtain rfl := ho
      exact ⟨b, _, rfl, hb, (List.append_nil _).symm, (List.append_nil _).symm, rfl, rfl⟩
  | cons x cs ih =>
      obtain ⟨c, pos⟩ := x
      obtain ⟨hlbd, hlits⟩ := hcs (c, pos) (List.mem_cons_self ..)
      have hrest := fun x hx => hcs x (List.mem_cons_of_mem _ hx)
      by_cases hc : slot.isClauseCompatible c = true
      · have hentry := length_entryOf slot (size_of_compatible hc) hlbd
        rw [groupOf_cons hc, fill, asks] at ho
        rw [behind_cons hc]
        cases hask : conditional s.filter c with
        | mk verdict filter =>
            rw [hask] at ho
            cases verdict with
            | false =>
                obtain ⟨b', s', hok, hsound, helems, hdealt⟩ :=
                  @ih k b (s.asked pos false filter).countFiltered _ hrest hb rfl
                obtain rfl := ho
                refine ⟨b', s', (fillChunk_filtered hlits hc hask).trans hok, hsound, helems, ?_, hdealt.filter_eq, ?_⟩
                · rw [hdealt.events_eq]
                  simp [BulkState.countFiltered, BulkState.asked, BinFilling.Outcome.after, bulkEvent]
                · rw [hdealt.cPtr_eq, behind_cons hc]
                  rfl
            | true =>
                cases hp : b.produce c.lits (if slot.uniformLbdValues then 0 else c.lbd) with
                | none =>
                    rw [RingBuffer.room_of_refused hentry hp] at ho
                    obtain rfl := ho
                    refine ⟨b, _, fillChunk_refused hlits hc hask hp, hb, (List.append_nil _).symm, rfl, rfl, ?_⟩
                    rw [behind_cons hc, List.cons_append, groupOf_append_behind]
                | some b₁ =>
                    obtain ⟨hsound₁, helems₁⟩ := hb.produce hn hentry hp
                    obtain ⟨b', s', hok, hsound, helems, hdealt⟩ :=
                      @ih (k + 1) b₁ ((s.asked pos true filter).insertedAt pos) _ hrest hsound₁ rfl
                    rw [hb.room_of_produce hn hentry hp] at ho
                    obtain rfl := ho
                    refine ⟨b', s', ?_, hsound, ?_, ?_, hdealt.filter_eq, ?_⟩
                    · rw [fillChunk_inserted hlits hc hask hp, hok, Nat.add_assoc, Nat.add_comm 1]
                      rfl
                    · rw [helems, helems₁, List.append_assoc]
                      rfl
                    · rw [hdealt.events_eq]
                      simp [BulkState.insertedAt, BulkState.asked, BinFilling.Outcome.after, bulkEvent]
                    · rw [hdealt.cPtr_eq, behind_cons hc]
                      rfl
      · rw [groupOf_incompatible hc] at ho
        obtain rfl := ho
        refine ⟨b, { s with cPtr := (c, pos) :: cs }, ?_, hb, (List.append_nil _).symm, (List.append_nil _).symm, rfl,
          ?_⟩
        · rw [fillChunk_incompatible hlits hc, behind_incompatible hc]
          rfl
        · rw [behind_incompatible hc]
          rfl

theorem bulkInserter_fill {chunk : Chunk} {o : BinFilling.Outcome (Clause × Nat) κ} (hs : ∀ x ∈ s.cPtr, Proper x)
    (hn : 0 < slot.entrySize) (hlive : chunk.Live slot.entrySize)
    (ho : fill (asks conditional) (chunk.room slot.entrySize) s.filter (slot.groupOf s.cPtr) = o) :
    ∃ chunk' s', slot.bulkInserter conditional { chunk with state := .valid 1 } s =
        .ok (o.left.isEmpty && !(slot.behind s.cPtr).isEmpty, chunk', s') ∧
      chunk'.leave.elements slot.entrySize = chunk.elements slot.entrySize ++ slot.packedEntries o.events ∧
      chunk'.leave.data.isSome = chunk.data.isSome ∧ slot.Dealt s.cPtr s o s' := by
  obtain ⟨-, -, b, hb, hsound, -⟩ := hlive
  rw [Chunk.room, hb] at ho
  obtain ⟨b', s', hok, -, helems, hdealt⟩ := @fillChunk_fill κ 0 b slot conditional s.cPtr s o hs hn hsound ho
  refine ⟨{ chunk with state := .valid 1, data := some b', numElems := chunk.numElems + (packedItems o.events).length },
    { s' with
      stats.receivedClausesInserted := s'.stats.receivedClausesInserted + (packedItems o.events).length },
    ?_, ?_, ?_, hdealt.events_eq, hdealt.filter_eq, hdealt.cPtr_eq⟩
  · simp only [bulkInserter, hb, hok, Nat.zero_add]
    rfl
  · rw [Chunk.leave_of_valid_one rfl, Chunk.elements, Chunk.elements, hb]
    exact helems
  · rw [Chunk.leave_of_valid_one rfl, hb]
    rfl

section Dealt

variable {o o' : BinFilling.Outcome (Clause × Nat) κ} (h : slot.Dealt cs s o s') (hleft : o.left ⊆ slot.groupOf cs)

include h hleft

theorem Dealt.groupOf_eq : slot.groupOf s'.cPtr = o.left := by
  have hall : ∀ x ∈ o.left, slot.isClauseCompatible x.1 := fun x hx => slot.compatible_groupOf cs x (hleft hx)
  rw [h.cPtr_eq, groupOf_append hall, groupOf_behind, List.append_nil]

theorem Dealt.behind_eq : slot.behind s'.cPtr = slot.behind cs := by
  have hall : ∀ x ∈ o.left, slot.isClauseCompatible x.1 := fun x hx => slot.compatible_groupOf cs x (hleft hx)
  rw [h.cPtr_eq, behind_append hall, behind_behind]

theorem Dealt.cPtr_subset : s'.cPtr ⊆ cs := by
  rw [h.cPtr_eq, ← slot.groupOf_append_behind cs, slot.groupOf_append_behind]
  intro x hx
  rw [← slot.groupOf_append_behind cs]
  rcases List.mem_append.mp hx with hx | hx
  · exact List.mem_append_left _ (hleft hx)
  · exact List.mem_append_right _ hx

theorem Dealt.append {s'' : BulkState κ} (h' : slot.Dealt s'.cPtr s' o' s'') :
    slot.Dealt cs s (o'.after o.events) s'' := by
  refine ⟨?_, h'.filter_eq, ?_⟩
  · rw [h'.events_eq, h.events_eq, List.append_assoc, ← List.map_append]
    rfl
  · rw [h'.cPtr_eq, h.behind_eq hleft]
    rfl

end Dealt

theorem visit_fillAll {o : BinFilling.Outcome (Clause × Nat) κ} (hs : ∀ x ∈ s.cPtr, Proper x) (hn : 0 < slot.entrySize)
    (hcells : ∀ c ∈ cells, c.Cell slot.entrySize)
    (ho : fillAll (asks conditional) ((slot.opens cells).map (Chunk.room slot.entrySize)) s.filter
      (slot.groupOf s.cPtr) = o) :
    ∃ cells' s', slot.visit (slot.bulkInserter conditional) cells s =
        .ok (!(slot.opens cells).isEmpty && o.left.isEmpty && !(slot.behind s.cPtr).isEmpty, cells', s') ∧
      stored slot.entrySize cells' = stored slot.entrySize cells + ↑(slot.packedEntries o.events) ∧
      held cells' = held cells ∧ slot.Dealt s.cPtr s o s' := by
  induction cells generalizing s o with
  | nil =>
      obtain rfl := ho
      exact ⟨[], s, rfl, (add_zero _).symm, rfl, (List.append_nil _).symm, rfl,
        (slot.groupOf_append_behind s.cPtr).symm⟩
  | cons chunk cells ih =>
      have hrest := fun c hc => hcells c (List.mem_cons_of_mem _ hc)
      by_cases hclosed : slot.isFull chunk = true ∨ chunk.state = .invalid
      · rw [opens_cons_closed hclosed] at ho ⊢
        obtain ⟨cells', s', hok, hstored, hheld, hdealt⟩ := ih hs hrest ho
        refine ⟨chunk :: cells', s', by rw [visit, if_pos hclosed, hok]; rfl, ?_, by simp [hheld], hdealt⟩
        rw [stored_cons, stored_cons, hstored, add_assoc]
      · have hlive : chunk.Live slot.entrySize := by
          rcases hcells chunk (List.mem_cons_self ..) with hlive | hdead
          · exact hlive
          · exact absurd (Or.inr hdead.state_eq) hclosed
        obtain ⟨chunk', s₁, hins, helems, hdata, hdealt⟩ :=
          @bulkInserter_fill κ slot conditional s chunk _ hs hn hlive rfl
        have hfirst := BinFilling.fill_spec (asks conditional) (chunk.room slot.entrySize) s.filter
          (slot.groupOf s.cPtr)
        have hleft := hfirst.left_subset
        rw [opens_cons_open hclosed, List.map_cons, BinFilling.fillAll_cons] at ho
        rw [visit, if_neg hclosed, opens_cons_open hclosed, hins]
        generalize fill (asks conditional) (chunk.room slot.entrySize) s.filter (slot.groupOf s.cPtr) = first at *
        cases hfinished : first.left.isEmpty && !(slot.behind s.cPtr).isEmpty with
        | true =>
            have hnil : first.left = [] := by simpa using (Bool.and_eq_true_iff.mp hfinished).1
            rw [hnil, BinFilling.fillAll_nil, BinFilling.Outcome.after, List.append_nil, ← hnil] at ho
            obtain rfl := ho
            refine ⟨chunk'.leave :: cells, s₁, by simp [hfinished], ?_, by simp [hdata], hdealt⟩
            rw [stored_cons, stored_cons, helems, ← Multiset.coe_add, add_right_comm]
        | false =>
            have hproper : ∀ x ∈ s₁.cPtr, Proper x := fun x hx => hs x (hdealt.cPtr_subset hleft hx)
            rw [← hdealt.groupOf_eq hleft, ← hdealt.filter_eq] at ho
            obtain ⟨cells', s', hok, hstored, hheld, hdealt'⟩ := @ih s₁ _ hproper hrest rfl
            have happend := hdealt.append hleft hdealt'
            have hflag : (!(slot.opens cells).isEmpty && o.left.isEmpty && !(slot.behind s.cPtr).isEmpty) =
                (o.left.isEmpty && !(slot.behind s.cPtr).isEmpty) := by
              cases hopens : slot.opens cells with
              | nil =>
                  rw [hopens, hdealt.groupOf_eq hleft] at ho
                  obtain rfl := ho
                  exact hfinished.symm
              | cons chunk chunks => rfl
            rw [hdealt.behind_eq hleft] at hok
            generalize fillAll (asks conditional) _ s₁.filter (slot.groupOf s₁.cPtr) = rest at *
            obtain rfl := ho
            refine ⟨chunk'.leave :: cells', s', ?_, ?_, by simp [hheld, hdata], happend⟩
            · simp only [hok]
              exact congrArg (fun finished => Except.ok (finished, chunk'.leave :: cells', s')) hflag
            · rw [stored_cons, stored_cons, helems, hstored, BinFilling.Outcome.after, packedEntries_append,
                ← Multiset.coe_add, ← Multiset.coe_add]
              abel

/-- Of the clauses that have not been inserted, none is inserted any more. -/
theorem treatRest_events {result : SlotResult} (h : slot.treatRest conditional result cs s = .ok s') :
    ∃ es, s'.events = s.events ++ es ∧ ∀ e ∈ es, (∃ x ∈ slot.groupOf cs, e.pos = x.2) ∧ ∀ pos, e ≠ .inserted pos := by
  induction cs generalizing s with
  | nil =>
      obtain rfl := Except.ok.inj h
      exact ⟨[], (List.append_nil _).symm, by simp⟩
  | cons x cs ih =>
      obtain ⟨c, pos⟩ := x
      rw [treatRest] at h
      by_cases hc : slot.isClauseCompatible c = true
      · have hstep : ∀ (t : BulkState κ) (es : List BulkEvent), t.events = s.events ++ es →
            (∀ e ∈ es, e.pos = pos ∧ ∀ pos, e ≠ .inserted pos) → slot.treatRest conditional result cs t = .ok s' →
            ∃ es, s'.events = s.events ++ es ∧ ∀ e ∈ es,
              (∃ x ∈ slot.groupOf ((c, pos) :: cs), e.pos = x.2) ∧ ∀ pos, e ≠ .inserted pos := by
          intro t es ht hes hrest
          obtain ⟨es', hes', hall⟩ := ih hrest
          refine ⟨es ++ es', by rw [hes', ht, List.append_assoc], fun e he => ?_⟩
          rw [groupOf_cons hc]
          rcases List.mem_append.mp he with he | he
          · exact ⟨⟨(c, pos), List.mem_cons_self .., (hes e he).1⟩, (hes e he).2⟩
          · obtain ⟨⟨x, hx, hpos⟩, hnot⟩ := hall e he
            exact ⟨⟨x, List.mem_cons_of_mem _ hx, hpos⟩, hnot⟩
        have hasked : ∃ (verdict : Bool) (t : BulkState κ) (es : List BulkEvent),
            (if s.isClauseAdmitted then (true, s) else s.evaluate conditional c pos) = (verdict, t) ∧
              t.events = s.events ++ es ∧ ∀ e ∈ es, e.pos = pos ∧ ∀ pos, e ≠ .inserted pos := by
          split
          · exact ⟨true, s, [], rfl, (List.append_nil _).symm, by simp⟩
          · exact ⟨_, _, [.evaluated pos (conditional s.filter c).1], rfl, rfl, by simp [BulkEvent.pos]⟩
        obtain ⟨verdict, t, es, heq, ht, hes⟩ := hasked
        rw [if_neg (not_not.mpr hc), heq] at h
        have hkept : ∀ e₀ ∈ [BulkEvent.deferred pos, .discarded pos], ∀ e ∈ es ++ [e₀],
            e.pos = pos ∧ ∀ pos, e ≠ .inserted pos := by
          intro e₀ he₀ e he
          rcases List.mem_append.mp he with he | he
          · exact hes e he
          · obtain rfl := List.mem_singleton.mp he
            obtain rfl | rfl : e = .deferred pos ∨ e = .discarded pos := by simpa using he₀
            · simp [BulkEvent.pos]
            · simp [BulkEvent.pos]
        cases verdict with
        | false =>
            split at h
            · cases h
            · exact hstep { t.countFiltered with isClauseAdmitted := false } es ht hes h
        | true =>
            split at h
            · cases h
            · simp only [if_true] at h
              split at h
              · split at h
                · cases h
                · exact hstep { t.defer c pos with isClauseAdmitted := false } (es ++ [.deferred pos])
                    (by simp [BulkState.defer, ht]) (hkept (.deferred pos) (by simp)) h
              · exact hstep { t.discard pos with isClauseAdmitted := false } (es ++ [.discarded pos])
                  (by simp [BulkState.discard, ht]) (hkept (.discarded pos) (by simp)) h
      · rw [if_pos hc] at h
        obtain rfl := Except.ok.inj h
        exact ⟨[], (List.append_nil _).symm, by simp⟩

def filling (slot : ClauseSlot) (conditional : Conditional κ) (s : BulkState κ) : BinFilling.Outcome (Clause × Nat) κ :=
  fillAll (asks conditional) ((slot.opens slot.inner).map (Chunk.room slot.entrySize)) s.filter (slot.groupOf s.cPtr)

theorem filling_spec (slot : ClauseSlot) (conditional : Conditional κ) (s : BulkState κ) :
    BinFilling.FillsAll ((slot.opens slot.inner).map (Chunk.room slot.entrySize)) (slot.groupOf s.cPtr)
      (slot.filling conditional s) :=
  BinFilling.fillAll_spec ..

def Finishes (slot : ClauseSlot) (conditional : Conditional κ) (s : BulkState κ) : Prop :=
  slot.opens slot.inner ≠ [] ∧ (slot.filling conditional s).left = [] ∧ slot.behind s.cPtr ≠ []

end ClauseSlot

namespace AdaptiveClauseDatabase

variable {db : AdaptiveClauseDatabase} {i : Nat} {r : Insertion (BulkState κ)}

/-- What an insertion of many clauses does to its slot: either its chunks suffice or no other chunk can be had, or
one more chunk is obtained. -/
inductive Restocked (db : AdaptiveClauseDatabase) (i : Nat) (slot : ClauseSlot) (conditional : Conditional κ)
    (s : BulkState κ) : Insertion (BulkState κ) → Prop
  | kept {result : SlotResult} {slot' : ClauseSlot} {s' : BulkState κ} :
      slot.Finishes conditional s ∨ db.Exhausted i → slot'.kind = slot.kind →
      held slot'.inner = held slot.inner →
      stored slot.entrySize slot'.inner =
        stored slot.entrySize slot.inner + ↑(slot.packedEntries (slot.filling conditional s).events) →
      slot.Dealt s.cPtr s (slot.filling conditional s) s' →
      Restocked db i slot conditional s ⟨result, db.setSlot i slot', s', none⟩
  | grown {result : SlotResult} {slot₁ slot' : ClauseSlot} {s' : BulkState κ} {db₁ : AdaptiveClauseDatabase}
      {stolen : Option (Nat × Chunk)} {o : BinFilling.Outcome (Clause × Nat) κ} :
      ¬slot.Finishes conditional s → ¬db.Exhausted i → slot₁.Sound → slot₁.kind = slot.kind →
      held slot₁.inner = held slot.inner →
      stored slot.entrySize slot₁.inner =
        stored slot.entrySize slot.inner + ↑(slot.packedEntries (slot.filling conditional s).events) →
      (db.setSlot i slot₁).Obtained i db₁ stolen → slot'.kind = slot.kind →
      held slot'.inner = held slot.inner + 1 →
      stored slot.entrySize slot'.inner = stored slot.entrySize slot₁.inner + ↑(slot.packedEntries o.events) →
      (∀ e ∈ o.events, e.item ∈ slot.groupOf s.cPtr) → o.left ⊆ slot.groupOf s.cPtr →
      slot.Dealt s.cPtr s (o.after (slot.filling conditional s).events) s' →
      Restocked db i slot conditional s ⟨result, db₁.setSlot i slot', s', stolen⟩

theorem Inserted.restocked (hsound : slot.Sound) (hs : ∀ x ∈ s.cPtr, Proper x)
    (h : Inserted db i slot (slot.bulkInserter conditional) s r) : db.Restocked i slot conditional s r := by
  have hn := ClauseSlot.entrySize_pos hsound
  have hleft := (slot.filling_spec conditional s).left_subset
  obtain ⟨cells, s₁, hok, hstored, hheld, hdealt⟩ :=
    @ClauseSlot.visit_fillAll κ slot conditional s slot.inner (slot.filling conditional s) hs hn hsound.cell rfl
  have hfinishes : (!(slot.opens slot.inner).isEmpty && (slot.filling conditional s).left.isEmpty &&
      !(slot.behind s.cPtr).isEmpty) = true ↔ slot.Finishes conditional s := by
    simp [ClauseSlot.Finishes, and_assoc]
  cases h with
  | first hv hkind hperm =>
      rw [hok] at hv
      obtain ⟨hfinished, rfl, rfl⟩ := Prod.mk.inj (Except.ok.inj hv) |>.imp_right Prod.mk.inj
      exact .kept (Or.inl (hfinishes.mp hfinished)) hkind ((ClauseSlot.held_perm hperm).trans hheld)
        ((ClauseSlot.stored_perm hperm).trans hstored) hdealt
  | exhausted hv hkind hperm hex =>
      rw [hok] at hv
      obtain ⟨-, rfl, rfl⟩ := Prod.mk.inj (Except.ok.inj hv) |>.imp_right Prod.mk.inj
      exact .kept (Or.inr hex) hkind ((ClauseSlot.held_perm hperm).trans hheld)
        ((ClauseSlot.stored_perm hperm).trans hstored) hdealt
  | @second cells₁ cells₂ finished s₂ s₃ slot₁ slot₂ slot₃ db₁ stolen hv hsound₁ hkind₁ hperm₁ hobt hmore hext hv₂
      hkind₃ hperm₃ =>
      rw [hok] at hv
      obtain ⟨hfinished, rfl, rfl⟩ := Prod.mk.inj (Except.ok.inj hv) |>.imp_right Prod.mk.inj
      have hkind₂ : slot₂.kind = slot.kind := hext.kind_eq.trans hkind₁
      have hcells₂ := hext.sound.cell
      rw [entrySize_eq_of_kind hkind₂] at hcells₂
      have hproper : ∀ x ∈ s₁.cPtr, Proper x := fun x hx => hs x (hdealt.cPtr_subset hleft hx)
      obtain ⟨cells', s', hok₂, hstored₂, hheld₂, hdealt₂⟩ :=
        @ClauseSlot.visit_fillAll κ slot conditional s₁ slot₂.inner _ hproper hn hcells₂ rfl
      rw [ClauseSlot.visit_congr hkind₂, hok₂] at hv₂
      obtain ⟨-, rfl, rfl⟩ := Prod.mk.inj (Except.ok.inj hv₂) |>.imp_right Prod.mk.inj
      have hspec₂ := BinFilling.fillAll_spec (ClauseSlot.asks conditional)
        ((slot.opens slot₂.inner).map (Chunk.room slot.entrySize)) s₁.filter (slot.groupOf s₁.cPtr)
      rw [hdealt.groupOf_eq hleft] at hspec₂ hstored₂ hdealt₂
      have hheld₃ : held slot₃.inner = held slot.inner + 1 := by
        rw [ClauseSlot.held_perm hperm₃, hheld₂, hext.held_eq, ClauseSlot.held_perm hperm₁, hheld]
      have hentry₁ := entrySize_eq_of_kind hkind₁
      refine .grown (fun hfin => ?_) hmore hsound₁ hkind₁ ((ClauseSlot.held_perm hperm₁).trans hheld)
        ((ClauseSlot.stored_perm hperm₁).trans hstored) hobt hkind₃ hheld₃ ?_ (fun e he => hleft (hspec₂.item_mem e he))
        (List.Subset.trans hspec₂.left_subset hleft) (hdealt.append hleft hdealt₂)
      · rw [hfinishes.mpr hfin] at hfinished
        cases hfinished
      · rw [ClauseSlot.stored_perm hperm₃, hstored₂, ← hentry₁, hext.stored_eq]

section Restocked

variable (h : db.Restocked i slot conditional s r)

include h

theorem Restocked.groupOf_subset : slot.groupOf r.state.cPtr ⊆ slot.groupOf s.cPtr := by
  cases h with
  | kept _ _ _ _ hdealt =>
      have hleft := (slot.filling_spec conditional s).left_subset
      rw [hdealt.groupOf_eq hleft]
      exact hleft
  | grown _ _ _ _ _ _ _ _ _ _ _ hleft hdealt =>
      rw [hdealt.groupOf_eq hleft]
      exact hleft

theorem Restocked.events_eq : ∃ es : List (BinFilling.Event (Clause × Nat)),
    r.state.events = s.events ++ es.map ClauseSlot.bulkEvent ∧ ∀ e ∈ es, e.item ∈ slot.groupOf s.cPtr := by
  have hspec := slot.filling_spec conditional s
  cases h with
  | kept _ _ _ _ hdealt => exact ⟨_, hdealt.events_eq, hspec.item_mem⟩
  | grown _ _ _ _ _ _ _ _ _ _ hitems _ hdealt =>
      refine ⟨_, hdealt.events_eq, fun e he => ?_⟩
      rcases List.mem_append.mp he with he | he
      · exact hspec.item_mem e he
      · exact hitems e he

theorem Restocked.filling_mem {e : BinFilling.Event (Clause × Nat)} (he : e ∈ (slot.filling conditional s).events) :
    ClauseSlot.bulkEvent e ∈ r.state.events := by
  cases h with
  | kept _ _ _ _ hdealt =>
      rw [hdealt.events_eq]
      exact List.mem_append_right _ (List.mem_map_of_mem he)
  | grown _ _ _ _ _ _ _ _ _ _ _ _ hdealt =>
      rw [hdealt.events_eq]
      exact List.mem_append_right _ (List.mem_map_of_mem (List.mem_append_left _ he))

theorem Restocked.partition_eq : r.db.maxLbdPartitionedSize = db.maxLbdPartitionedSize := by
  cases h with
  | kept _ _ _ _ _ => rfl
  | grown _ _ _ _ _ _ hobt _ _ _ _ _ _ =>
      cases hobt with
      | allocated _ _ => rfl
      | stolen _ _ _ _ _ _ _ _ => rfl

theorem Restocked.slots_eq {j : Nat} (hj : j < i) : r.db.slots[j]? = db.slots[j]? := by
  cases h with
  | kept _ _ _ _ _ => exact List.getElem?_set_ne (by omega)
  | @grown _ slot₁ _ _ db₁ _ _ _ _ _ _ _ _ hobt _ _ _ _ _ _ =>
      have hdb₁ : db₁.slots[j]? = (db.setSlot i slot₁).slots[j]? := by
        cases hobt with
        | allocated _ _ => rfl
        | stolen hright _ _ _ _ _ _ _ => exact List.getElem?_set_ne (by omega)
      have hset : ∀ (d : AdaptiveClauseDatabase) (slot' : ClauseSlot), (d.setSlot i slot').slots[j]? = d.slots[j]? :=
        fun d slot' => List.getElem?_set_ne (by omega)
      exact (hset _ _).trans (hdb₁.trans (hset _ _))

end Restocked

theorem pos_bulkEvent (e : BinFilling.Event (Clause × Nat)) : (ClauseSlot.bulkEvent e).pos = e.item.2 := by
  cases e with
  | asked x verdict => rfl
  | packed x => rfl

structure BulkRestocked (db : AdaptiveClauseDatabase) (i : Nat) (slot : ClauseSlot) (conditional : Conditional κ)
    (s : BulkState κ) (r : Insertion (BulkState κ)) (s' : BulkState κ) (es : List BulkEvent) : Prop where
  inserted : db.insert i slot (slot.bulkInserter conditional) { s with isClauseAdmitted := false } = .ok r
  sound : r.db.Sound
  restocked : db.Restocked i slot conditional { s with isClauseAdmitted := false } r
  events_eq : s'.events = r.state.events ++ es
  rest : ∀ e ∈ es, (∃ x ∈ slot.groupOf r.state.cPtr, e.pos = x.2) ∧ ∀ pos, e ≠ .inserted pos

theorem BulkRestocked.events_mem {es : List BulkEvent} {e : BulkEvent}
    (h : db.BulkRestocked i slot conditional s r s' es) (he : e ∈ s'.events) :
    e ∈ s.events ∨ ∃ x ∈ slot.groupOf s.cPtr, e.pos = x.2 := by
  obtain ⟨es', hev, hitems⟩ := h.restocked.events_eq
  rw [h.events_eq, hev] at he
  rcases List.mem_append.mp he with he | he
  · rcases List.mem_append.mp he with he | he
    · exact Or.inl he
    · obtain ⟨e', he', rfl⟩ := List.mem_map.mp he
      exact Or.inr ⟨e'.item, hitems e' he', pos_bulkEvent e'⟩
  · obtain ⟨⟨x, hx, hpos⟩, -⟩ := h.rest e he
    exact Or.inr ⟨x, h.restocked.groupOf_subset hx, hpos⟩

theorem Sound.insertBulk_restocked (h : db.Sound) (hslot : db.slots[i]? = some slot) (hs : ∀ x ∈ s.cPtr, Proper x)
    {db' : AdaptiveClauseDatabase} (hok : db.insertBulk i slot conditional s = .ok (db', s')) :
    ∃ r es, db' = r.db ∧ db.BulkRestocked i slot conditional s r s' es := by
  have hsound := (h.slots i slot hslot).sound
  obtain ⟨r, hr, hdb, hins⟩ :=
    @Sound.insert_bulkInserter κ slot conditional { s with isClauseAdmitted := false } db i h hslot hs
  obtain ⟨r₁, hr₁, hrest⟩ := Runs.exists_of_bind_eq_ok hok
  obtain rfl := Except.ok.inj (hr.symm.trans hr₁)
  obtain ⟨s₁, htreat, heq⟩ := Runs.exists_of_bind_eq_ok hrest
  obtain ⟨rfl, rfl⟩ := Prod.mk.inj (Except.ok.inj heq)
  obtain ⟨es, hev, hall⟩ := ClauseSlot.treatRest_events htreat
  exact ⟨r, es, rfl, hr, hdb, hins.restocked hsound hs, hev, hall⟩

end AdaptiveClauseDatabase

end Mallob.Sharing
