import Mallob.BufferRoundTrip
import Mallob.Runs

namespace Mallob.Sharing

open ClauseSlot (held stored)
open Runs (Reaches checked)

variable {p i n : Nat} {bs : List (List (List Int))} {b : RingBuffer}

def RingBuffer.drain (n : Nat) : Nat → RingBuffer → List (List Int)
  | 0, _ => []
  | fuel + 1, b =>
      match b.consume n with
      | (none, _) => []
      | (some e, b') => e :: b'.drain n fuel

/-- All of them, since each takes at least one integer. -/
def RingBuffer.retrievable (n : Nat) (b : RingBuffer) : List (List Int) :=
  b.drain n (b.consumed.length + b.ringbuf.data.length)

theorem RingBuffer.Sound.drain (h : b.Sound n) (hn : 0 < n) {fuel : Nat} (hfuel : (b.elements n).length ≤ fuel) :
    (b.drain n fuel).Perm (b.elements n) := by
  induction fuel generalizing b with
  | zero =>
      rw [List.length_eq_zero_iff.mp (Nat.le_zero.mp hfuel)]
      exact .refl _
  | succ fuel ih =>
      obtain ⟨hsound, hcase⟩ := h.consume hn
      rw [RingBuffer.drain]
      cases hc : b.consume n with
      | mk taken b' =>
          rw [hc] at hsound hcase
          cases taken with
          | none => rw [hcase.1]
          | some e =>
              have hlen := hcase.length_eq
              rw [List.length_cons] at hlen
              exact ((ih hsound (by omega)).cons e).trans hcase.symm

theorem RingBuffer.Sound.retrievable (h : b.Sound n) (hn : 0 < n) : (b.retrievable n).Perm (b.elements n) := by
  refine h.drain hn ?_
  rw [RingBuffer.elements, ClauseSlot.length_chunksOf, List.length_append]
  exact Nat.div_le_self _ _

def splitBuckets (p : Nat) : Nat → Nat → List Int → List (List (List Int))
  | 0, _, _ => []
  | _ + 1, _, [] => []
  | fuel + 1, i, counter :: ints =>
      chunksOf (effectiveSize p (bucketAt p i).size) (ints.take (counter.toNat * effectiveSize p (bucketAt p i).size)) ::
        splitBuckets p fuel (i + 1) (ints.drop (counter.toNat * effectiveSize p (bucketAt p i).size))

def writtenClauses (p : Nat) (buffer : List Int) : List Clause :=
  decodeBuckets p 0 (splitBuckets p buffer.length 0 (buffer.drop 2))

theorem splitBuckets_encodeBuckets {fuel : Nat} (h : Placed p i bs) (hfuel : bs.length ≤ fuel) :
    splitBuckets p fuel i (encodeBuckets bs) = bs := by
  induction bs generalizing i fuel with
  | nil =>
      cases fuel with
      | zero => rfl
      | succ fuel => rfl
  | cons es bs ih =>
      obtain ⟨fuel, rfl⟩ := Nat.exists_eq_add_of_lt hfuel
      have hlen : ∀ e ∈ es, e.length = effectiveSize p (bucketAt p i).size := fun e he => (h.1 e he).1
      have hwidth : es.length * effectiveSize p (bucketAt p i).size = es.flatten.length := by
        rw [List.length_flatten, List.map_congr_left hlen]
        simp
      rw [encodeBuckets, splitBuckets, Int.toNat_natCast, hwidth, List.take_left, List.drop_left,
        chunksOf_flatten (effectiveSize_pos (bucketAt_size_pos p i)) hlen, ih h.2 (by omega)]

theorem length_le_encodeBuckets (bs : List (List (List Int))) : bs.length ≤ (encodeBuckets bs).length := by
  induction bs with
  | nil => exact le_rfl
  | cons es bs ih =>
      simp only [encodeBuckets, List.length_cons, List.length_append]
      omega

namespace AdaptiveClauseDatabase

variable {db db' : AdaptiveClauseDatabase} {options : ExportOptions} {buffer : List Int} {c : Clause}

theorem Exported.writtenClauses_eq (h : Exported db options bs buffer n db') (hbs : ∀ es ∈ bs, ∀ e ∈ es, 0 ∉ e) :
    writtenClauses db.maxLbdPartitionedSize buffer = decodeBuckets db.maxLbdPartitionedSize 0 bs := by
  have hplaced := h.placed hbs
  obtain ⟨bs', m, rfl, hlast⟩ := exists_trimmed bs
  rw [decodeBuckets_append, decodeBuckets_replicate, List.append_nil, h.buffer_eq]
  by_cases hne : bs' = []
  · subst hne
    rw [List.nil_append, removeTrailingZeroes_empty]
    rfl
  · have hplaced' := (placed_append.mp hplaced).1
    rw [removeTrailingZeroes_encoded hplaced' hlast hne, writeChecksum_header, writtenClauses,
      List.drop_left' (by rfl), splitBuckets_encodeBuckets hplaced']
    rw [List.length_append]
    exact (length_le_encodeBuckets bs').trans (Nat.le_add_left _ _)

theorem Sound.exportBuffer_written (h : db.Sound) (hlbd : ∀ c ∈ db.contents, c.lbd ≠ 0)
    (hok : db.exportBuffer options = .ok (buffer, n, db')) : db'.Sound ∧ db.SameShape db' ∧
      db.contents = ↑(writtenClauses db.maxLbdPartitionedSize buffer) + db'.contents := by
  rcases h.exportBuffer options with ⟨herror, -⟩ | ⟨bs, buffer', n', db₁, hok', hexp, -⟩
  · rw [herror] at hok
    cases hok
  · obtain ⟨rfl, rfl, rfl⟩ := Prod.mk.inj (Except.ok.inj (hok'.symm.trans hok)) |>.imp_right Prod.mk.inj
    have hnonzero : ∀ c ∈ decodeBuckets db.maxLbdPartitionedSize 0 bs, c.lbd ≠ 0 ∧ 0 ∉ c.lits := by
      intro c hc
      refine ⟨hlbd c ?_, hexp.nonzero c hc⟩
      rw [hexp.contents_eq]
      exact Multiset.mem_add.mpr (Or.inl hc)
    refine ⟨hexp.sound, ⟨hexp.partition_eq, hexp.positions_eq, hexp.kinds_eq⟩, ?_⟩
    rw [hexp.writtenClauses_eq (zero_notMem_of_decodeBuckets hnonzero), hexp.contents_eq]

/-- A database in use, with the clauses that were reported as added, those that were exported, and
those that stood in a chunk that was stolen, each with the slot of the thief and the slot of the victim. -/
structure Usage where
  db : AdaptiveClauseDatabase
  accepted : List Clause := []
  exported : List Clause := []
  stolen : List (Nat × Nat × Clause) := []

inductive Call where
  | addClause (c : Clause)
  | exportBuffer (options : ExportOptions)

def stolenBy (p thief : Nat) : Option (Nat × Chunk) → List (Nat × Nat × Clause)
  | none => []
  | some (victim, chunk) =>
      (chunk.elements (effectiveSize p (bucketAt p victim).size)).map fun e => (thief, victim, decodeEntry p victim e)

def Usage.step (u : Usage) : Call → Except DatabaseFault Usage
  | .addClause c =>
      match u.db.getSlotIdx c.size c.lbd with
      | none => .ok u
      | some i => (u.db.insertClause i c).map fun r => { u with
          db := r.db
          accepted := if addClauseResult r.result = .success then c :: u.accepted else u.accepted
          stolen := stolenBy u.db.maxLbdPartitionedSize i r.stolen ++ u.stolen }
  | .exportBuffer options =>
      (u.db.exportBuffer options).map fun r => { u with
        db := r.2.2
        exported := writtenClauses u.db.maxLbdPartitionedSize r.1 ++ u.exported }

theorem Usage.step_addClause (u : Usage) (c : Clause) :
    (u.step (.addClause c)).map Usage.db = (u.db.addClause c).map Prod.snd := by
  rw [Usage.step, AdaptiveClauseDatabase.addClause]
  cases u.db.getSlotIdx c.size c.lbd with
  | none => rfl
  | some i =>
      cases hr : u.db.insertClause i c with
      | error e => simp [hr, Except.map]
      | ok r => simp [hr, Except.map]

def Call.Proper (_ : Usage) : Call → Prop
  | .addClause c => 1 ≤ c.lbd
  | .exportBuffer _ => True

structure Usage.Sound (start : AdaptiveClauseDatabase) (u : Usage) : Prop where
  sound : u.db.Sound
  shape : start.SameShape u.db
  lbd_pos : ∀ c ∈ u.accepted, 1 ≤ c.lbd
  balance : ((u.accepted.map (readBack start.maxLbdPartitionedSize) : List Clause) : Multiset Clause) =
    u.exported + u.db.contents + ((u.stolen.map fun t => t.2.2 : List Clause) : Multiset Clause)
  rightwards : ∀ t ∈ u.stolen, t.1 < t.2.1

variable {start : AdaptiveClauseDatabase} {u u' : Usage}

theorem stolenBy_clauses (p thief : Nat) (stolen : Option (Nat × Chunk)) :
    (((stolenBy p thief stolen).map fun t => t.2.2 : List Clause) : Multiset Clause) = stolenClauses p stolen := by
  cases stolen with
  | none => rfl
  | some r => simp [stolenBy, stolenClauses, Function.comp_def]

theorem stolenBy_rightwards {thief : Nat} {stolen : Option (Nat × Chunk)}
    (h : ∀ j chunk, stolen = some (j, chunk) → thief < j) : ∀ t ∈ stolenBy p thief stolen, t.1 < t.2.1 := by
  cases stolen with
  | none => simp [stolenBy]
  | some r =>
      intro t ht
      obtain ⟨e, -, rfl⟩ := List.mem_map.mp ht
      exact h r.1 r.2 rfl

theorem Usage.Sound.addClause (h : u.Sound start) (hroomy : start.Roomy) (hc : 1 ≤ c.lbd)
    (hstep : u.step (.addClause c) = .ok u') : u'.Sound start := by
  have hp : u.db.maxLbdPartitionedSize = start.maxLbdPartitionedSize := h.shape.partition_eq
  rw [Usage.step] at hstep
  cases hidx : u.db.getSlotIdx c.size c.lbd with
  | none =>
      rw [hidx] at hstep
      obtain rfl := Except.ok.inj hstep
      exact h
  | some i =>
      rw [hidx] at hstep
      rcases h.sound.insertClause (hroomy.of_sameShape h.shape) hc hidx with ⟨-, e, herror⟩ | ⟨r, hok, hsound, hout⟩
      · simp only [herror] at hstep
        cases hstep
      · simp only [hok] at hstep
        obtain rfl := Except.ok.inj hstep
        cases hout with
        | @success db' stolen hshape hcontents hright =>
            refine ⟨hsound, h.shape.trans hshape, ?_, ?_, ?_⟩
            · intro d hd
              rcases List.mem_cons.mp hd with rfl | hd
              · exact hc
              · exact h.lbd_pos d hd
            · have hbalance := h.balance
              simp only [addClauseResult, if_true, List.map_cons, List.map_append, ← Multiset.cons_coe,
                ← Multiset.coe_add, stolenBy_clauses, hbalance]
              rw [← hp, ← Multiset.cons_add, ← Multiset.add_cons, ← hcontents]
              abel
            · intro t ht
              rcases List.mem_append.mp ht with ht | ht
              · exact stolenBy_rightwards hright t ht
              · exact h.rightwards t ht
        | @drop db' hshape hcontents _ =>
            refine ⟨hsound, h.shape.trans hshape, h.lbd_pos, ?_, h.rightwards⟩
            rw [hcontents]
            exact h.balance

theorem Usage.Sound.exportBuffer (h : u.Sound start) (hstep : u.step (.exportBuffer options) = .ok u') :
    u'.Sound start := by
  rw [Usage.step] at hstep
  obtain ⟨⟨buffer, n, db'⟩, hok, rfl⟩ := Runs.exists_of_map_eq_ok hstep
  have hlbd : ∀ c ∈ u.db.contents, c.lbd ≠ 0 := by
    intro c hc
    have hmem : c ∈ ((u.accepted.map (readBack start.maxLbdPartitionedSize) : List Clause) : Multiset Clause) := by
      rw [h.balance]
      simp [hc]
    obtain ⟨d, hd, rfl⟩ := List.mem_map.mp (Multiset.mem_coe.mp hmem)
    exact readBack_ne (h.lbd_pos d hd)
  obtain ⟨hsound, hshape, hcontents⟩ := h.sound.exportBuffer_written hlbd hok
  refine ⟨hsound, h.shape.trans hshape, h.lbd_pos, ?_, h.rightwards⟩
  simp only [← Multiset.coe_add]
  rw [h.balance, hcontents]
  abel

theorem Usage.Sound.step {call : Call} (h : u.Sound start) (hroomy : start.Roomy) (hcall : call.Proper u)
    (hstep : u.step call = .ok u') : u'.Sound start := by
  cases call with
  | addClause c => exact h.addClause hroomy hcall hstep
  | exportBuffer options => exact h.exportBuffer hstep

/-- The valid chunks of a slot count the clauses that can be retrieved from them. -/
theorem ClauseSlot.Sound.numElems_eq {slot : ClauseSlot} (h : slot.Sound) {chunk : Chunk} (hchunk : chunk ∈ slot.chunks)
    (hvalid : chunk.state = .valid 0) :
    ∃ b, chunk.data = some b ∧ chunk.numElems = (b.retrievable slot.entrySize).length := by
  obtain ⟨front, back, hchunks, hfront, hback⟩ := h.shape
  have hinner : chunk ∈ slot.inner := by
    rw [hchunks] at hchunk
    simp only [List.cons_append, List.mem_cons, List.mem_append, List.not_mem_nil, or_false] at hchunk
    rcases hchunk with rfl | hmem | rfl
    · rw [hfront] at hvalid
      cases hvalid
    · exact hmem
    · rw [hback] at hvalid
      cases hvalid
  rcases h.cell chunk hinner with ⟨-, -, b, hb, hsound, hnum⟩ | hdead
  · exact ⟨b, hb, by rw [hnum, (hsound.retrievable (ClauseSlot.entrySize_pos h)).length_eq]⟩
  · rw [hdead.state_eq] at hvalid
    cases hvalid

/-- No addition is put off, and a clause is dropped from its slot only if no chunk can be had for it. -/
theorem Sound.addClause (h : db.Sound) (hroomy : db.Roomy) (hc : 1 ≤ c.lbd) :
    (c.lbd ≤ c.size → ∃ r, db.addClause c = .ok r) ∧ ∀ db', db.addClause c ≠ .ok (.tryLater, db') ∧
      (db.addClause c = .ok (.drop, db') → ∀ i, db.getSlotIdx c.size c.lbd = some i → db.Exhausted i) := by
  rw [AdaptiveClauseDatabase.addClause]
  cases hidx : db.getSlotIdx c.size c.lbd with
  | none => exact ⟨fun _ => ⟨_, rfl⟩, fun db' => ⟨by simp, fun _ i hi => by cases hi⟩⟩
  | some i =>
      rcases h.insertClause hroomy hc hidx with ⟨hlarge, e, herror⟩ | ⟨r, hok, -, hout⟩
      · simp only [herror]
        exact ⟨fun hle => absurd hle hlarge, fun db' => ⟨by simp [Except.map], by simp [Except.map]⟩⟩
      · simp only [hok]
        refine ⟨fun _ => ⟨_, rfl⟩, fun db' => ?_⟩
        cases hout with
        | success _ _ _ => exact ⟨by simp [Except.map, addClauseResult], by simp [Except.map, addClauseResult]⟩
        | drop _ _ hex =>
            refine ⟨by simp [Except.map, addClauseResult], fun _ j hj => ?_⟩
            obtain rfl := Option.some.inj hj
            exact hex

/-- In a database in use, no chunk and no clause gets lost. -/
theorem clauses_conserved (maxClauseSize p chunkSize numChunks : Nat) (chk : Bool) (hroom : maxClauseSize + 1 < chunkSize)
    {calls : List Call} {u : Usage}
    (h : Reaches Usage.step Call.Proper { db := new maxClauseSize p chunkSize numChunks chk } calls u) :
    u.db.chunkMgr.numAllocatable + u.db.chunkMgr.numAvailable + heldBySlots u.db.slots = numChunks ∧
    (∀ slot ∈ u.db.slots, ∀ chunk ∈ slot.chunks, chunk.state = .valid 0 →
      ∃ b, chunk.data = some b ∧ chunk.numElems = (b.retrievable slot.entrySize).length) ∧
    ((u.accepted.map (readBack p) : List Clause) : Multiset Clause) =
      u.exported + u.db.contents + ((u.stolen.map fun t => t.2.2 : List Clause) : Multiset Clause) ∧
    (∀ t ∈ u.stolen, t.1 < t.2.1) ∧
    ∀ c : Clause, 1 ≤ c.lbd → (c.lbd ≤ c.size → ∃ r, u.db.addClause c = .ok r) ∧
      ∀ db', u.db.addClause c ≠ .ok (.tryLater, db') ∧
        (u.db.addClause c = .ok (.drop, db') → ∀ i, u.db.getSlotIdx c.size c.lbd = some i →
          u.db.chunkMgr.numAllocatable = 0 ∧ u.db.chunkMgr.numAvailable = 0 ∧
            ∀ j slot, i < j → u.db.slots[j]? = some slot → held slot.inner = 0) := by
  obtain ⟨hnew, hroomy⟩ := stores_new maxClauseSize p chunkSize numChunks chk
  have hroomy := hroomy hroom
  have hstart : Usage.Sound (new maxClauseSize p chunkSize numChunks chk)
      { db := new maxClauseSize p chunkSize numChunks chk } := by
    refine ⟨hnew.sound, ⟨rfl, rfl, rfl⟩, by simp, ?_, by simp⟩
    simp [hnew.contents_eq]
  have hu : u.Sound (new maxClauseSize p chunkSize numChunks chk) :=
    h.invariant hstart fun u₁ call u₂ hu₁ hcall hstep => hu₁.step hroomy hcall hstep
  refine ⟨?_, ?_, hu.balance, hu.rightwards, fun c hc => ?_⟩
  · have hconserved := hu.sound.conserved
    rw [hu.shape.positions_eq] at hconserved
    simpa [new, ChunkManager.new] using hconserved
  · intro slot hslot chunk hchunk hvalid
    obtain ⟨j, hj⟩ := List.mem_iff_getElem?.mp hslot
    exact ClauseSlot.Sound.numElems_eq (hu.sound.slots j slot hj).sound hchunk hvalid
  · obtain ⟨hok, hdrop⟩ := hu.sound.addClause (hroomy.of_sameShape hu.shape) hc
    refine ⟨hok, fun db' => ⟨(hdrop db').1, fun hd i hi => ?_⟩⟩
    have hex := (hdrop db').2 hd i hi
    exact ⟨hex.manager.1, hex.manager.2, hex.slots⟩

def isProper (_ : Usage) : Call → Bool
  | .addClause c => 1 ≤ c.lbd
  | .exportBuffer _ => true

theorem proper_of_isProper (u : Usage) (call : Call) (h : isProper u call = true) : call.Proper u := by
  cases call with
  | addClause c => simpa [isProper, Call.Proper] using h
  | exportBuffer options => trivial

/-- The only chunk holds a binary clause until it is stolen for a unit clause, which is exported. -/
def stealingCalls : List Call :=
  [.addClause ⟨[1, 2], 2⟩, .addClause ⟨[3], 1⟩, .exportBuffer { sizeLimit := -1 }, .addClause ⟨[4, 5], 2⟩]

theorem clauses_conserved_stealing : ∃ u,
    Reaches Usage.step Call.Proper { db := new 2 2 4 1 false } stealingCalls u ∧
    u.accepted = [⟨[3], 1⟩, ⟨[1, 2], 2⟩] ∧ u.exported = [⟨[3], 1⟩] ∧ u.stolen = [(0, 1, ⟨[1, 2], 2⟩)] ∧
    u.db.chunkMgr.numAllocatable + u.db.chunkMgr.numAvailable + heldBySlots u.db.slots = 1 := by
  have hrun : (stealingCalls.foldlM (checked isProper Usage.step) { db := new 2 2 4 1 false }).map
      (fun u => (u.accepted, u.exported, u.stolen)) =
        some ([⟨[3], 1⟩, ⟨[1, 2], 2⟩], [⟨[3], 1⟩], [(0, 1, ⟨[1, 2], 2⟩)]) := by
    decide +kernel
  obtain ⟨u, hu, heq⟩ := Option.map_eq_some_iff.mp hrun
  have hreaches := Reaches.of_checked proper_of_isProper hu
  simp only [Prod.mk.injEq] at heq
  exact ⟨u, hreaches, heq.1, heq.2.1, heq.2.2, (clauses_conserved 2 2 4 1 false (by decide) hreaches).1⟩

end AdaptiveClauseDatabase

end Mallob.Sharing
