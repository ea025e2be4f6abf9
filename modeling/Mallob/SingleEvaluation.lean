import Mallob.SpareChunks

namespace Mallob.Sharing

open ClauseSlot (Proper admitted)

variable {κ : Type} {slot : ClauseSlot} {conditional : Conditional κ} {filter filter' : κ} {c : Clause}
  {i j pos : Nat} {xs cs done rest : List (Clause × Nat)} {es : List BulkEvent} {s : BulkState κ}

def askedOnce (conditional : Conditional κ) (filter : κ) (cs : List (Clause × Nat)) : κ :=
  cs.foldl (fun filter x => (conditional filter x.1).2) filter

theorem Settled.filter_eq {p : Clause → Bool} (h : Settled conditional (fun c => p c) filter cs es filter') :
    filter' = askedOnce conditional filter (cs.filter fun x => p x.1) := by
  induction h with
  | nil => rfl
  | skipped hnot _ ih =>
      rw [ih]
      simp [hnot]
  | filtered hc hask _ ih =>
      rw [ih]
      simp [askedOnce, hc, hask]
  | kept hc hask _ _ ih =>
      rw [ih]
      simp [askedOnce, hc, hask]

instance (slot : ClauseSlot) (chunk : Chunk) (cs : List Clause) : Decidable (slot.Takes chunk cs) :=
  decidable_of_iff (chunk.data.any fun b => slot.takesAll b cs) <| by
    rw [ClauseSlot.Takes]
    cases chunk.data with
    | none => simp
    | some b => simp

namespace AdaptiveClauseDatabase

variable {db : AdaptiveClauseDatabase} {x y z : AdaptiveClauseDatabase × BulkState κ}

def slotOf (db : AdaptiveClauseDatabase) (x : Clause × Nat) : Option Nat := db.getSlotIdx x.1.size x.1.lbd

def lacksChunk (db : AdaptiveClauseDatabase) (i : Nat) : Bool :=
  (db.slots[i]?).all fun slot => (slot.opens slot.inner).isEmpty

/-- The number of slots of some clauses that have no open chunk. -/
def requests (db : AdaptiveClauseDatabase) (xs : List (Clause × Nat)) : Nat :=
  ((xs.filterMap db.slotOf).filter db.lacksChunk).toFinset.card

def ofSlot (db : AdaptiveClauseDatabase) (i : Nat) (xs : List (Clause × Nat)) : List (Clause × Nat) :=
  xs.filter fun x => db.slotOf x = some i

def before (db : AdaptiveClauseDatabase) (i : Nat) (xs : List (Clause × Nat)) : List (Clause × Nat) :=
  xs.filter fun x => (db.slotOf x).any (· < i)

/-- The open chunks that a slot has left once each of the more important slots without one has requested a chunk. -/
def opensLeft (db : AdaptiveClauseDatabase) (i : Nat) (slot : ClauseSlot) (xs : List (Clause × Nat)) : List Chunk :=
  slot.opens (slot.validChunks.take (slot.validChunks.length - (db.requests (db.before i xs) - db.spare i)))

/-- The first open chunk has room for the clauses of the slot that meet the condition, or it is the only one and no
other chunk can be had. -/
def OnceAt (db : AdaptiveClauseDatabase) (conditional : Conditional κ) (filter : κ) (xs : List (Clause × Nat))
    (i : Nat) (slot : ClauseSlot) : Prop :=
  ∀ chunk ∈ (db.opensLeft i slot xs).head?,
    slot.Takes chunk (admitted conditional (askedOnce conditional filter (db.before i xs)) (db.ofSlot i xs)) ∨
      ((db.opensLeft i slot xs).length = 1 ∧ db.spare i ≤ db.requests (db.before i xs))

def EachOnce (db : AdaptiveClauseDatabase) (conditional : Conditional κ) (filter : κ) (xs : List (Clause × Nat)) :
    Prop :=
  ∀ x ∈ xs, ∀ i ∈ db.slotOf x, ∀ slot ∈ db.slots[i]?, db.OnceAt conditional filter xs i slot

instance (db : AdaptiveClauseDatabase) (conditional : Conditional κ) (filter : κ) (xs : List (Clause × Nat)) (i : Nat)
    (slot : ClauseSlot) : Decidable (db.OnceAt conditional filter xs i slot) :=
  inferInstanceAs (Decidable (∀ _ ∈ _, _))

instance (db : AdaptiveClauseDatabase) (conditional : Conditional κ) (filter : κ) (xs : List (Clause × Nat)) :
    Decidable (db.EachOnce conditional filter xs) :=
  inferInstanceAs (Decidable (∀ _ ∈ _, ∀ _ ∈ _, ∀ _ ∈ _, _))

theorem opensLeft_eq_nil (h : slot.opens slot.inner = []) : db.opensLeft i slot xs = [] := by
  rw [← ClauseSlot.opens_validChunks] at h
  have hsub : (db.opensLeft i slot xs).Sublist (slot.opens slot.validChunks) := (List.take_sublist _ _).filter _
  rw [h] at hsub
  exact List.sublist_nil.mp hsub

theorem opensLeft_of_lt (h : db.requests (db.before i xs) < db.spare i) :
    db.opensLeft i slot xs = slot.opens slot.inner := by
  rw [opensLeft, Nat.sub_eq_zero_of_le h.le, Nat.sub_zero, List.take_length, ClauseSlot.opens_validChunks]

theorem slotOf_congr {db' : AdaptiveClauseDatabase}
    (h : db'.maxLbdPartitionedSize = db.maxLbdPartitionedSize ∧ db'.slots.length = db.slots.length) :
    db'.slotOf = db.slotOf := by
  funext x
  rw [slotOf, slotOf, getSlotIdx, getSlotIdx, h.1, h.2]

theorem place_of_slotOf {a : Clause × Nat} (h : db.slotOf a = some i) : db.place a = i := (getSlotIdx_some h).1

theorem requests_append (xs ys : List (Clause × Nat)) :
    db.requests (xs ++ ys) =
      (((xs.filterMap db.slotOf).filter db.lacksChunk).toFinset ∪
        ((ys.filterMap db.slotOf).filter db.lacksChunk).toFinset).card := by
  rw [requests, List.filterMap_append, List.filter_append, List.toFinset_append]

theorem requests_filter (xs : List (Clause × Nat)) :
    db.requests (xs.filter fun x => db.hasSlot x.1) = db.requests xs := by
  have hmap : (xs.filter fun x => db.hasSlot x.1).filterMap db.slotOf = xs.filterMap db.slotOf := by
    rw [List.filterMap_filter]
    refine List.filterMap_congr fun x _ => ?_
    rw [hasSlot, slotOf]
    cases db.getSlotIdx x.1.size x.1.lbd with
    | none => rfl
    | some i => rfl
  rw [requests, requests, hmap]

/-- The clauses of one more slot request a chunk if the slot has no open one. -/
theorem requests_insert (hdone : ∀ a ∈ done, db.slotOf a ≠ some i) (hcs : ∀ a ∈ cs, db.slotOf a = some i)
    (hne : cs ≠ []) : db.requests (done ++ cs) = db.requests done + if db.lacksChunk i then 1 else 0 := by
  have hmap : cs.filterMap db.slotOf = List.replicate cs.length i := by
    rw [List.eq_replicate_iff]
    have hsome : cs.filterMap db.slotOf = cs.map fun _ => i := by
      rw [← List.filterMap_eq_map]
      exact List.filterMap_congr hcs
    rw [hsome]
    exact ⟨List.length_map _, fun b hb => by obtain ⟨_, _, rfl⟩ := List.mem_map.mp hb; rfl⟩
  rw [requests_append, hmap]
  cases hlacks : db.lacksChunk i with
  | false => simp [hlacks, requests]
  | true =>
      have hnot : i ∉ ((done.filterMap db.slotOf).filter db.lacksChunk).toFinset := by
        rw [List.mem_toFinset, List.mem_filter, List.mem_filterMap]
        rintro ⟨⟨a, ha, hi⟩, -⟩
        exact hdone a ha hi
      have hlen : cs.length ≠ 0 := by simpa using hne
      rw [List.filter_replicate, if_pos hlacks, List.toFinset_replicate_of_ne_zero hlen, Finset.union_comm,
        ← Finset.insert_eq, Finset.card_insert_of_notMem hnot]
      rfl

structure Reached (db : AdaptiveClauseDatabase) (conditional : Conditional κ) (filter : κ)
    (xs done : List (Clause × Nat)) (y : AdaptiveClauseDatabase × BulkState κ) : Prop where
  pending : Pending y
  shape_eq : y.1.maxLbdPartitionedSize = db.maxLbdPartitionedSize ∧ y.1.slots.length = db.slots.length
  xs_eq : xs = done ++ y.2.cPtr
  passed : ∀ a ∈ done, ∀ k, db.slotOf a = some k → ∀ b ∈ y.2.cPtr, (k : Int) < db.place b
  filter_eq : y.2.filter = askedOnce conditional filter (done.filter fun a => db.hasSlot a.1)
  depleted : ∀ b ∈ y.2.cPtr, ∀ j : Nat, db.place b ≤ j → db.Depleted (db.requests done) y.1 j

theorem Reached.place_eq (h : db.Reached conditional filter xs done y) (a : Clause × Nat) : y.1.place a = db.place a := by
  rw [place, place, h.shape_eq.1]

theorem offeredOnce_iff : db.OfferedOnce i slot conditional s ↔ ∀ chunk ∈ (slot.opens slot.inner).head?,
    slot.Takes chunk (admitted conditional s.filter (slot.groupOf s.cPtr)) ∨
      ((slot.opens slot.inner).length = 1 ∧ db.Exhausted i) := by
  rw [OfferedOnce]
  cases slot.opens slot.inner with
  | nil => simp
  | cons chunk others => simp

section Head

variable (h : db.Reached conditional filter xs done y) (hptr : y.2.cPtr = (c, pos) :: rest)
  (hidx : db.slotOf (c, pos) = some i)

include h hptr hidx

theorem Reached.le_place {b : Clause × Nat} (hb : b ∈ y.2.cPtr) : (i : Int) ≤ db.place b := by
  have hsorted := h.pending.sorted
  rw [hptr, List.pairwise_cons] at hsorted
  rw [hptr] at hb
  rcases List.mem_cons.mp hb with rfl | hb
  · exact (place_of_slotOf hidx).ge
  · have hle := hsorted.1 b hb
    rwa [h.place_eq, h.place_eq, place_of_slotOf hidx] at hle

theorem Reached.before_eq : db.before i xs = done.filter fun a => db.hasSlot a.1 := by
  have hrest : db.before i y.2.cPtr = [] := by
    rw [before, List.filter_eq_nil_iff]
    intro b hb
    cases hk : db.slotOf b with
    | none => simp
    | some k =>
        have hle := h.le_place hptr hidx hb
        rw [place_of_slotOf hk] at hle
        have : ¬k < i := by omega
        simpa using this
  rw [h.xs_eq, before, List.filter_append]
  rw [before] at hrest
  rw [hrest, List.append_nil]
  refine List.filter_congr fun a ha => ?_
  rw [hasSlot, ← slotOf]
  cases hk : db.slotOf a with
  | none => rfl
  | some k =>
      have hlt := h.passed a ha k hk (c, pos) (hptr ▸ List.mem_cons_self ..)
      rw [place_of_slotOf hidx] at hlt
      have : k < i := by omega
      simpa using this

theorem Reached.slotOf_done_ne : ∀ a ∈ done, db.slotOf a ≠ some i := by
  intro a ha hi
  have hlt := h.passed a ha i hi (c, pos) (hptr ▸ List.mem_cons_self ..)
  rw [place_of_slotOf hidx] at hlt
  omega

omit hptr hidx in
theorem Reached.slotOf_group (hslot : y.1.slots[i]? = some slot) :
    ∀ a ∈ slot.groupOf y.2.cPtr, db.slotOf a = some i := by
  intro a ha
  rw [← slotOf_congr h.shape_eq]
  exact h.pending.sound.getSlotIdx_of_compatible hslot (slot.compatible_groupOf y.2.cPtr a ha)

theorem Reached.ofSlot_eq (hslot : y.1.slots[i]? = some slot) : db.ofSlot i xs = slot.groupOf y.2.cPtr := by
  have hdone : db.ofSlot i done = [] := by
    rw [ofSlot, List.filter_eq_nil_iff]
    intro a ha hi
    exact h.slotOf_done_ne hptr hidx a ha (by simpa using hi)
  have hgroup : db.ofSlot i (slot.groupOf y.2.cPtr) = slot.groupOf y.2.cPtr := by
    rw [ofSlot, List.filter_eq_self]
    intro a ha
    simpa using h.slotOf_group hslot a ha
  have hbehind : db.ofSlot i (slot.behind y.2.cPtr) = [] := by
    rw [ofSlot, List.filter_eq_nil_iff]
    intro a ha hi
    have hplace : y.1.place (c, pos) = i := by rw [h.place_eq, place_of_slotOf hidx]
    have hlt := h.pending.place_behind hslot hptr hplace a ha
    rw [h.place_eq, place_of_slotOf (i := i) (by simpa using hi)] at hlt
    omega
  rw [ofSlot] at hdone hgroup hbehind
  rw [h.xs_eq, ofSlot, List.filter_append, hdone, List.nil_append]
  nth_rewrite 1 [← slot.groupOf_append_behind y.2.cPtr]
  rw [List.filter_append, hgroup, hbehind, List.append_nil]

theorem Reached.exists_slot (hslot : y.1.slots[i]? = some slot) : ∃ slot₀, db.slots[i]? = some slot₀ ∧
    slot.kind = slot₀.kind ∧ slot.opens slot.inner = db.opensLeft i slot₀ xs ∧
    (y.1.Exhausted i ↔ db.spare i ≤ db.requests (db.before i xs)) := by
  have hrequests : db.requests (db.before i xs) = db.requests done := by
    rw [h.before_eq hptr hidx, requests_filter]
  have hdepleted := h.depleted (c, pos) (hptr ▸ List.mem_cons_self ..) i (place_of_slotOf hidx).le
  obtain ⟨slot₀, hslot₀, hkind, hvalid⟩ := hdepleted.slot_eq slot hslot
  refine ⟨slot₀, hslot₀, hkind, ?_, ?_⟩
  · rw [← ClauseSlot.opens_validChunks, hvalid, ClauseSlot.opens_congr hkind, opensLeft, hrequests]
  · rw [exhausted_iff, hdepleted.spare_eq, hrequests, Nat.sub_eq_zero_iff_le]

theorem Reached.meetsOnce_iff (hslot : y.1.slots[i]? = some slot) :
    MeetsOnce conditional y ↔ ∀ slot₀ ∈ db.slots[i]?, db.OnceAt conditional filter xs i slot₀ := by
  obtain ⟨slot₀, hslot₀, hkind, hopens, hex⟩ := h.exists_slot hptr hidx hslot
  have hidx' : y.1.getSlotIdx c.size c.lbd = some i := (congrFun (slotOf_congr h.shape_eq) (c, pos)).trans hidx
  rw [AdaptiveClauseDatabase.meetsOnce_iff hptr hidx' hslot, offeredOnce_iff, hopens, hex, ← h.ofSlot_eq hptr hidx hslot,
    h.filter_eq, ← h.before_eq hptr hidx, hslot₀]
  simp only [Option.mem_some_iff, forall_eq', OnceAt, ClauseSlot.takes_congr hkind]

/-- The requests of one more slot are taken off what the requests so far have left for the slots to the right. -/
theorem Reached.depleted_insert {r : Insertion (BulkState κ)} (hpass : SlotPass conditional i slot y z r es)
    (hinserted : y.1.Inserted i slot (slot.bulkInserter conditional) { y.2 with isClauseAdmitted := false } r)
    (honce : y.1.OfferedOnce i slot conditional y.2) (hbehind : slot.behind y.2.cPtr ≠ []) {j : Nat} (hij : i < j) :
    db.Depleted (db.requests (done ++ slot.groupOf y.2.cPtr)) r.db j := by
  have hslot := hpass.slot_eq
  have hbefore := h.depleted (c, pos) (hptr ▸ List.mem_cons_self ..) j (by rw [place_of_slotOf hidx]; omega)
  obtain ⟨slot₀, hslot₀, -, hopens, hex⟩ := h.exists_slot hptr hidx hslot
  rw [requests_insert (h.slotOf_done_ne hptr hidx) (h.slotOf_group hslot) hpass.group_ne, lacksChunk, hslot₀,
    Option.all_some]
  -- A slot whose own chunks have all been taken away is exhausted, and requests in vain.
  by_cases hlacks : slot₀.opens slot₀.inner = []
  · rw [if_pos (by simp [hlacks])]
    have hnone : slot.opens slot.inner = [] := hopens.trans (opensLeft_eq_nil hlacks)
    exact hbefore.trans (hinserted.depleted_one h.pending.sound hslot h.pending.proper hij hnone hpass.group_ne)
  · rw [if_neg (by simpa using hlacks)]
    refine hbefore.trans (hinserted.depleted_zero h.pending.sound hslot h.pending.proper hij honce ?_ hbehind)
    rcases Nat.lt_or_ge (db.requests (db.before i xs)) (db.spare i) with hlt | hge
    · exact Or.inl (by rwa [hopens, opensLeft_of_lt hlt])
    · exact Or.inr (hex.mpr hge)

/-- A clause that meets the condition once leaves the slots to the right what the requests so far have left them. -/
theorem Reached.insert {r : Insertion (BulkState κ)} (hpass : SlotPass conditional i slot y z r es)
    (hstep : y.1.insertBulk i slot conditional y.2 = .ok z) (honce : y.1.OfferedOnce i slot conditional y.2) :
    db.Reached conditional filter xs (done ++ slot.groupOf y.2.cPtr) z := by
  have hslot := hpass.slot_eq
  have hgroup := h.slotOf_group hslot
  obtain ⟨r', hr', -, hinserted⟩ := @Sound.insert_bulkInserter κ slot conditional
    { y.2 with isClauseAdmitted := false } y.1 i h.pending.sound hslot h.pending.proper
  obtain rfl := Except.ok.inj (hpass.restocked.inserted.symm.trans hr')
  obtain ⟨db', s', hok, hbulk⟩ := @Sound.insertBulk κ slot conditional y.2 (fun c => y.1.hasSlot c) y.1 i
    h.pending.sound hslot h.pending.proper fun c hc => by
      rw [hasSlot, h.pending.sound.getSlotIdx_of_compatible hslot hc]
      rfl
  obtain rfl := Except.ok.inj (hok.symm.trans hstep)
  obtain ⟨-, es', hsettled, -⟩ := hbulk.once honce
  refine ⟨(hpass.advances h.pending).pending,
    ⟨hbulk.shape_eq.1.trans h.shape_eq.1, hbulk.shape_eq.2.trans h.shape_eq.2⟩, ?_, ?_, ?_, ?_⟩
  · rw [hbulk.cPtr_eq, List.append_assoc, slot.groupOf_append_behind, h.xs_eq]
  · intro a ha k hk b hb
    rw [hbulk.cPtr_eq] at hb
    rcases List.mem_append.mp ha with ha | ha
    · exact h.passed a ha k hk b ((List.dropWhile_suffix _).subset hb)
    · obtain rfl := Option.some.inj ((hgroup a ha).symm.trans hk)
      rw [← h.place_eq]
      exact hpass.place_behind b hb
  · have hall : (slot.groupOf y.2.cPtr).filter (fun a => db.hasSlot a.1) = slot.groupOf y.2.cPtr := by
      rw [List.filter_eq_self]
      intro a ha
      rw [hasSlot, ← slotOf, hgroup a ha]
      rfl
    have hfilter := hsettled.filter_eq
    rw [hasSlot_congr h.shape_eq, hall, h.filter_eq] at hfilter
    rw [hfilter, List.filter_append, hall, askedOnce, askedOnce, askedOnce, List.foldl_append]
  · intro b hb j hj
    have hb' : b ∈ slot.behind y.2.cPtr := by rwa [← hbulk.cPtr_eq]
    have hij : i < j := by
      have := hpass.place_behind b hb'
      rw [h.place_eq] at this
      omega
    rw [hpass.db_eq]
    exact h.depleted_insert hptr hidx hpass hinserted honce (List.ne_nil_of_mem hb') hij

end Head

theorem Reached.skip (h : db.Reached conditional filter xs done y) (hptr : y.2.cPtr = (c, pos) :: rest)
    (hidx : db.slotOf (c, pos) = none) (hadvances : Advances y (y.1, { y.2 with cPtr := rest })) :
    db.Reached conditional filter xs (done ++ [(c, pos)]) (y.1, { y.2 with cPtr := rest }) := by
  have hnone : db.hasSlot c = false := by
    rw [slotOf] at hidx
    rw [hasSlot, hidx]
    rfl
  have hrest : ∀ b ∈ rest, b ∈ y.2.cPtr := fun b hb => hptr ▸ List.mem_cons_of_mem _ hb
  refine ⟨hadvances.pending, h.shape_eq, ?_, ?_, ?_, ?_⟩
  · rw [h.xs_eq, hptr, List.append_assoc]
    rfl
  · intro a ha k hk b hb
    rcases List.mem_append.mp ha with ha | ha
    · exact h.passed a ha k hk b (hrest b hb)
    · obtain rfl := List.mem_singleton.mp ha
      rw [hidx] at hk
      cases hk
  · rw [List.filter_append, List.filter_cons_of_neg (by simp [hnone]), List.filter_nil, List.append_nil]
    exact h.filter_eq
  · intro b hb j hj
    have hsame : db.requests (done ++ [(c, pos)]) = db.requests done := by
      rw [requests, List.filterMap_append, List.filterMap_cons_none hidx, List.filterMap_nil, List.append_nil, requests]
    rw [hsame]
    exact h.depleted b (hrest b hb) j hj

/-- The condition is evaluated once at each pass if and only if it is at the slot of each clause that is left. -/
theorem Reached.alwaysOnce_iff (hpasses : Relation.ReflTransGen (Pass conditional) y z) (hz : z.2.cPtr = [])
    (h : db.Reached conditional filter xs done y) : AlwaysOnce conditional y ↔
      ∀ a ∈ y.2.cPtr, ∀ i ∈ db.slotOf a, ∀ slot ∈ db.slots[i]?, db.OnceAt conditional filter xs i slot := by
  induction hpasses using Relation.ReflTransGen.head_induction_on generalizing done with
  | refl =>
      rw [hz]
      exact iff_of_true (alwaysOnce_nil hz) fun a ha => absurd ha List.not_mem_nil
  | @head x y hpass hrest ih =>
      have hadvances := h.pending.advances hpass
      have hsame := slotOf_congr h.shape_eq
      obtain ⟨c, pos, rest, hptr, hstep, ⟨hidx, rfl⟩ | ⟨i, slot, r, es, hidx, hslot⟩⟩ := h.pending.pass hpass
      · have hidx' : db.slotOf (c, pos) = none := (congrFun hsame (c, pos)).symm.trans hidx
        rw [alwaysOnce_cons hptr hstep, ih (h.skip hptr hidx' hadvances)]
        constructor
        · rintro ⟨-, hall⟩ a ha i hi
          rw [hptr] at ha
          rcases List.mem_cons.mp ha with rfl | ha
          · rw [hidx'] at hi
            cases hi
          · exact hall a ha i hi
        · intro hall
          exact ⟨meetsOnce_of_none hptr hidx, fun a ha => hall a (hptr ▸ List.mem_cons_of_mem _ ha)⟩
      · have hidx' : db.slotOf (c, pos) = some i := (congrFun hsame (c, pos)).symm.trans hidx
        have hmeets := h.meetsOnce_iff hptr hidx' hslot.slot_eq
        have hinsert : x.1.insertBulk i slot conditional x.2 = .ok y := by
          rw [bulkStep, hidx] at hstep
          simpa only [hslot.slot_eq] using hstep
        have hreached : MeetsOnce conditional x → db.Reached conditional filter xs (done ++ slot.groupOf x.2.cPtr) y :=
          fun honce => h.insert hptr hidx' hslot hinsert
            ((AdaptiveClauseDatabase.meetsOnce_iff hptr hidx hslot.slot_eq).mp honce)
        rw [alwaysOnce_cons hptr hstep]
        constructor
        · rintro ⟨honce, hrest⟩ a ha j hj
          rw [← slot.groupOf_append_behind x.2.cPtr, ← hslot.cPtr_eq] at ha
          rcases List.mem_append.mp ha with ha | ha
          · obtain rfl := Option.some.inj ((h.slotOf_group hslot.slot_eq a ha).symm.trans hj)
            exact hmeets.mp honce
          · exact (ih (hreached honce)).mp hrest a ha j hj
        · intro hall
          have honce := hmeets.mpr (hall (c, pos) (hptr ▸ List.mem_cons_self ..) i hidx')
          exact ⟨honce, (ih (hreached honce)).mpr fun a ha => hall a (hadvances.suffix.subset ha)⟩

/-- The condition is evaluated once for each clause with a slot, and every clause is accounted for, if and only if
every slot of a clause has an open chunk left with room for its clauses, or none at all, or a last one. -/
theorem bulkAddClauses_accounts_iff (db : AdaptiveClauseDatabase) (clauses deferredOut : List Clause)
    (stats : SolvingStatistics) (conditional : Conditional κ) (filter : κ) (h : db.Sound)
    (hclauses : ∀ c ∈ clauses, c.Encodable db.maxLbdPartitionedSize)
    (hsorted : clauses.Pairwise fun c d => slotPosition db.maxLbdPartitionedSize c.size c.lbd ≤
      slotPosition db.maxLbdPartitionedSize d.size d.lbd) :
    (∃ db' s, db.bulkAddClauses clauses deferredOut stats conditional filter = .ok (db', s) ∧
      db.Accounts clauses deferredOut stats s) ↔
    db.EachOnce conditional filter clauses.zipIdx := by
  have hpending := pending_start deferredOut stats filter h hclauses hsorted
  have hreached : db.Reached conditional filter clauses.zipIdx [] (db, .start clauses deferredOut stats filter) :=
    ⟨hpending, ⟨rfl, rfl⟩, rfl, fun a ha => absurd ha List.not_mem_nil, rfl, fun _ _ j _ => .refl db j⟩
  obtain ⟨db', s, hok, -, -⟩ :=
    @Sound.bulkLoop κ conditional (.start clauses deferredOut stats filter) db h clauses.length hpending.encodable
      (by simp [BulkState.start])
  obtain ⟨hpasses, hend⟩ := passes_of_bulkLoop hok
  rw [bulkAddClauses_accounts_iff_alwaysOnce db clauses deferredOut stats conditional filter h hclauses]
  exact hreached.alwaysOnce_iff hpasses hend

example : ¬almostFull.EachOnce registerClause [] [(⟨[4], 1⟩, 0)] := by decide +kernel

def twoInUse : AdaptiveClauseDatabase :=
  ((new 3 2 12 2 false).addClauses [⟨[1, 2], 2⟩, ⟨[3, 4, 5], 2⟩]).getD (new 3 2 12 2 false)

theorem twoInUse_sound : twoInUse.Sound := by
  have hadded : (new 3 2 12 2 false).addClauses [⟨[1, 2], 2⟩, ⟨[3, 4, 5], 2⟩] = some twoInUse := by decide +kernel
  obtain ⟨hstores, hroomy⟩ := stores_new 3 2 12 2 false
  exact (hstores.addClauses (hroomy (by decide)) (by simp) hadded).sound

/-- The unit clauses, of which the second one is a duplicate, request the chunk of the last slot, the next clause gets
into the open chunk of its slot, and the last one is discarded. -/
theorem bulkAddClauses_accounts_twoInUse : ∃ db' s,
    twoInUse.bulkAddClauses [⟨[6], 1⟩, ⟨[6], 1⟩, ⟨[7, 8], 2⟩, ⟨[9, 10, 11], 2⟩] [] {} registerClause [] = .ok (db', s) ∧
      twoInUse.Accounts [⟨[6], 1⟩, ⟨[6], 1⟩, ⟨[7, 8], 2⟩, ⟨[9, 10, 11], 2⟩] [] {} s := by
  refine (bulkAddClauses_accounts_iff twoInUse [⟨[6], 1⟩, ⟨[6], 1⟩, ⟨[7, 8], 2⟩, ⟨[9, 10, 11], 2⟩] [] {}
    registerClause [] twoInUse_sound ?_ (by decide +kernel)).mpr (by decide +kernel)
  intro c hc
  obtain rfl | rfl | rfl : c = ⟨[6], 1⟩ ∨ c = ⟨[7, 8], 2⟩ ∨ c = ⟨[9, 10, 11], 2⟩ := by simpa using hc
  · exact ⟨⟨0, by decide +kernel, fun _ => by decide +kernel⟩, by simp, by simp⟩
  · exact ⟨⟨1, by decide +kernel, fun _ => by decide +kernel⟩, by simp, by simp⟩
  · exact ⟨⟨2, by decide +kernel, fun hle => absurd hle (by decide +kernel)⟩, by simp, by simp⟩

end AdaptiveClauseDatabase

end Mallob.Sharing
