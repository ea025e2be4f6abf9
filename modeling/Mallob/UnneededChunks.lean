import Mallob.BulkAccounting
import Mallob.BulkContents

namespace Mallob.Sharing

open ClauseSlot (Proper held stored asks)
open BinFilling (packedItems Reaffirmed)

variable {κ : Type} {slot slot' : ClauseSlot} {conditional : Conditional κ} {c : Clause} {i j pos : Nat}
  {xs rest : List (Clause × Nat)} {events : List BulkEvent} {s s' : BulkState κ}

namespace ClauseSlot

/-- The number of clauses that the chunks of a slot still have room for. A chunk that is counted as full has none. -/
def freeSpace (slot : ClauseSlot) : Nat := ((slot.opens slot.inner).map (Chunk.room slot.entrySize)).sum

def admittedIn (slot : ClauseSlot) (xs : List (Clause × Nat)) (events : List BulkEvent) : List (Clause × Nat) :=
  xs.filter fun x => slot.isClauseCompatible x.1 && decide (.evaluated x.2 true ∈ events)

structure Supplied (slot : ClauseSlot) (xs : List (Clause × Nat)) (events : List BulkEvent) (slot' : ClauseSlot) :
    Prop where
  numChunks_eq : slot'.numChunks = slot.numChunks
  stored_eq : stored slot.entrySize slot'.inner =
    stored slot.entrySize slot.inner + ↑((slot.admittedIn xs events).map fun x => slot.entryOf x.1)

theorem Supplied.congr {ys : List (Clause × Nat)} (h : slot.Supplied xs events slot')
    (heq : slot.admittedIn ys events = slot.admittedIn xs events) : slot.Supplied ys events slot' :=
  ⟨h.numChunks_eq, by rw [heq]; exact h.stored_eq⟩

end ClauseSlot

namespace AdaptiveClauseDatabase

variable {db db' : AdaptiveClauseDatabase} {x y z : AdaptiveClauseDatabase × BulkState κ}

def Fits (db : AdaptiveClauseDatabase) (xs : List (Clause × Nat)) (events : List BulkEvent) : Prop :=
  ∀ (i : Nat) (slot : ClauseSlot), db.slots[i]? = some slot → (slot.admittedIn xs events).length ≤ slot.freeSpace

structure Frugal (db : AdaptiveClauseDatabase) (xs : List (Clause × Nat)) (events : List BulkEvent)
    (db' : AdaptiveClauseDatabase) : Prop where
  chunkMgr_eq : db'.chunkMgr = db.chunkMgr
  supplied : ∀ (i : Nat) (slot slot' : ClauseSlot), db.slots[i]? = some slot → db'.slots[i]? = some slot' →
    slot.Supplied xs events slot'

/-- For the slot of each clause, a chunk is open and other clauses come behind those of the slot, or else no chunk
can be had. -/
def Sufficient (db : AdaptiveClauseDatabase) (clauses : List Clause) : Prop :=
  ∀ c ∈ clauses, ∀ i slot, db.getSlotIdx c.size c.lbd = some i → db.slots[i]? = some slot →
    (slot.opens slot.inner ≠ [] ∧ ∃ last ∈ clauses.getLast?, ¬slot.isClauseCompatible last) ∨ db.Exhausted i

/-- A clause that a chunk of the slot has no room for meets the condition again at the next chunk. -/
def MeetsAgain (conditional : Conditional κ) (x : AdaptiveClauseDatabase × BulkState κ) : Prop :=
  ∀ c pos rest i slot, x.2.cPtr = (c, pos) :: rest → x.1.getSlotIdx c.size c.lbd = some i →
    x.1.slots[i]? = some slot →
    Reaffirmed (asks conditional) ((slot.opens slot.inner).map (Chunk.room slot.entrySize)) x.2.filter
      (slot.groupOf x.2.cPtr)

def AlwaysAgain (conditional : Conditional κ) (x : AdaptiveClauseDatabase × BulkState κ) : Prop :=
  ∀ y, Relation.ReflTransGen (Pass conditional) x y → MeetsAgain conditional y

def place (db : AdaptiveClauseDatabase) (x : Clause × Nat) : Int :=
  slotPosition db.maxLbdPartitionedSize x.1.size x.1.lbd

structure Pending (x : AdaptiveClauseDatabase × BulkState κ) : Prop where
  sound : x.1.Sound
  encodable : ∀ a ∈ x.2.cPtr, a.1.Encodable x.1.maxLbdPartitionedSize
  sorted : x.2.cPtr.Pairwise fun a b => x.1.place a ≤ x.1.place b
  nodup : (x.2.cPtr.map Prod.snd).Nodup
  untouched : ∀ a ∈ x.2.cPtr, ∀ e ∈ x.2.events, e.pos ≠ a.2

theorem Pending.proper (h : Pending x) : ∀ a ∈ x.2.cPtr, Proper a := fun a ha =>
  ⟨(h.encodable a ha).lbd_ne, fun hzero => (h.encodable a ha).lits_ne 0 hzero rfl⟩

theorem Pending.compatible_iff (h : Pending x) (hslot : x.1.slots[i]? = some slot) {a : Clause × Nat}
    (ha : a ∈ x.2.cPtr) : slot.isClauseCompatible a.1 ↔ x.1.place a = i := by
  have hfor := h.sound.slots i slot hslot
  rw [hfor.compatible_iff]
  constructor
  · intro hbucket
    exact hbucket.slotPosition_eq
  · intro hplace
    obtain ⟨j, hj⟩ := (h.encodable a ha).inBucket
    obtain rfl : j = i := by exact_mod_cast hj.slotPosition_eq.symm.trans hplace
    exact hj

theorem pending_start {clauses : List Clause} (deferredOut : List Clause) (stats : SolvingStatistics) (filter : κ)
    (h : db.Sound) (hclauses : ∀ c ∈ clauses, c.Encodable db.maxLbdPartitionedSize)
    (hsorted : clauses.Pairwise fun c d => slotPosition db.maxLbdPartitionedSize c.size c.lbd ≤
      slotPosition db.maxLbdPartitionedSize d.size d.lbd) :
    Pending (db, BulkState.start clauses deferredOut stats filter) := by
  refine ⟨h, fun x hx => hclauses x.1 (List.fst_mem_of_mem_zipIdx hx), ?_, ?_, ?_⟩
  · have hmap := hsorted
    rw [← List.zipIdx_map_fst 0 clauses, List.pairwise_map] at hmap
    exact hmap
  · rw [BulkState.start, List.zipIdx_map_snd]
    exact List.nodup_range'
  · intro a _ e he
    cases he

structure Advances (x y : AdaptiveClauseDatabase × BulkState κ) : Prop where
  pending : Pending y
  partition_eq : y.1.maxLbdPartitionedSize = x.1.maxLbdPartitionedSize
  suffix : y.2.cPtr <:+ x.2.cPtr
  starts : x.2.events <+: y.2.events
  events : ∀ e ∈ y.2.events, e ∈ x.2.events ∨ ∃ a ∈ x.2.cPtr, e.pos = a.2
  slots : ∀ j : Nat, (∀ a ∈ x.2.cPtr, (j : Int) < x.1.place a) → y.1.slots[j]? = x.1.slots[j]?

theorem Advances.refl (h : Pending x) : Advances x x :=
  ⟨h, rfl, List.suffix_rfl, List.prefix_rfl, fun _ he => Or.inl he, fun _ _ => rfl⟩

theorem Advances.place_eq (h : Advances x y) (a : Clause × Nat) : y.1.place a = x.1.place a := by
  rw [place, place, h.partition_eq]

theorem Advances.trans (h : Advances x y) (h' : Advances y z) : Advances x z where
  pending := h'.pending
  partition_eq := h'.partition_eq.trans h.partition_eq
  suffix := h'.suffix.trans h.suffix
  starts := h.starts.trans h'.starts
  events := by
    intro e he
    rcases h'.events e he with he | ⟨a, ha, hpos⟩
    · exact h.events e he
    · exact Or.inr ⟨a, h.suffix.subset ha, hpos⟩
  slots := by
    intro j hj
    refine (h'.slots j fun a ha => ?_).trans (h.slots j hj)
    rw [h.place_eq]
    exact hj a (h.suffix.subset ha)

/-- The clauses behind those of a slot belong to the slots to the right. -/
theorem Pending.place_behind (h : Pending x) (hslot : x.1.slots[i]? = some slot) (hptr : x.2.cPtr = (c, pos) :: rest)
    (hplace : x.1.place (c, pos) = i) : ∀ a ∈ slot.behind x.2.cPtr, (i : Int) < x.1.place a := by
  intro a ha
  have hcomp := (h.compatible_iff hslot (hptr ▸ List.mem_cons_self ..)).mpr hplace
  have hparts := slot.groupOf_append_behind x.2.cPtr
  have hsorted := h.sorted
  rw [← hparts, List.pairwise_append] at hsorted
  have hfirst : (c, pos) ∈ slot.groupOf x.2.cPtr := by
    rw [hptr, ClauseSlot.groupOf_cons hcomp]
    exact List.mem_cons_self ..
  cases hbehind : slot.behind x.2.cPtr with
  | nil =>
      rw [hbehind] at ha
      cases ha
  | cons b bs =>
      have hb : b ∈ x.2.cPtr := by
        rw [← hparts, hbehind]
        exact List.mem_append_right _ (List.mem_cons_self ..)
      have hnot : ¬slot.isClauseCompatible b.1 := by
        intro hb
        have hnil := slot.groupOf_behind x.2.cPtr
        rw [hbehind, ClauseSlot.groupOf_cons hb] at hnil
        cases hnil
      rw [h.compatible_iff hslot hb] at hnot
      rw [hbehind] at ha hsorted
      have hle := hsorted.2.2 (c, pos) hfirst b (List.mem_cons_self ..)
      rcases List.mem_cons.mp ha with rfl | ha
      · omega
      · have := List.rel_of_pairwise_cons hsorted.2.1 ha
        omega

structure SlotPass (conditional : Conditional κ) (i : Nat) (slot : ClauseSlot)
    (x y : AdaptiveClauseDatabase × BulkState κ) (r : Insertion (BulkState κ)) (es : List BulkEvent) : Prop where
  slot_eq : x.1.slots[i]? = some slot
  group_ne : slot.groupOf x.2.cPtr ≠ []
  place_behind : ∀ a ∈ slot.behind x.2.cPtr, (i : Int) < x.1.place a
  db_eq : y.1 = r.db
  cPtr_eq : y.2.cPtr = slot.behind x.2.cPtr
  restocked : x.1.BulkRestocked i slot conditional x.2 r y.2 es

/-- A clause without a slot is skipped, and otherwise its slot is met. -/
theorem Pending.pass (h : Pending x) (hpass : Pass conditional x y) :
    ∃ c pos rest, x.2.cPtr = (c, pos) :: rest ∧ x.1.bulkStep conditional c rest x.2 = .ok y ∧
      ((x.1.getSlotIdx c.size c.lbd = none ∧ y = (x.1, { x.2 with cPtr := rest })) ∨
        ∃ i slot r es, x.1.getSlotIdx c.size c.lbd = some i ∧ SlotPass conditional i slot x y r es) := by
  obtain ⟨c, pos, rest, hptr, hstep⟩ := hpass
  refine ⟨c, pos, rest, hptr, hstep, ?_⟩
  rw [bulkStep] at hstep
  cases hidx : x.1.getSlotIdx c.size c.lbd with
  | none =>
      rw [hidx] at hstep
      exact Or.inl ⟨rfl, (Except.ok.inj hstep).symm⟩
  | some i =>
      obtain ⟨hplace, slot, hslot⟩ := getSlotIdx_some hidx
      rw [hidx] at hstep
      simp only [hslot] at hstep
      have hplace : x.1.place (c, pos) = i := hplace
      have hcomp := (h.compatible_iff hslot (hptr ▸ List.mem_cons_self ..)).mpr hplace
      obtain ⟨db', s', hok, hins⟩ :=
        @Sound.insertBulk κ slot conditional x.2 (fun _ => True) x.1 i h.sound hslot h.proper fun _ _ => trivial
      obtain rfl := Except.ok.inj (hok.symm.trans hstep)
      obtain ⟨r, es, hdb, hrestocked⟩ := h.sound.insertBulk_restocked hslot h.proper hok
      refine Or.inr ⟨i, slot, r, es, rfl, hslot, ?_, h.place_behind hslot hptr hplace, hdb, hins.cPtr_eq, hrestocked⟩
      rw [hptr, ClauseSlot.groupOf_cons hcomp]
      simp

section SlotPass

variable {r : Insertion (BulkState κ)} {es : List BulkEvent}

theorem SlotPass.advances (hx : Pending x) (h : SlotPass conditional i slot x y r es) : Advances x y := by
  have hparts := slot.groupOf_append_behind x.2.cPtr
  have hpartition : y.1.maxLbdPartitionedSize = x.1.maxLbdPartitionedSize := by
    rw [h.db_eq]
    exact h.restocked.restocked.partition_eq
  have hplace : y.1.place = x.1.place := by
    funext a
    rw [place, place, hpartition]
  have hsuffix : y.2.cPtr <:+ x.2.cPtr := by
    rw [h.cPtr_eq]
    exact List.dropWhile_suffix _
  have hpositions := hx.nodup
  rw [← hparts, List.map_append] at hpositions
  refine ⟨⟨?_, ?_, ?_, ?_, ?_⟩, hpartition, hsuffix, ?_, ?_, ?_⟩
  · rw [h.db_eq]
    exact h.restocked.sound
  · intro a ha
    rw [hpartition]
    exact hx.encodable a (hsuffix.subset ha)
  · rw [hplace]
    exact hx.sorted.sublist hsuffix.sublist
  · exact hx.nodup.sublist (hsuffix.sublist.map _)
  · intro a ha e he hpos
    rcases h.restocked.events_mem he with he | ⟨b, hb, hpos'⟩
    · exact hx.untouched a (hsuffix.subset ha) e he hpos
    · rw [h.cPtr_eq] at ha
      refine List.disjoint_of_nodup_append hpositions (List.mem_map_of_mem hb) ?_
      rw [← hpos', hpos]
      exact List.mem_map_of_mem ha
  · obtain ⟨es', hev, -⟩ := h.restocked.restocked.events_eq
    exact ⟨es'.map ClauseSlot.bulkEvent ++ es, by rw [h.restocked.events_eq, hev, List.append_assoc]⟩
  · intro e he
    refine (h.restocked.events_mem he).imp_right ?_
    rintro ⟨a, ha, hpos⟩
    exact ⟨a, hparts ▸ List.mem_append_left _ ha, hpos⟩
  · intro j hj
    obtain ⟨a, ha⟩ := List.exists_mem_of_ne_nil _ h.group_ne
    have hmem : a ∈ x.2.cPtr := hparts ▸ List.mem_append_left _ ha
    have hi := (hx.compatible_iff h.slot_eq hmem).mp (slot.compatible_groupOf x.2.cPtr a ha)
    have := hj a hmem
    rw [h.db_eq]
    exact h.restocked.restocked.slots_eq (by omega)

theorem SlotPass.getLast?_eq (h : SlotPass conditional i slot x y r es)
    (hbehind : slot.behind x.2.cPtr ≠ []) :
    (x.2.cPtr.map Prod.fst).getLast? = (y.2.cPtr.map Prod.fst).getLast? := by
  have hmap : (slot.behind x.2.cPtr).map Prod.fst ≠ [] := by simpa using hbehind
  rw [h.cPtr_eq]
  nth_rewrite 1 [← slot.groupOf_append_behind x.2.cPtr]
  rw [List.map_append, List.getLast?_append_of_ne_nil _ hmap]

theorem SlotPass.meetsAgain_iff (h : SlotPass conditional i slot x y r es)
    (hidx : x.1.getSlotIdx c.size c.lbd = some i) (hptr : x.2.cPtr = (c, pos) :: rest) :
    MeetsAgain conditional x ↔ Reaffirmed (asks conditional)
      ((slot.opens slot.inner).map (Chunk.room slot.entrySize)) x.2.filter (slot.groupOf x.2.cPtr) := by
  constructor
  · intro hmeets
    exact hmeets c pos rest i slot hptr hidx h.slot_eq
  · intro hagain c' pos' rest' j slot₁ hptr' hidx' hslot₁
    rw [hptr] at hptr'
    obtain ⟨⟨rfl, rfl⟩, rfl⟩ := by simpa using hptr'
    obtain rfl := Option.some.inj (hidx.symm.trans hidx')
    obtain rfl := Option.some.inj (h.slot_eq.symm.trans hslot₁)
    exact hagain

end SlotPass

theorem Pending.advances (h : Pending x) (hpass : Pass conditional x y) : Advances x y := by
  obtain ⟨c, pos, rest, hptr, -, ⟨-, rfl⟩ | ⟨i, slot, r, es, -, hslotPass⟩⟩ := h.pass hpass
  · have hsuffix : rest <:+ x.2.cPtr := hptr ▸ List.suffix_cons ..
    exact ⟨⟨h.sound, fun a ha => h.encodable a (hsuffix.subset ha), h.sorted.sublist hsuffix.sublist,
      h.nodup.sublist (hsuffix.sublist.map _), fun a ha => h.untouched a (hsuffix.subset ha)⟩, rfl, hsuffix,
      List.prefix_rfl, fun _ he => Or.inl he, fun _ _ => rfl⟩
  · exact hslotPass.advances h

theorem Pending.advances_of_passes (h : Pending x) (hpasses : Relation.ReflTransGen (Pass conditional) x y) :
    Advances x y := by
  induction hpasses with
  | refl => exact .refl h
  | tail _ hpass ih => exact ih.trans (ih.pending.advances hpass)

section Supply

variable {r : Insertion (BulkState κ)} {es : List BulkEvent} (h : SlotPass conditional i slot x y r es)
  (hyz : Advances y z)

include h hyz

/-- A clause that meets the condition at a chunk of the slot is admitted. -/
theorem SlotPass.mem_admittedIn {a : Clause × Nat} (ha : .asked a true ∈ (slot.filling conditional x.2).events) :
    a ∈ slot.admittedIn x.2.cPtr z.2.events := by
  have hgroup : a ∈ slot.groupOf x.2.cPtr := (slot.filling_spec conditional x.2).item_mem _ ha
  have hevent : BulkEvent.evaluated a.2 true ∈ z.2.events := by
    refine hyz.starts.subset ?_
    rw [h.restocked.events_eq]
    exact List.mem_append_left _ (h.restocked.restocked.filling_mem ha)
  rw [ClauseSlot.admittedIn, List.mem_filter]
  refine ⟨?_, by simp [slot.compatible_groupOf x.2.cPtr a hgroup, hevent]⟩
  rw [← slot.groupOf_append_behind x.2.cPtr]
  exact List.mem_append_left _ hgroup

theorem SlotPass.packed_sublist :
    (packedItems (slot.filling conditional x.2).events).Sublist (slot.admittedIn x.2.cPtr z.2.events) := by
  obtain ⟨done, hdone, hsub⟩ := (slot.filling_spec conditional x.2).passed
  have hsub : (packedItems (slot.filling conditional x.2).events).Sublist x.2.cPtr := by
    rw [← slot.groupOf_append_behind x.2.cPtr, hdone, List.append_assoc]
    exact hsub.trans (List.sublist_append_left _ _)
  have hall : ∀ a ∈ packedItems (slot.filling conditional x.2).events, a ∈ slot.admittedIn x.2.cPtr z.2.events :=
    fun a ha => h.mem_admittedIn hyz (BinFilling.fillAll_asked_of_packed (BinFilling.mem_packedItems.mp ha))
  rw [ClauseSlot.admittedIn, ← List.filter_eq_self.mpr fun a ha => (List.mem_filter.mp (hall a ha)).2]
  exact hsub.filter _

theorem SlotPass.left_eq_nil (hx : Pending x) (hfits : x.1.Fits x.2.cPtr z.2.events)
    (hopens : slot.opens slot.inner ≠ []) : (slot.filling conditional x.2).left = [] := by
  have hspec := slot.filling_spec conditional x.2
  by_contra hleft
  obtain ⟨a, rest, hcons⟩ := List.exists_cons_of_ne_nil hleft
  have hrefused := hspec.refused (by simpa using hopens) a (by rw [hcons]; rfl)
  have hle := hfits i slot h.slot_eq
  have hlen := hspec.full hleft
  have hsub := h.packed_sublist hyz
  have hpacked : a ∉ packedItems (slot.filling conditional x.2).events := by
    obtain ⟨done, hdone, hsub⟩ := hspec.passed
    have hnodup : (slot.groupOf x.2.cPtr).Nodup :=
      (List.Nodup.of_map _ hx.nodup).sublist (List.takeWhile_sublist _)
    rw [hdone] at hnodup
    intro ha
    exact List.disjoint_of_nodup_append hnodup (hsub.subset ha) (hcons ▸ List.mem_cons_self ..)
  have hequal := hsub.eq_of_length_le (hle.trans hlen.ge)
  exact hpacked (hequal ▸ h.mem_admittedIn hyz hrefused)

/-- What is admitted has met the condition at a chunk, unless some clause is left. -/
theorem SlotPass.asked_of_mem (hx : Pending x)
    (hdealt : slot.Dealt x.2.cPtr x.2 (slot.filling conditional x.2) r.state)
    (hleft : (slot.filling conditional x.2).left = []) {a : Clause × Nat}
    (ha : a ∈ slot.admittedIn x.2.cPtr z.2.events) : .asked a true ∈ (slot.filling conditional x.2).events := by
  obtain ⟨hmem, hcomp, hevent⟩ : a ∈ x.2.cPtr ∧ slot.isClauseCompatible a.1 = true ∧
      BulkEvent.evaluated a.2 true ∈ z.2.events := by
    simpa [ClauseSlot.admittedIn] using ha
  have hinj : ∀ b ∈ x.2.cPtr, b.2 = a.2 → b = a := fun b hb hpos => List.inj_on_of_nodup_map hx.nodup hb hmem hpos
  have hparts := slot.groupOf_append_behind x.2.cPtr
  rcases hyz.events _ hevent with hevent | ⟨b, hb, hpos⟩
  · rw [h.restocked.events_eq, hdealt.events_eq] at hevent
    rcases List.mem_append.mp hevent with hevent | hevent
    · rcases List.mem_append.mp hevent with hevent | hevent
      · exact absurd rfl (hx.untouched a hmem _ hevent)
      · obtain ⟨e, he, heq⟩ := List.mem_map.mp hevent
        cases e with
        | packed b => cases heq
        | asked b verdict =>
            obtain ⟨hpos, rfl⟩ := BulkEvent.evaluated.inj heq
            have hb : b ∈ slot.groupOf x.2.cPtr := (slot.filling_spec conditional x.2).item_mem _ he
            obtain rfl := hinj b (hparts ▸ List.mem_append_left _ hb) hpos
            exact he
    · obtain ⟨⟨b, hb, -⟩, -⟩ := h.restocked.rest _ hevent
      rw [hdealt.groupOf_eq (by rw [hleft]; exact List.nil_subset _), hleft] at hb
      cases hb
  · rw [h.cPtr_eq] at hb
    obtain rfl := hinj b (hparts ▸ List.mem_append_right _ hb) hpos.symm
    have hplace := (hx.compatible_iff h.slot_eq hmem).mp hcomp
    have := h.place_behind b hb
    omega

/-- A slot that takes no chunk is supplied if and only if a clause that a chunk refuses meets the condition again. -/
theorem SlotPass.supplied_iff (hx : Pending x)
    (hdealt : slot.Dealt x.2.cPtr x.2 (slot.filling conditional x.2) r.state)
    (hfits : x.1.Fits x.2.cPtr z.2.events) (hnum : slot'.numChunks = slot.numChunks)
    (hstored : stored slot.entrySize slot'.inner =
      stored slot.entrySize slot.inner + ↑(slot.packedEntries (slot.filling conditional x.2).events)) :
    slot.Supplied x.2.cPtr z.2.events slot' ↔ Reaffirmed (asks conditional)
      ((slot.opens slot.inner).map (Chunk.room slot.entrySize)) x.2.filter (slot.groupOf x.2.cPtr) := by
  have hsub := h.packed_sublist hyz
  constructor
  · intro hsupplied
    by_contra hnot
    have hnodup : (slot.groupOf x.2.cPtr).Nodup :=
      (List.Nodup.of_map _ hx.nodup).sublist (List.takeWhile_sublist _)
    obtain ⟨a, hasked, hpacked, -⟩ := BinFilling.exists_lost hnodup hnot
    have hequal : packedItems (slot.filling conditional x.2).events = slot.admittedIn x.2.cPtr z.2.events := by
      refine hsub.eq_of_length ?_
      have hcard := congrArg Multiset.card (hstored.symm.trans hsupplied.stored_eq)
      simpa [ClauseSlot.packedEntries] using hcard
    exact hpacked (hequal ▸ h.mem_admittedIn hyz hasked)
  · intro hagain
    have hequal : packedItems (slot.filling conditional x.2).events = slot.admittedIn x.2.cPtr z.2.events := by
      refine hsub.eq_of_length_le ?_
      have hnodup : (slot.admittedIn x.2.cPtr z.2.events).Nodup := (List.Nodup.of_map _ hx.nodup).filter _
      by_cases hopens : slot.opens slot.inner = []
      · have hle := hfits i slot h.slot_eq
        rw [ClauseSlot.freeSpace, hopens] at hle
        exact hle.trans (Nat.zero_le _)
      · have hleft := h.left_eq_nil hyz hx hfits hopens
        refine (hnodup.subperm fun a ha => ?_).length_le
        rcases BinFilling.kept_of_reaffirmed hagain (h.asked_of_mem hyz hx hdealt hleft ha) with hpacked | hhead
        · exact hpacked
        · have hhead : a ∈ (slot.filling conditional x.2).left.head? := hhead
          rw [hleft] at hhead
          cases hhead
    refine ⟨hnum, ?_⟩
    rw [hstored, ← hequal]
    rfl

end Supply

section Frugality

variable {r : Insertion (BulkState κ)} {es : List BulkEvent} {slot₁ : ClauseSlot} (hx : Pending x)
  (h : SlotPass conditional i slot x y r es)

include hx h

theorem SlotPass.admittedIn_other (hslot₁ : x.1.slots[j]? = some slot₁) (hij : j ≠ i) (events : List BulkEvent) :
    slot₁.admittedIn y.2.cPtr events = slot₁.admittedIn x.2.cPtr events := by
  have hgroup : slot₁.admittedIn (slot.groupOf x.2.cPtr) events = [] := by
    rw [ClauseSlot.admittedIn, List.filter_eq_nil_iff]
    intro a ha hadmitted
    have hmem : a ∈ x.2.cPtr := slot.groupOf_append_behind x.2.cPtr ▸ List.mem_append_left _ ha
    have hi := (hx.compatible_iff h.slot_eq hmem).mp (slot.compatible_groupOf x.2.cPtr a ha)
    have hj := (hx.compatible_iff hslot₁ hmem).mp (Bool.and_eq_true_iff.mp hadmitted).1
    exact hij (by exact_mod_cast hj.symm.trans hi)
  have hparts : slot₁.admittedIn x.2.cPtr events =
      slot₁.admittedIn (slot.groupOf x.2.cPtr) events ++ slot₁.admittedIn (slot.behind x.2.cPtr) events := by
    rw [ClauseSlot.admittedIn, ClauseSlot.admittedIn, ClauseSlot.admittedIn, ← List.filter_append,
      slot.groupOf_append_behind]
  rw [h.cPtr_eq, hparts, hgroup, List.nil_append]

theorem SlotPass.admittedIn_same (hslot₁ : y.1.slots[i]? = some slot₁) (events : List BulkEvent) :
    slot₁.admittedIn y.2.cPtr events = [] := by
  have hadvances := h.advances hx
  rw [ClauseSlot.admittedIn, List.filter_eq_nil_iff]
  intro a ha hadmitted
  have hi := (hadvances.pending.compatible_iff hslot₁ ha).mp (Bool.and_eq_true_iff.mp hadmitted).1
  rw [hadvances.place_eq] at hi
  have := h.place_behind a (h.cPtr_eq ▸ ha)
  omega

theorem SlotPass.slot_eq_of_advances (hyz : Advances y z) : z.1.slots[i]? = y.1.slots[i]? := by
  have hadvances := h.advances hx
  refine hyz.slots i fun a ha => ?_
  rw [hadvances.place_eq]
  exact h.place_behind a (h.cPtr_eq ▸ ha)

theorem SlotPass.frugal_iff (hyz : Advances y z) (hdb : y.1 = x.1.setSlot i slot')
    (hfits : x.1.Fits x.2.cPtr z.2.events)
    (hdealt : slot.Dealt x.2.cPtr x.2 (slot.filling conditional x.2) r.state)
    (hheld : held slot'.inner = held slot.inner)
    (hstored : stored slot.entrySize slot'.inner =
      stored slot.entrySize slot.inner + ↑(slot.packedEntries (slot.filling conditional x.2).events)) :
    x.1.Frugal x.2.cPtr z.2.events z.1 ↔ Reaffirmed (asks conditional)
        ((slot.opens slot.inner).map (Chunk.room slot.entrySize)) x.2.filter (slot.groupOf x.2.cPtr) ∧
      y.1.Frugal y.2.cPtr z.2.events z.1 := by
  have hlt := (List.getElem?_eq_some_iff.mp h.slot_eq).1
  have hslot' : y.1.slots[i]? = some slot' := by
    rw [hdb]
    exact List.getElem?_set_self hlt
  have hother : ∀ j, j ≠ i → y.1.slots[j]? = x.1.slots[j]? := by
    intro j hj
    rw [hdb]
    exact List.getElem?_set_ne (Ne.symm hj)
  have hnum : slot'.numChunks = slot.numChunks := by
    rw [((h.advances hx).pending.sound.slots i slot' hslot').sound.count,
      (hx.sound.slots i slot h.slot_eq).sound.count, hheld]
  have hsupplied := h.supplied_iff hyz hx hdealt hfits hnum hstored
  have hmgr : y.1.chunkMgr = x.1.chunkMgr := by rw [hdb]; rfl
  have hz : z.1.slots[i]? = some slot' := (h.slot_eq_of_advances hx hyz).trans hslot'
  constructor
  · intro hfrugal
    refine ⟨hsupplied.mp (hfrugal.supplied i slot slot' h.slot_eq hz), hfrugal.chunkMgr_eq.trans hmgr.symm, ?_⟩
    intro j slot₁ slot₂ hslot₁ hslot₂
    by_cases hj : j = i
    · subst hj
      obtain rfl := Option.some.inj (hslot'.symm.trans hslot₁)
      obtain rfl := Option.some.inj (hz.symm.trans hslot₂)
      exact ⟨rfl, by rw [h.admittedIn_same hx hslot₁]; exact (add_zero _).symm⟩
    · have hslot₁' := (hother j hj).symm.trans hslot₁
      exact (hfrugal.supplied j slot₁ slot₂ hslot₁' hslot₂).congr (h.admittedIn_other hx hslot₁' hj _)
  · rintro ⟨hagain, hfrugal⟩
    refine ⟨hfrugal.chunkMgr_eq.trans hmgr, ?_⟩
    intro j slot₁ slot₂ hslot₁ hslot₂
    by_cases hj : j = i
    · subst hj
      obtain rfl := Option.some.inj (h.slot_eq.symm.trans hslot₁)
      obtain rfl := Option.some.inj (hz.symm.trans hslot₂)
      exact hsupplied.mpr hagain
    · exact (hfrugal.supplied j slot₁ slot₂ ((hother j hj).trans hslot₁) hslot₂).congr
        (h.admittedIn_other hx hslot₁ hj _).symm

theorem SlotPass.fits (hdb : y.1 = x.1.setSlot i slot') (hfits : x.1.Fits x.2.cPtr events) :
    y.1.Fits y.2.cPtr events := by
  intro j slot₁ hslot₁
  by_cases hj : j = i
  · subst hj
    rw [h.admittedIn_same hx hslot₁]
    exact Nat.zero_le _
  · have hslot₁' : x.1.slots[j]? = some slot₁ := by
      rw [hdb] at hslot₁
      exact (List.getElem?_set_ne (Ne.symm hj)).symm.trans hslot₁
    rw [h.admittedIn_other hx hslot₁' hj]
    exact hfits j slot₁ hslot₁'

theorem SlotPass.last_incompatible (hbehind : slot.behind x.2.cPtr ≠ []) :
    ∃ last ∈ (x.2.cPtr.map Prod.fst).getLast?, ¬slot.isClauseCompatible last := by
  have hmap : y.2.cPtr.map Prod.fst ≠ [] := by simpa [h.cPtr_eq] using hbehind
  have hlast := List.getLast?_eq_some_getLast hmap
  refine ⟨_, (h.getLast?_eq hbehind).trans hlast, fun hcomp => ?_⟩
  obtain ⟨a, ha, heq⟩ := List.mem_map.mp (List.getLast_mem hmap)
  rw [h.cPtr_eq] at ha
  have hmem : a ∈ x.2.cPtr := slot.groupOf_append_behind x.2.cPtr ▸ List.mem_append_right _ ha
  rw [← heq, hx.compatible_iff h.slot_eq hmem] at hcomp
  have := h.place_behind a ha
  omega

theorem SlotPass.sufficient_iff (hdb : y.1 = x.1.setSlot i slot')
    (hkept : slot.Finishes conditional x.2 ∨ x.1.Exhausted i) :
    x.1.Sufficient (x.2.cPtr.map Prod.fst) ↔ y.1.Sufficient (y.2.cPtr.map Prod.fst) := by
  have hidx : y.1.getSlotIdx = x.1.getSlotIdx := by
    funext size lbd
    simp [getSlotIdx, hdb, setSlot]
  have hslots : ∀ j, j ≠ i → y.1.slots[j]? = x.1.slots[j]? := by
    intro j hj
    rw [hdb]
    exact List.getElem?_set_ne (Ne.symm hj)
  have hexhausted : ∀ j, i ≤ j → (y.1.Exhausted j ↔ x.1.Exhausted j) := fun j hj => by
    rw [hdb]
    exact exhausted_setSlot hj
  have hright : ∀ a ∈ slot.behind x.2.cPtr, ∀ j, x.1.getSlotIdx a.1.size a.1.lbd = some j → i < j := by
    intro a ha j hj
    have hplace : x.1.place a = j := (getSlotIdx_some hj).1
    have := h.place_behind a ha
    omega
  constructor
  · intro hsufficient c hc j slot₁ hj hslot₁
    obtain ⟨a, ha, rfl⟩ := List.mem_map.mp hc
    rw [hidx] at hj
    rw [h.cPtr_eq] at ha
    have hij := hright a ha j hj
    have hmem : a ∈ x.2.cPtr := slot.groupOf_append_behind x.2.cPtr ▸ List.mem_append_right _ ha
    rw [← h.getLast?_eq (List.ne_nil_of_mem ha), hexhausted j hij.le]
    exact hsufficient a.1 (List.mem_map_of_mem hmem) j slot₁ hj ((hslots j (by omega)).symm.trans hslot₁)
  · intro hsufficient c hc j slot₁ hj hslot₁
    obtain ⟨a, ha, rfl⟩ := List.mem_map.mp hc
    have hparts := ha
    rw [← slot.groupOf_append_behind x.2.cPtr] at hparts
    rcases List.mem_append.mp hparts with hgroup | hbehind
    · have hplace : x.1.place a = j := (getSlotIdx_some hj).1
      have hi := (hx.compatible_iff h.slot_eq ha).mp (slot.compatible_groupOf x.2.cPtr a hgroup)
      obtain rfl : j = i := by exact_mod_cast hplace.symm.trans hi
      obtain rfl := Option.some.inj (h.slot_eq.symm.trans hslot₁)
      exact hkept.imp_left fun hfin => ⟨hfin.1, h.last_incompatible hx hfin.2.2⟩
    · have hij := hright a hbehind j hj
      rw [h.getLast?_eq (List.ne_nil_of_mem hbehind), ← hexhausted j hij.le]
      refine hsufficient a.1 (List.mem_map_of_mem ?_) j slot₁ (hidx ▸ hj) ((hslots j (by omega)).trans hslot₁)
      rw [h.cPtr_eq]
      exact hbehind

theorem SlotPass.not_frugal (hyz : Advances y z) (hslot' : y.1.slots[i]? = some slot')
    (hheld : held slot'.inner = held slot.inner + 1) : ¬x.1.Frugal x.2.cPtr z.2.events z.1 := by
  intro hfrugal
  have hz : z.1.slots[i]? = some slot' := (h.slot_eq_of_advances hx hyz).trans hslot'
  have hnum := (hfrugal.supplied i slot slot' h.slot_eq hz).numChunks_eq
  rw [((h.advances hx).pending.sound.slots i slot' hslot').sound.count,
    (hx.sound.slots i slot h.slot_eq).sound.count, hheld] at hnum
  omega

theorem SlotPass.not_sufficient (hyz : Advances y z) (hfits : x.1.Fits x.2.cPtr z.2.events)
    (hfin : ¬slot.Finishes conditional x.2) (hmore : ¬x.1.Exhausted i) :
    ¬x.1.Sufficient (x.2.cPtr.map Prod.fst) := by
  intro hsufficient
  obtain ⟨a, ha⟩ := List.exists_mem_of_ne_nil _ h.group_ne
  have hmem : a ∈ x.2.cPtr := slot.groupOf_append_behind x.2.cPtr ▸ List.mem_append_left _ ha
  have hidx := hx.sound.getSlotIdx_of_compatible h.slot_eq (slot.compatible_groupOf x.2.cPtr a ha)
  rcases hsufficient a.1 (List.mem_map_of_mem hmem) i slot hidx h.slot_eq with ⟨hopens, last, hlast, hnot⟩ | hex
  · refine hfin ⟨hopens, h.left_eq_nil hyz hx hfits hopens, fun hbehind => hnot ?_⟩
    obtain ⟨b, hb, rfl⟩ := List.mem_map.mp (List.mem_of_getLast? hlast)
    refine slot.compatible_groupOf x.2.cPtr b ?_
    have hparts := slot.groupOf_append_behind x.2.cPtr
    rw [hbehind, List.append_nil] at hparts
    rwa [hparts]
  · exact hmore hex

end Frugality

theorem frugal_skip (hx : Pending x) (hptr : x.2.cPtr = (c, pos) :: rest)
    (hidx : x.1.getSlotIdx c.size c.lbd = none) (events : List BulkEvent) :
    (x.1.Fits x.2.cPtr events ↔ x.1.Fits rest events) ∧
      (x.1.Frugal x.2.cPtr events db' ↔ x.1.Frugal rest events db') ∧
      (x.1.Sufficient (x.2.cPtr.map Prod.fst) ↔ x.1.Sufficient (rest.map Prod.fst)) := by
  have hadmitted : ∀ (i : Nat) (slot : ClauseSlot), x.1.slots[i]? = some slot →
      slot.admittedIn x.2.cPtr events = slot.admittedIn rest events := by
    intro i slot hslot
    have hnot : ¬slot.isClauseCompatible c := by
      intro hc
      rw [hx.sound.getSlotIdx_of_compatible hslot hc] at hidx
      cases hidx
    rw [hptr, ClauseSlot.admittedIn, List.filter_cons_of_neg (by simp [hnot]), ClauseSlot.admittedIn]
  have hlast : ∀ a ∈ rest, (x.2.cPtr.map Prod.fst).getLast? = (rest.map Prod.fst).getLast? := by
    intro a ha
    have hne : rest.map Prod.fst ≠ [] := List.ne_nil_of_mem (List.mem_map_of_mem ha)
    rw [hptr, List.map_cons, ← List.singleton_append, List.getLast?_append_of_ne_nil _ hne]
  refine ⟨⟨?_, ?_⟩, ⟨?_, ?_⟩, ⟨?_, ?_⟩⟩
  · intro hfits i slot hslot
    rw [← hadmitted i slot hslot]
    exact hfits i slot hslot
  · intro hfits i slot hslot
    rw [hadmitted i slot hslot]
    exact hfits i slot hslot
  · rintro ⟨hmgr, hsupplied⟩
    exact ⟨hmgr, fun i slot slot' hslot hslot' =>
      (hsupplied i slot slot' hslot hslot').congr (hadmitted i slot hslot).symm⟩
  · rintro ⟨hmgr, hsupplied⟩
    exact ⟨hmgr, fun i slot slot' hslot hslot' => (hsupplied i slot slot' hslot hslot').congr (hadmitted i slot hslot)⟩
  · intro hsufficient d hd i slot hi hslot
    obtain ⟨a, ha, rfl⟩ := List.mem_map.mp hd
    rw [← hlast a ha]
    exact hsufficient a.1 (List.mem_map_of_mem (hptr ▸ List.mem_cons_of_mem _ ha)) i slot hi hslot
  · intro hsufficient d hd i slot hi hslot
    obtain ⟨a, ha, rfl⟩ := List.mem_map.mp hd
    rw [hptr] at ha
    rcases List.mem_cons.mp ha with rfl | ha
    · rw [hidx] at hi
      cases hi
    · rw [hlast a ha]
      exact hsufficient a.1 (List.mem_map_of_mem ha) i slot hi hslot

theorem frugal_iff_of_passes (hpasses : Relation.ReflTransGen (Pass conditional) x z) (hz : z.2.cPtr = [])
    (hx : Pending x) (hfits : x.1.Fits x.2.cPtr z.2.events) :
    x.1.Frugal x.2.cPtr z.2.events z.1 ↔
      x.1.Sufficient (x.2.cPtr.map Prod.fst) ∧ AlwaysAgain conditional x := by
  induction hpasses using Relation.ReflTransGen.head_induction_on with
  | refl =>
      have hfrugal : z.1.Frugal z.2.cPtr z.2.events z.1 := by
        refine ⟨rfl, fun i slot slot' hslot hslot' => ?_⟩
        obtain rfl := Option.some.inj (hslot.symm.trans hslot')
        exact ⟨rfl, by rw [hz]; exact (add_zero _).symm⟩
      have hagain : AlwaysAgain conditional z := by
        intro y hy
        rcases hy.cases_head with rfl | ⟨y', ⟨c, pos, rest, hptr, -⟩, -⟩
        · intro c pos rest i slot hptr
          rw [hz] at hptr
          cases hptr
        · rw [hz] at hptr
          cases hptr
      exact iff_of_true hfrugal ⟨by rw [hz]; exact fun c hc => absurd hc List.not_mem_nil, hagain⟩
  | @head x y hpass hrest ih =>
      have hyz := (hx.advances hpass).pending.advances_of_passes hrest
      obtain ⟨c, pos, rest, hptr, hstep, ⟨hidx, rfl⟩ | ⟨i, slot, r, es, hidx, hslot⟩⟩ := hx.pass hpass
      · obtain ⟨hfits', hfrugal, hsufficient⟩ := @frugal_skip κ c pos rest z.1 x hx hptr hidx z.2.events
        have hmeets : MeetsAgain conditional x := by
          intro c' pos' rest' i slot hptr' hidx'
          rw [hptr] at hptr'
          obtain ⟨⟨rfl, rfl⟩, rfl⟩ := by simpa using hptr'
          rw [hidx] at hidx'
          cases hidx'
        rw [hfrugal, hsufficient, AlwaysAgain, always_cons hptr hstep, ih (hx.advances hpass).pending (hfits'.mp hfits)]
        simp only [hmeets, true_and]
        rfl
      · have hagain := hslot.meetsAgain_iff hidx hptr
        rw [AlwaysAgain, always_cons hptr hstep, hagain]
        cases hslot.restocked.restocked with
        | @kept result slot' s' hkept _ hheld hstored hdealt =>
            have hdb : y.1 = x.1.setSlot i slot' := hslot.db_eq
            rw [hslot.frugal_iff hx hyz hdb hfits ⟨hdealt.events_eq, hdealt.filter_eq, hdealt.cPtr_eq⟩ hheld hstored,
              ih (hx.advances hpass).pending (hslot.fits hx hdb hfits), hslot.sufficient_iff hx hdb hkept,
              and_left_comm]
            rfl
        | @grown result slot₁ slot' s' db₁ stolen o hfin hmore _ _ _ _ hobt _ hheld _ _ _ _ =>
            have hlt := (List.getElem?_eq_some_iff.mp hslot.slot_eq).1
            have hslot₁ : db₁.slots[i]? = some slot₁ := hobt.slot_eq.trans (List.getElem?_set_self hlt)
            have hslot' : y.1.slots[i]? = some slot' := by
              rw [hslot.db_eq]
              exact List.getElem?_set_self (List.getElem?_eq_some_iff.mp hslot₁).1
            exact iff_of_false (hslot.not_frugal hx hyz hslot' hheld) fun hboth =>
              hslot.not_sufficient hx hyz hfits hfin hmore hboth.1

theorem passes_of_bulkLoop {fuel : Nat} (h : bulkLoop conditional fuel db s = .ok y) :
    Relation.ReflTransGen (Pass conditional) (db, s) y ∧ y.2.cPtr = [] := by
  induction fuel generalizing db s with
  | zero =>
      cases hptr : s.cPtr with
      | nil =>
          rw [bulkLoop_nil _ hptr] at h
          obtain rfl := Except.ok.inj h
          exact ⟨.refl, hptr⟩
      | cons a rest =>
          rw [bulkLoop.eq_def] at h
          simp only [hptr] at h
          cases h
  | succ fuel ih =>
      cases hptr : s.cPtr with
      | nil =>
          rw [bulkLoop_nil _ hptr] at h
          obtain rfl := Except.ok.inj h
          exact ⟨.refl, hptr⟩
      | cons a rest =>
          rw [bulkLoop_cons fuel hptr] at h
          obtain ⟨x, hstep, hrest⟩ := Runs.exists_of_bind_eq_ok h
          obtain ⟨hpasses, hend⟩ := ih hrest
          exact ⟨.head ⟨a.1, a.2, rest, hptr, hstep⟩ hpasses, hend⟩

/-- Where the clauses that meet the condition fit into the chunks of their slots, a call takes no chunk and supplies
every slot if and only if the chunks are sufficient and no clause is refused on second thought. -/
theorem bulkAddClauses_frugal_iff (db : AdaptiveClauseDatabase) (clauses deferredOut : List Clause)
    (stats : SolvingStatistics) (conditional : Conditional κ) (filter : κ) (h : db.Sound)
    (hclauses : ∀ c ∈ clauses, c.Encodable db.maxLbdPartitionedSize)
    (hsorted : clauses.Pairwise fun c d => slotPosition db.maxLbdPartitionedSize c.size c.lbd ≤
      slotPosition db.maxLbdPartitionedSize d.size d.lbd)
    (hfits : ∀ db' s, db.bulkAddClauses clauses deferredOut stats conditional filter = .ok (db', s) →
      db.Fits clauses.zipIdx s.events) :
    (∃ db' s, db.bulkAddClauses clauses deferredOut stats conditional filter = .ok (db', s) ∧
      db.Frugal clauses.zipIdx s.events db') ↔
    db.Sufficient clauses ∧ AlwaysAgain conditional (db, .start clauses deferredOut stats filter) := by
  have hpending := pending_start deferredOut stats filter h hclauses hsorted
  have hs : ∀ x ∈ clauses.zipIdx, x.1.Encodable db.maxLbdPartitionedSize := hpending.encodable
  obtain ⟨db', s, hok, -, -⟩ :=
    @Sound.bulkLoop κ conditional (.start clauses deferredOut stats filter) db h clauses.length hs
      (by simp [BulkState.start])
  obtain ⟨hpasses, hend⟩ := passes_of_bulkLoop hok
  have hiff := frugal_iff_of_passes hpasses hend hpending (hfits db' s hok)
  rw [BulkState.start, List.zipIdx_map_fst] at hiff
  constructor
  · rintro ⟨db₁, s₁, hok₁, hfrugal⟩
    obtain ⟨rfl, rfl⟩ := Prod.mk.inj (Except.ok.inj (hok.symm.trans hok₁))
    exact hiff.mp hfrugal
  · intro hcondition
    exact ⟨db', s, hok, hiff.mpr hcondition⟩

theorem alwaysAgain_of_stateless
    (hconditional : ∀ filter filter' c, (conditional filter c).1 = (conditional filter' c).1) :
    AlwaysAgain conditional x := by
  intro y _ c pos rest i slot _ _ _
  exact BinFilling.reaffirmed_of_stateless (fun filter filter' a => hconditional filter filter' a.1) _ _ _

def twoChunks : AdaptiveClauseDatabase :=
  ((new 2 2 6 2 false).addClauses [⟨[1, 2], 2⟩, ⟨[3], 1⟩]).getD (new 2 2 6 2 false)

theorem twoChunks_sound : twoChunks.Sound := by
  have hadded : (new 2 2 6 2 false).addClauses [⟨[1, 2], 2⟩, ⟨[3], 1⟩] = some twoChunks := by decide +kernel
  obtain ⟨hstores, hroomy⟩ := stores_new 2 2 6 2 false
  exact (hstores.addClauses (hroomy (by decide)) (by simp) hadded).sound

def admitAll (_ : Unit) (_ : Clause) : Bool × Unit := (true, ())

theorem encodable_twoChunks : ∀ c ∈ ([⟨[4], 1⟩, ⟨[5, 6], 2⟩] : List Clause),
    c.Encodable twoChunks.maxLbdPartitionedSize := by
  intro c hc
  obtain rfl | rfl : c = ⟨[4], 1⟩ ∨ c = ⟨[5, 6], 2⟩ := by simpa using hc
  · exact ⟨⟨0, by decide +kernel, fun _ => by decide +kernel⟩, by simp, by simp⟩
  · exact ⟨⟨1, by decide +kernel, fun _ => by decide +kernel⟩, by simp, by simp⟩

theorem fits_of_all (h : (db.slots.all fun slot => (slot.admittedIn xs events).length ≤ slot.freeSpace) = true) :
    db.Fits xs events := by
  intro i slot hslot
  simpa using List.all_eq_true.mp h slot (List.mem_of_getElem? hslot)

/-- Both slots have room, other clauses come behind those of the first one, and no chunk can be had for the other. -/
theorem bulkAddClauses_frugal_twoChunks : ∃ db' s,
    twoChunks.bulkAddClauses [⟨[4], 1⟩, ⟨[5, 6], 2⟩] [] {} admitAll () = .ok (db', s) ∧
      twoChunks.Frugal ([⟨[4], 1⟩, ⟨[5, 6], 2⟩] : List Clause).zipIdx s.events db' := by
  have hevents : (twoChunks.bulkAddClauses [⟨[4], 1⟩, ⟨[5, 6], 2⟩] [] {} admitAll ()).map (fun r => r.2.events) =
      .ok [.evaluated 0 true, .inserted 0, .evaluated 1 true, .inserted 1] := by decide +kernel
  refine (bulkAddClauses_frugal_iff twoChunks [⟨[4], 1⟩, ⟨[5, 6], 2⟩] [] {} admitAll () twoChunks_sound
    encodable_twoChunks (by decide +kernel) ?_).mpr ⟨?_, alwaysAgain_of_stateless fun _ _ _ => rfl⟩
  · intro db' s hok
    rw [hok] at hevents
    have hevents : s.events = [.evaluated 0 true, .inserted 0, .evaluated 1 true, .inserted 1] :=
      Except.ok.inj hevents
    rw [hevents]
    exact fits_of_all (by decide +kernel)
  · intro c hc i slot hidx hslot
    obtain rfl | rfl : c = ⟨[4], 1⟩ ∨ c = ⟨[5, 6], 2⟩ := by simpa using hc
    · obtain rfl : 0 = i := Option.some.inj ((by decide +kernel : twoChunks.getSlotIdx 1 1 = some 0).symm.trans hidx)
      have hopen : (twoChunks.slots[0]?).all (fun slot =>
          !(slot.opens slot.inner).isEmpty && !slot.isClauseCompatible ⟨[5, 6], 2⟩) = true := by decide +kernel
      rw [hslot, Option.all_some, Bool.and_eq_true] at hopen
      exact Or.inl ⟨by simpa using hopen.1, ⟨[5, 6], 2⟩, rfl, by simpa using hopen.2⟩
    · obtain rfl : 1 = i := Option.some.inj ((by decide +kernel : twoChunks.getSlotIdx 2 2 = some 1).symm.trans hidx)
      refine Or.inr ⟨by decide +kernel, fun j slot hj hslot => ?_⟩
      have hlength : twoChunks.slots.length = 2 := by decide +kernel
      have := (List.getElem?_eq_some_iff.mp hslot).1
      omega

/-- All clauses are inserted into the chunk of their slot, and yet a chunk with another clause is stolen: the
clauses have come to their end. -/
theorem chunk_stolen_at_the_end : twoChunks.Sound ∧
    (∀ c ∈ ([⟨[4], 1⟩] : List Clause), c.Encodable twoChunks.maxLbdPartitionedSize) ∧
    (∀ db' s, twoChunks.bulkAddClauses [⟨[4], 1⟩] [] {} admitAll () = .ok (db', s) →
      twoChunks.Fits ([⟨[4], 1⟩] : List Clause).zipIdx s.events) ∧
    ¬∃ db' s, twoChunks.bulkAddClauses [⟨[4], 1⟩] [] {} admitAll () = .ok (db', s) ∧
      twoChunks.Frugal ([⟨[4], 1⟩] : List Clause).zipIdx s.events db' := by
  have hresult : (twoChunks.bulkAddClauses [⟨[4], 1⟩] [] {} admitAll ()).map
      (fun r => (r.2.events, r.1.slots.map ClauseSlot.numChunks)) =
        .ok ([.evaluated 0 true, .inserted 0], [2, 0]) := by decide +kernel
  refine ⟨twoChunks_sound, fun c hc => encodable_twoChunks c (by simpa using Or.inl hc), ?_, ?_⟩
  · intro db' s hok
    rw [hok] at hresult
    have hevents : s.events = [.evaluated 0 true, .inserted 0] := (Prod.mk.inj (Except.ok.inj hresult)).1
    rw [hevents]
    exact fits_of_all (by decide +kernel)
  · rintro ⟨db', s, hok, hfrugal⟩
    rw [hok] at hresult
    have hnum : db'.slots.map ClauseSlot.numChunks = [2, 0] := (Prod.mk.inj (Except.ok.inj hresult)).2
    obtain ⟨slot, hslot, hone⟩ : ∃ slot, twoChunks.slots[0]? = some slot ∧ slot.numChunks = 1 :=
      Option.map_eq_some_iff.mp (by decide +kernel)
    obtain ⟨slot', hslot', htwo⟩ : ∃ slot', db'.slots[0]? = some slot' ∧ slot'.numChunks = 2 := by
      rw [← Option.map_eq_some_iff, ← List.getElem?_map, hnum]
      rfl
    have := (hfrugal.supplied 0 slot slot' hslot hslot').numChunks_eq
    omega

end AdaptiveClauseDatabase

end Mallob.Sharing
