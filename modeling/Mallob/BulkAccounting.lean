import Mallob.OfferedChunks
import Mallob.BufferRoundTrip

namespace Mallob.Sharing

open ClauseSlot (Proper admitted evaluations)

variable {κ : Type} {slot : ClauseSlot} {conditional : Conditional κ} {s s' : BulkState κ} {finished : Bool}
  {valid : Clause → Prop} {c : Clause} {pos : Nat} {cs rest : List (Clause × Nat)} {es : List BulkEvent}
  {filter filter' : κ}

namespace AdaptiveClauseDatabase

variable {db db' : AdaptiveClauseDatabase} {i : Nat}

/-- No clause is offered to a second chunk: there is no chunk with room at first, or the first one has
room for all clauses of the slot that meet the condition, or there is no further chunk. -/
def OfferedOnce (db : AdaptiveClauseDatabase) (i : Nat) (slot : ClauseSlot) (conditional : Conditional κ)
    (s : BulkState κ) : Prop :=
  match slot.opens slot.inner with
  | [] => True
  | chunk :: others =>
      slot.Takes chunk (admitted conditional s.filter (slot.groupOf s.cPtr)) ∨ (others = [] ∧ db.Exhausted i)

/-- A slot has at most one open chunk once one has been added to a slot without any. -/
theorem opens_extended {slot₁ slot₂ : ClauseSlot} {cells₁ : List Chunk} (hnone : slot.opens cells₁ = [])
    (hperm : slot₁.inner.Perm cells₁) (hext : slot₁.Extended slot₂) :
    slot.opens slot₂.inner = [] ∨ ∃ fresh, slot.opens slot₂.inner = [fresh] := by
  have hnone₁ : slot.opens slot₁.inner = [] := by
    have := hperm.filter fun chunk => !slot.isFull chunk && chunk.state ≠ .invalid
    rw [show cells₁.filter _ = [] from hnone] at this
    exact this.eq_nil
  obtain ⟨data, pre, post, fresh, hinner, -, hcase⟩ := hext.inner_eq
  have hparts : slot.opens pre = [] ∧ slot.opens post = [] := by
    rcases hcase with ⟨hpre, rfl⟩ | ⟨dead, hdead, hpre⟩
    · exact ⟨by rw [← hpre]; exact hnone₁, rfl⟩
    · rw [hpre, ClauseSlot.opens, List.filter_append, List.append_eq_nil_iff] at hnone₁
      refine ⟨hnone₁.1, ?_⟩
      have hpost : slot.opens (dead :: post) = [] := hnone₁.2
      rwa [ClauseSlot.opens_cons_closed (Or.inr hdead.state_eq)] at hpost
  have hsplit : slot.opens slot₂.inner = slot.opens pre ++ slot.opens (fresh :: post) := by
    rw [hinner, ClauseSlot.opens, List.filter_append]
    rfl
  rw [hsplit, hparts.1, List.nil_append]
  by_cases hclosed : slot.isFull fresh = true ∨ fresh.state = .invalid
  · rw [ClauseSlot.opens_cons_closed hclosed]
    exact Or.inl hparts.2
  · rw [ClauseSlot.opens_cons_open hclosed, hparts.2]
    exact Or.inr ⟨fresh, rfl⟩

theorem opens_fresh {slot₁ slot₂ : ClauseSlot} {cells : List Chunk} (hsome : slot.opens cells ≠ [])
    (hcells : ∀ c ∈ cells, c.Cell slot.entrySize) (hext : slot₁.Extended slot₂) :
    slot.opens slot₂.inner ≠ [] := by
  obtain ⟨data, fresh, hmem, hfresh⟩ := hext.exists_fresh
  obtain ⟨chunk, hchunk⟩ := List.exists_mem_of_ne_nil _ hsome
  rw [ClauseSlot.opens, List.mem_filter] at hchunk
  obtain ⟨hin, hopen⟩ := hchunk
  have hcapacity : ¬slot.isFull fresh = true := by
    have hnum := (hcells chunk hin).numElems_eq
    have hnot : ¬slot.isFull chunk = true := by
      simp only [Bool.and_eq_true, Bool.not_eq_true'] at hopen
      simp [hopen.1]
    simp only [ClauseSlot.isFull, decide_eq_true_eq, hfresh.numElems_eq, hnum] at hnot ⊢
    omega
  refine List.ne_nil_of_mem (a := fresh) ?_
  rw [ClauseSlot.opens, List.mem_filter]
  exact ⟨hmem, by simp [hcapacity, hfresh.state_eq]⟩

structure Offers (db : AdaptiveClauseDatabase) (i : Nat) (slot : ClauseSlot) (conditional : Conditional κ)
    (valid : Clause → Prop) (s : BulkState κ) (result : SlotResult) (s' : BulkState κ) : Prop where
  passes : slot.Passes s s'
  fails : slot.groupOf s'.cPtr = [] ∨ result = .totalFail
  once : db.OfferedOnce i slot conditional s → s' = s ∨ slot.Completes conditional valid s s' ∨ slot.Sticks conditional valid s s'
  twice : ¬db.OfferedOnce i slot conditional s →
    ∃ x ∈ slot.groupOf s.cPtr, evaluations x.2 s.events + 2 ≤ evaluations x.2 s'.events

theorem offers_of_first {cells' : List Chunk} {result : SlotResult} (hs : ∀ x ∈ s.cPtr, Proper x)
    (hvalid : ∀ c, slot.isClauseCompatible c → valid c) (hsound : slot.Sound)
    (hv : slot.visit (slot.bulkInserter conditional) slot.inner s = .ok (finished, cells', s'))
    (hend : finished = true ∨ result = .totalFail ∧ db.Exhausted i) :
    db.Offers i slot conditional valid s result s' := by
  obtain ⟨finished₁, cells₁, s₁, hv₁, hoffered, -, hfin, -⟩ :=
    @ClauseSlot.visit_offered κ slot conditional s valid slot.inner hs hvalid (ClauseSlot.entrySize_pos hsound)
      hsound.cell
  rw [hv] at hv₁
  obtain ⟨rfl, rfl, rfl⟩ := by simpa using hv₁
  have hfails : slot.groupOf s'.cPtr = [] ∨ result = .totalFail ∧ db.Exhausted i := by
    rcases hend with rfl | hend
    · exact Or.inl (by rw [hfin rfl, ClauseSlot.groupOf_behind])
    · exact Or.inr hend
  refine ⟨hoffered.passes, hfails.imp_right And.left, fun honce => ?_, fun htwice => ?_⟩
  · rw [OfferedOnce] at honce
    cases hopens : slot.opens slot.inner with
    | nil => exact Or.inl (hoffered.unchanged hopens)
    | cons chunk others =>
        rw [hopens] at honce
        by_cases htakes : slot.Takes chunk (admitted conditional s.filter (slot.groupOf s.cPtr))
        · exact Or.inr (Or.inl (hoffered.completes chunk others hopens htakes))
        · obtain ⟨rfl, -⟩ := honce.resolve_left htakes
          exact Or.inr (Or.inr (hoffered.sticks chunk hopens htakes))
  · rw [OfferedOnce] at htwice
    cases hopens : slot.opens slot.inner with
    | nil => rw [hopens] at htwice; exact absurd trivial htwice
    | cons chunk others =>
        rw [hopens] at htwice
        obtain ⟨hrefuses, hmore⟩ := not_or.mp htwice
        cases others with
        | nil =>
            have hsticks := hoffered.sticks chunk hopens hrefuses
            rcases hfails with hgroup | ⟨-, hex⟩
            · exact absurd hgroup hsticks.groupOf_ne'
            · exact absurd ⟨rfl, hex⟩ hmore
        | cons chunk' others => exact hoffered.repeats chunk chunk' others hopens hrefuses


theorem offers_of_second {cells₁ cells' : List Chunk} {s₁ : BulkState κ} {slot₁ slot₂ : ClauseSlot}
    (hs : ∀ x ∈ s.cPtr, Proper x) (hvalid : ∀ c, slot.isClauseCompatible c → valid c) (hsound : slot.Sound)
    (hv : slot.visit (slot.bulkInserter conditional) slot.inner s = .ok (false, cells₁, s₁))
    (hkind₁ : slot₁.kind = slot.kind) (hperm₁ : slot₁.inner.Perm cells₁) (hmore : ¬db.Exhausted i)
    (hext : slot₁.Extended slot₂)
    (hv' : slot₂.visit (slot.bulkInserter conditional) slot₂.inner s₁ = .ok (finished, cells', s')) :
    db.Offers i slot conditional valid s (if finished then .success else .totalFail) s' := by
  have hn := ClauseSlot.entrySize_pos hsound
  have hkind₂ : slot₂.kind = slot.kind := hext.kind_eq.trans hkind₁
  have hcells₂ : ∀ c ∈ slot₂.inner, c.Cell slot.entrySize := by
    rw [← entrySize_eq_of_kind hkind₂]
    exact hext.sound.cell
  obtain ⟨_, _, _, hv₁, hoffered, hsame, -, -⟩ :=
    @ClauseSlot.visit_offered κ slot conditional s valid slot.inner hs hvalid hn hsound.cell
  rw [hv] at hv₁
  obtain ⟨rfl, rfl, rfl⟩ := by simpa using hv₁
  obtain ⟨_, _, _, hv₂, hoffered', -, hfin, -⟩ :=
    @ClauseSlot.visit_offered κ slot conditional s₁ valid slot₂.inner (hoffered.passes.proper hs) hvalid hn hcells₂
  rw [ClauseSlot.visit_congr hkind₂] at hv'
  rw [hv'] at hv₂
  obtain ⟨rfl, rfl, rfl⟩ := by simpa using hv₂
  refine ⟨hoffered.passes.trans hoffered'.passes, ?_, fun honce => ?_, fun htwice => ?_⟩
  · cases finished with
    | true => exact Or.inl (by rw [hfin rfl, ClauseSlot.groupOf_behind])
    | false => exact Or.inr rfl
  · rw [OfferedOnce] at honce
    cases hopens : slot.opens slot.inner with
    | nil =>
        obtain rfl := hoffered.unchanged hopens
        rw [hsame hopens] at hperm₁
        rcases opens_extended hopens hperm₁ hext with hnone | ⟨fresh, hone⟩
        · exact Or.inl (hoffered'.unchanged hnone)
        · by_cases htakes : slot.Takes fresh (admitted conditional s₁.filter (slot.groupOf s₁.cPtr))
          · exact Or.inr (Or.inl (hoffered'.completes fresh [] hone htakes))
          · exact Or.inr (Or.inr (hoffered'.sticks fresh hone htakes))
    | cons chunk others =>
        rw [hopens] at honce
        rcases honce with htakes | ⟨-, hex⟩
        · exact Or.inr (Or.inl ((hoffered.completes chunk others hopens htakes).append hoffered'))
        · exact absurd hex hmore
  · rw [OfferedOnce] at htwice
    cases hopens : slot.opens slot.inner with
    | nil => rw [hopens] at htwice; exact absurd trivial htwice
    | cons chunk others =>
        rw [hopens] at htwice
        obtain ⟨hrefuses, -⟩ := not_or.mp htwice
        cases others with
        | nil =>
            have hsticks := hoffered.sticks chunk hopens hrefuses
            exact hsticks.repeats hoffered' (opens_fresh (by rw [hopens]; simp) hsound.cell hext)
        | cons chunk' others =>
            obtain ⟨x, hx, hle⟩ := hoffered.repeats chunk chunk' others hopens hrefuses
            exact ⟨x, hx, hle.trans (ClauseSlot.evaluations_le x.2 hoffered'.passes.starts)⟩

theorem Inserted.offers {r : Insertion (BulkState κ)} (hs : ∀ x ∈ s.cPtr, Proper x)
    (hvalid : ∀ c, slot.isClauseCompatible c → valid c) (hsound : slot.Sound)
    (h : Inserted db i slot (slot.bulkInserter conditional) s r) :
    db.Offers i slot conditional valid s r.result r.state := by
  cases h with
  | first hv _ _ => exact offers_of_first hs hvalid hsound hv (Or.inl rfl)
  | exhausted hv _ _ hex => exact offers_of_first hs hvalid hsound hv (Or.inr ⟨rfl, hex⟩)
  | second hv _ hkind₁ hperm₁ _ hmore hext hv' _ _ =>
      exact offers_of_second hs hvalid hsound hv hkind₁ hperm₁ hmore hext hv'

theorem Obtained.shape_eq {stolen : Option (Nat × Chunk)} (h : db.Obtained i db' stolen) :
    db'.maxLbdPartitionedSize = db.maxLbdPartitionedSize ∧ db'.slots.length = db.slots.length := by
  cases h with
  | allocated _ _ => exact ⟨rfl, rfl⟩
  | stolen _ _ _ _ _ _ _ _ => exact ⟨rfl, List.length_set ..⟩

theorem Inserted.shape_eq {σ : Type} {f : ClauseSlot.Inserter σ} {t : σ} {r : Insertion σ}
    (h : Inserted db i slot f t r) :
    r.db.maxLbdPartitionedSize = db.maxLbdPartitionedSize ∧ r.db.slots.length = db.slots.length := by
  cases h with
  | first _ _ _ => exact ⟨rfl, List.length_set ..⟩
  | exhausted _ _ _ _ => exact ⟨rfl, List.length_set ..⟩
  | second _ _ _ _ hobt _ _ _ _ _ =>
      have hlen : ∀ slot', (db.setSlot i slot').slots.length = db.slots.length := fun _ => List.length_set ..
      exact ⟨hobt.shape_eq.1, (List.length_set ..).trans (hobt.shape_eq.2.trans (hlen _))⟩

theorem SlotFor.compatible_iff {p : Nat} (h : SlotFor p i slot) : slot.isClauseCompatible c ↔ c.InBucket p i := by
  simp only [ClauseSlot.isClauseCompatible, h.size_eq, h.lbd_eq, h.uniform_eq, Bool.and_eq_true, decide_eq_true_eq,
    Bool.or_eq_true, Bool.not_eq_true', decide_eq_false_iff_not]
  constructor
  · rintro ⟨hsize, hlbd⟩
    exact ⟨hsize, fun hle => hlbd.resolve_left (not_not.mpr (hsize ▸ hle))⟩
  · intro hc
    refine ⟨hc.size_eq, ?_⟩
    by_cases hle : c.size ≤ p
    · exact Or.inr (hc.lbd_eq hle)
    · exact Or.inl (hc.size_eq ▸ hle)

theorem Sound.getSlotIdx_of_compatible (h : db.Sound) (hslot : db.slots[i]? = some slot)
    (hc : slot.isClauseCompatible c) : db.getSlotIdx c.size c.lbd = some i := by
  have hpos := ((h.slots i slot hslot).compatible_iff.mp hc).slotPosition_eq
  have hlt := (List.getElem?_eq_some_iff.mp hslot).1
  simp only [getSlotIdx, hpos]
  rw [if_pos ⟨Int.natCast_nonneg i, by exact_mod_cast hlt⟩]
  rfl

theorem Sound.compatible_of_getSlotIdx (h : db.Sound) (hslot : db.slots[i]? = some slot)
    (hc : c.Encodable db.maxLbdPartitionedSize) (hidx : db.getSlotIdx c.size c.lbd = some i) :
    slot.isClauseCompatible c := by
  obtain ⟨j, hj⟩ := hc.inBucket
  obtain rfl : j = i := by
    have := (getSlotIdx_some hidx).1
    rw [hj.slotPosition_eq] at this
    exact_mod_cast this
  exact (h.slots j slot hslot).compatible_iff.mpr hj

structure BulkInserted (db : AdaptiveClauseDatabase) (i : Nat) (slot : ClauseSlot) (conditional : Conditional κ)
    (valid : Clause → Prop) (s : BulkState κ) (db' : AdaptiveClauseDatabase) (s' : BulkState κ) : Prop where
  sound : db'.Sound
  shape_eq : db'.maxLbdPartitionedSize = db.maxLbdPartitionedSize ∧ db'.slots.length = db.slots.length
  cPtr_eq : s'.cPtr = slot.behind s.cPtr
  passes : slot.Passes s s'
  once : db.OfferedOnce i slot conditional s → slot.Completes conditional valid s s'
  twice : ¬db.OfferedOnce i slot conditional s →
    ∃ x ∈ slot.groupOf s.cPtr, evaluations x.2 s.events + 2 ≤ evaluations x.2 s'.events

theorem Sound.insertBulk (h : db.Sound) (hslot : db.slots[i]? = some slot) (hs : ∀ x ∈ s.cPtr, Proper x)
    (hvalid : ∀ c, slot.isClauseCompatible c → valid c) :
    ∃ db' s', db.insertBulk i slot conditional s = .ok (db', s') ∧
      db.BulkInserted i slot conditional valid s db' s' := by
  have hsound := (h.slots i slot hslot).sound
  let s₀ : BulkState κ := { s with isClauseAdmitted := false }
  obtain ⟨r, hok, hdb, hins⟩ := @Sound.insert_bulkInserter κ slot conditional s₀ db i h hslot hs
  have hoffers : db.Offers i slot conditional valid s₀ r.result r.state := hins.offers hs hvalid hsound
  obtain ⟨s', htreat, hptr, hpasses⟩ :=
    @ClauseSlot.treatRest_passes κ slot conditional r.state r.result hoffers.fails
  have hpasses₀ : slot.Passes s₀ s' := hoffers.passes.trans hpasses
  refine ⟨r.db, s', ?_, hdb, hins.shape_eq, ?_,
    ⟨hpasses₀.cPtr_eq, hpasses₀.deferred_eq, hpasses₀.starts⟩, ?_, ?_⟩
  · rw [AdaptiveClauseDatabase.insertBulk, hok]
    simp only [bind, Except.bind, htreat]
    rfl
  · rw [hptr, hoffers.passes.behind_eq]
  · intro honce
    rcases hoffers.once honce with hsame | hcompletes | hsticks
    · rw [hsame] at htreat
      have hcompletes : slot.Completes conditional valid s₀ s' :=
        ClauseSlot.completes_treatRest (hsame ▸ hoffers.fails) hvalid rfl htreat
      exact hcompletes
    · exact hcompletes.treatRest htreat
    · exact hsticks.treatRest (hoffers.fails.resolve_left hsticks.groupOf_ne') hvalid htreat
  · intro htwice
    obtain ⟨x, hx, hle⟩ := hoffers.twice htwice
    exact ⟨x, hx, hle.trans (ClauseSlot.evaluations_le x.2 hpasses.starts)⟩

def hasSlot (db : AdaptiveClauseDatabase) (c : Clause) : Bool := (db.getSlotIdx c.size c.lbd).isSome

theorem hasSlot_congr
    (h : db'.maxLbdPartitionedSize = db.maxLbdPartitionedSize ∧ db'.slots.length = db.slots.length) :
    db'.hasSlot = db.hasSlot := by
  funext c
  rw [hasSlot, hasSlot, getSlotIdx, getSlotIdx, h.1, h.2]

def Pass (conditional : Conditional κ) (x y : AdaptiveClauseDatabase × BulkState κ) : Prop :=
  ∃ c pos rest, x.2.cPtr = (c, pos) :: rest ∧ x.1.bulkStep conditional c rest x.2 = .ok y

def MeetsOnce (conditional : Conditional κ) (x : AdaptiveClauseDatabase × BulkState κ) : Prop :=
  ∀ c pos rest i slot, x.2.cPtr = (c, pos) :: rest → x.1.getSlotIdx c.size c.lbd = some i →
    x.1.slots[i]? = some slot → x.1.OfferedOnce i slot conditional x.2

theorem meetsOnce_iff {x : AdaptiveClauseDatabase × BulkState κ} (hptr : x.2.cPtr = (c, pos) :: rest)
    (hidx : x.1.getSlotIdx c.size c.lbd = some i) (hslot : x.1.slots[i]? = some slot) :
    MeetsOnce conditional x ↔ x.1.OfferedOnce i slot conditional x.2 := by
  constructor
  · intro hmeets
    exact hmeets c pos rest i slot hptr hidx hslot
  · intro honce c' pos' rest' i' slot' hptr' hidx' hslot'
    rw [hptr] at hptr'
    obtain ⟨⟨rfl, rfl⟩, rfl⟩ := by simpa using hptr'
    rw [hidx] at hidx'
    obtain rfl := Option.some.inj hidx'
    rw [hslot] at hslot'
    obtain rfl := Option.some.inj hslot'
    exact honce

theorem meetsOnce_of_none {x : AdaptiveClauseDatabase × BulkState κ} (hptr : x.2.cPtr = (c, pos) :: rest)
    (hidx : x.1.getSlotIdx c.size c.lbd = none) : MeetsOnce conditional x := by
  intro c' pos' rest' i slot hptr' hidx'
  rw [hptr] at hptr'
  obtain ⟨⟨rfl, rfl⟩, rfl⟩ := by simpa using hptr'
  rw [hidx] at hidx'
  cases hidx'

def AlwaysOnce (conditional : Conditional κ) (x : AdaptiveClauseDatabase × BulkState κ) : Prop :=
  ∀ y, Relation.ReflTransGen (Pass conditional) x y → MeetsOnce conditional y

theorem always_cons {P : AdaptiveClauseDatabase × BulkState κ → Prop} {x y : AdaptiveClauseDatabase × BulkState κ}
    (hptr : x.2.cPtr = (c, pos) :: rest) (hstep : x.1.bulkStep conditional c rest x.2 = .ok y) :
    (∀ z, Relation.ReflTransGen (Pass conditional) x z → P z) ↔
      P x ∧ ∀ z, Relation.ReflTransGen (Pass conditional) y z → P z := by
  constructor
  · intro h
    exact ⟨h x .refl, fun z hz => h z (.head ⟨c, pos, rest, hptr, hstep⟩ hz)⟩
  · rintro ⟨hx, hy⟩ z hz
    rcases hz.cases_head with rfl | ⟨y', ⟨c', pos', rest', hptr', hstep'⟩, hz⟩
    · exact hx
    · rw [hptr] at hptr'
      obtain ⟨⟨rfl, rfl⟩, rfl⟩ := by simpa using hptr'
      rw [hstep] at hstep'
      obtain rfl := Except.ok.inj hstep'
      exact hy z hz

theorem alwaysOnce_cons {x y : AdaptiveClauseDatabase × BulkState κ} (hptr : x.2.cPtr = (c, pos) :: rest)
    (hstep : x.1.bulkStep conditional c rest x.2 = .ok y) :
    AlwaysOnce conditional x ↔ MeetsOnce conditional x ∧ AlwaysOnce conditional y :=
  always_cons hptr hstep

theorem alwaysOnce_nil {x : AdaptiveClauseDatabase × BulkState κ} (hptr : x.2.cPtr = []) :
    AlwaysOnce conditional x := by
  intro y hy
  rcases hy.cases_head with rfl | ⟨y', ⟨c, pos, rest, hptr', -⟩, -⟩
  · intro c pos rest i slot hptr'
    rw [hptr] at hptr'
    cases hptr'
  · rw [hptr] at hptr'
    cases hptr'

structure Looped (db : AdaptiveClauseDatabase) (conditional : Conditional κ) (s s' : BulkState κ) : Prop where
  deferred_eq : s'.deferred = s.deferred
  starts : s.events <+: s'.events
  total_eq : s'.stats.total = s.stats.total + s.cPtr.countP fun x => db.hasSlot x.1
  once : AlwaysOnce conditional (db, s) →
    ∃ es, Settled conditional (fun c => db.hasSlot c) s.filter s.cPtr es s'.filter ∧ s'.events = s.events ++ es
  twice : ¬AlwaysOnce conditional (db, s) →
    ∃ x ∈ s.cPtr, db.hasSlot x.1 ∧ evaluations x.2 s.events + 2 ≤ evaluations x.2 s'.events

theorem Looped.nil (hptr : s.cPtr = []) : db.Looped conditional s s := by
  refine ⟨rfl, List.prefix_rfl, by simp [hptr], fun _ => ⟨[], ?_, (List.append_nil _).symm⟩, fun h => ?_⟩
  · rw [hptr]
    exact .nil
  · exact absurd (alwaysOnce_nil hptr) h

theorem Looped.skip (hptr : s.cPtr = (c, pos) :: rest) (hidx : db.getSlotIdx c.size c.lbd = none)
    (h : db.Looped conditional { s with cPtr := rest } s') : db.Looped conditional s s' := by
  have hslot : db.hasSlot c = false := by rw [hasSlot, hidx]; rfl
  have hstep : db.bulkStep conditional c rest s = .ok (db, { s with cPtr := rest }) := by rw [bulkStep, hidx]
  have hmeets : MeetsOnce conditional (db, s) := meetsOnce_of_none hptr hidx
  have halways := alwaysOnce_cons (x := (db, s)) hptr hstep
  refine ⟨h.deferred_eq, h.starts, by rw [h.total_eq, hptr]; simp [hslot], fun honce => ?_, fun htwice => ?_⟩
  · obtain ⟨es, hsettled, hev⟩ := h.once (halways.mp honce).2
    refine ⟨es, ?_, hev⟩
    rw [hptr]
    exact .skipped (by simp [hslot]) hsettled
  · obtain ⟨x, hx, hle⟩ := h.twice fun hrest => htwice (halways.mpr ⟨hmeets, hrest⟩)
    exact ⟨x, by rw [hptr]; exact List.mem_cons_of_mem _ hx, hle⟩

theorem Looped.insert {s₁ : BulkState κ} (hdb : db.Sound) (hptr : s.cPtr = (c, pos) :: rest)
    (hidx : db.getSlotIdx c.size c.lbd = some i) (hslot : db.slots[i]? = some slot)
    (hok : db.insertBulk i slot conditional s = .ok (db', s₁))
    (hins : db.BulkInserted i slot conditional (fun c => db.hasSlot c) s db' s₁)
    (h : db'.Looped conditional s₁ s') : db.Looped conditional s s' := by
  have hstep : db.bulkStep conditional c rest s = .ok (db', s₁) := by rw [bulkStep, hidx]; simp only [hslot, hok]
  have halways := alwaysOnce_cons (x := (db, s)) hptr hstep
  have hmeets : MeetsOnce conditional (db, s) ↔ db.OfferedOnce i slot conditional s := meetsOnce_iff hptr hidx hslot
  have hsame := hasSlot_congr hins.shape_eq
  have hparts := slot.groupOf_append_behind s.cPtr
  have hgroup : ∀ x ∈ slot.groupOf s.cPtr, db.hasSlot x.1 = true := fun x hx => by
    rw [hasSlot, hdb.getSlotIdx_of_compatible hslot (slot.compatible_groupOf s.cPtr x hx)]
    rfl
  refine ⟨h.deferred_eq.trans hins.passes.deferred_eq, hins.passes.starts.trans h.starts, ?_, fun honce => ?_,
    fun htwice => ?_⟩
  · obtain ⟨done, hdone, -, htotal⟩ := hins.passes.cPtr_eq
    have hgroupOf : done = slot.groupOf s.cPtr := by
      rw [hins.cPtr_eq] at hdone
      exact List.append_cancel_right (hdone.symm.trans hparts.symm)
    rw [h.total_eq, htotal, hsame, hdone, List.countP_append, hgroupOf, List.countP_eq_length.mpr hgroup,
      Nat.add_assoc]
  · obtain ⟨hfirst, hrest⟩ := halways.mp honce
    obtain ⟨-, es, hsettled, hev⟩ := hins.once (hmeets.mp hfirst)
    obtain ⟨es', hsettled', hev'⟩ := h.once hrest
    rw [hsame, hins.cPtr_eq] at hsettled'
    refine ⟨es ++ es', ?_, by rw [hev', hev, List.append_assoc]⟩
    rw [← hparts]
    exact hsettled.append hsettled'
  · by_cases hfirst : db.OfferedOnce i slot conditional s
    · obtain ⟨x, hx, hvalid, hle⟩ := h.twice fun hrest => htwice (halways.mpr ⟨hmeets.mpr hfirst, hrest⟩)
      have := ClauseSlot.evaluations_le x.2 hins.passes.starts
      refine ⟨x, ?_, by rw [← hsame]; exact hvalid, by omega⟩
      rw [← hparts, ← hins.cPtr_eq]
      exact List.mem_append_right _ hx
    · obtain ⟨x, hx, hle⟩ := hins.twice hfirst
      refine ⟨x, ?_, hgroup x hx, hle.trans (ClauseSlot.evaluations_le x.2 h.starts)⟩
      rw [← hparts]
      exact List.mem_append_left _ hx

theorem bulkLoop_nil (fuel : Nat) (hptr : s.cPtr = []) : bulkLoop conditional fuel db s = .ok (db, s) := by
  rw [bulkLoop.eq_def]
  simp only [hptr]

theorem bulkLoop_cons (fuel : Nat) (hptr : s.cPtr = (c, pos) :: rest) :
    bulkLoop conditional (fuel + 1) db s =
      (db.bulkStep conditional c rest s).bind fun x => bulkLoop conditional fuel x.1 x.2 := by
  rw [bulkLoop.eq_def]
  simp only [hptr]
  rfl

theorem Sound.bulkLoop (h : db.Sound) {fuel : Nat} (hs : ∀ x ∈ s.cPtr, x.1.Encodable db.maxLbdPartitionedSize)
    (hfuel : s.cPtr.length ≤ fuel) :
    ∃ db' s', bulkLoop conditional fuel db s = .ok (db', s') ∧ db'.Sound ∧ db.Looped conditional s s' := by
  induction fuel generalizing db s with
  | zero =>
      have hptr : s.cPtr = [] := List.length_eq_zero_iff.mp (by omega)
      exact ⟨db, s, bulkLoop_nil _ hptr, h, .nil hptr⟩
  | succ fuel ih =>
      cases hptr : s.cPtr with
      | nil => exact ⟨db, s, bulkLoop_nil _ hptr, h, .nil hptr⟩
      | cons x rest =>
          obtain ⟨c, pos⟩ := x
          rw [hptr, List.length_cons] at hfuel
          rw [hptr] at hs
          rw [bulkLoop_cons fuel hptr, bulkStep]
          cases hidx : db.getSlotIdx c.size c.lbd with
          | none =>
              obtain ⟨db', s', hok, hsound, hlooped⟩ :=
                @ih { s with cPtr := rest } db h (fun x hx => hs x (List.mem_cons_of_mem _ hx)) (by simp only; omega)
              exact ⟨db', s', hok, hsound, hlooped.skip hptr hidx⟩
          | some i =>
              obtain ⟨slot, hslot⟩ := (getSlotIdx_some hidx).2
              have hvalid : ∀ c, slot.isClauseCompatible c → db.hasSlot c = true := fun c hc => by
                rw [hasSlot, h.getSlotIdx_of_compatible hslot hc]
                rfl
              have hproper : ∀ x ∈ s.cPtr, Proper x := by
                rw [hptr]
                exact fun x hx => ⟨(hs x hx).lbd_ne, fun hzero => (hs x hx).lits_ne 0 hzero rfl⟩
              obtain ⟨db₁, s₁, hok₁, hins⟩ :=
                @Sound.insertBulk κ slot conditional s (fun c => db.hasSlot c) db i h hslot hproper hvalid
              have hc : slot.isClauseCompatible c :=
                h.compatible_of_getSlotIdx hslot (hs (c, pos) (List.mem_cons_self ..)) hidx
              have hbehind : s₁.cPtr = slot.behind rest := by rw [hins.cPtr_eq, hptr, ClauseSlot.behind_cons hc]
              have hsub : slot.behind rest <:+ rest := List.dropWhile_suffix _
              obtain ⟨db', s', hok, hsound, hlooped⟩ := @ih s₁ db₁ hins.sound
                (fun x hx => by
                  rw [hins.shape_eq.1]
                  rw [hbehind] at hx
                  exact hs x (List.mem_cons_of_mem _ (hsub.subset hx)))
                (by rw [hbehind]; exact hsub.length_le.trans (by omega))
              refine ⟨db', s', ?_, hsound, hlooped.insert h hptr hidx hslot hok₁ hins⟩
              simp only [hslot, hok₁]
              exact hok

end AdaptiveClauseDatabase

theorem ClauseSlot.evaluations_other {pos' : Nat} {verdict : Bool} (hne : pos' ≠ pos) :
    evaluations pos (.evaluated pos' verdict :: es) = evaluations pos es := by
  simp [evaluations, hne]

theorem ClauseSlot.evaluations_kept {e : BulkEvent} {pos' : Nat} (he : e = .inserted pos' ∨ e = .discarded pos') :
    evaluations pos (e :: es) = evaluations pos es := by
  rcases he with rfl | rfl
  · simp [evaluations]
  · simp [evaluations]

theorem Settled.evaluations_eq_zero (h : Settled conditional valid filter cs es filter')
    (hpos : pos ∉ cs.map Prod.snd) : evaluations pos es = 0 := by
  induction h with
  | nil => rfl
  | skipped _ _ ih => exact ih fun hmem => hpos (List.mem_cons_of_mem _ hmem)
  | filtered _ _ _ ih =>
      rw [ClauseSlot.evaluations_other fun heq => hpos (by simp [heq])]
      exact ih fun hmem => hpos (List.mem_cons_of_mem _ hmem)
  | kept _ _ he _ ih =>
      rw [ClauseSlot.evaluations_other fun heq => hpos (by simp [heq]), ClauseSlot.evaluations_kept he]
      exact ih fun hmem => hpos (List.mem_cons_of_mem _ hmem)

theorem Settled.evaluations_eq_one (h : Settled conditional valid filter cs es filter')
    (hnodup : (cs.map Prod.snd).Nodup) (hmem : (c, pos) ∈ cs) (hc : valid c) : evaluations pos es = 1 := by
  induction h with
  | nil => cases hmem
  | @skipped _ _ c' pos' cs es hnot _ ih =>
      rw [List.map_cons, List.nodup_cons] at hnodup
      rcases List.mem_cons.mp hmem with heq | hmem
      · obtain ⟨rfl, -⟩ := Prod.mk.inj heq
        exact absurd hc hnot
      · exact ih hnodup.2 hmem
  | @filtered _ _ _ c' pos' cs es _ _ hsettled ih =>
      rw [List.map_cons, List.nodup_cons] at hnodup
      rcases List.mem_cons.mp hmem with heq | hmem
      · obtain ⟨-, rfl⟩ := Prod.mk.inj heq
        rw [ClauseSlot.evaluations_evaluated, hsettled.evaluations_eq_zero hnodup.1]
      · have hne : pos' ≠ pos := fun heq => hnodup.1 (heq ▸ List.mem_map.mpr ⟨(c, pos), hmem, rfl⟩)
        rw [ClauseSlot.evaluations_other hne]
        exact ih hnodup.2 hmem
  | @kept _ _ _ c' pos' cs es e _ _ he hsettled ih =>
      rw [List.map_cons, List.nodup_cons] at hnodup
      rcases List.mem_cons.mp hmem with heq | hmem
      · obtain ⟨-, rfl⟩ := Prod.mk.inj heq
        rw [ClauseSlot.evaluations_evaluated, ClauseSlot.evaluations_kept he, hsettled.evaluations_eq_zero hnodup.1]
      · have hne : pos' ≠ pos := fun heq => hnodup.1 (heq ▸ List.mem_map.mpr ⟨(c, pos), hmem, rfl⟩)
        rw [ClauseSlot.evaluations_other hne, ClauseSlot.evaluations_kept he]
        exact ih hnodup.2 hmem

theorem Settled.kept_of_true (h : Settled conditional valid filter cs es filter') (hpos : .evaluated pos true ∈ es) :
    .inserted pos ∈ es ∨ .discarded pos ∈ es := by
  induction h with
  | nil => cases hpos
  | skipped _ _ ih => exact ih hpos
  | filtered _ _ _ ih =>
      have hrest := ih (by simpa using hpos)
      exact hrest.imp (List.mem_cons_of_mem _) (List.mem_cons_of_mem _)
  | @kept _ _ _ c' pos' cs es e _ _ he _ ih =>
      by_cases heq : pos = pos'
      · subst heq
        rcases he with rfl | rfl
        · simp
        · simp
      · have hne : BulkEvent.evaluated pos true ≠ e := by rcases he with rfl | rfl <;> simp
        have hrest := ih (by simpa [heq, hne] using hpos)
        exact hrest.imp (fun h => List.mem_cons_of_mem _ (List.mem_cons_of_mem _ h))
          fun h => List.mem_cons_of_mem _ (List.mem_cons_of_mem _ h)

theorem Settled.not_deferred (h : Settled conditional valid filter cs es filter') : .deferred pos ∉ es := by
  induction h with
  | nil => simp
  | skipped _ _ ih => exact ih
  | filtered _ _ _ ih => simpa using ih
  | kept _ _ he _ ih =>
      rcases he with rfl | rfl
      · simpa using ih
      · simpa using ih

namespace AdaptiveClauseDatabase

variable {db : AdaptiveClauseDatabase} {clauses deferredOut : List Clause} {stats : SolvingStatistics}

def deferredAt (clauses : List Clause) (events : List BulkEvent) : List Clause :=
  events.filterMap fun e => match e with
    | .deferred pos => clauses[pos]?
    | _ => none

/-- Every clause with a slot is evaluated once and accounted for. -/
structure Accounts (db : AdaptiveClauseDatabase) (clauses deferredOut : List Clause) (stats : SolvingStatistics)
    (s : BulkState κ) : Prop where
  once : ∀ pos c, clauses[pos]? = some c → db.hasSlot c → evaluations pos s.events = 1
  kept : ∀ pos, .evaluated pos true ∈ s.events →
    .inserted pos ∈ s.events ∨ .deferred pos ∈ s.events ∨ .discarded pos ∈ s.events
  deferred_eq : s.deferred = deferredOut ++ deferredAt clauses s.events
  total_eq : s.stats.total = stats.total + clauses.countP db.hasSlot

theorem deferredAt_eq_nil {events : List BulkEvent} (h : ∀ pos, .deferred pos ∉ events) :
    deferredAt clauses events = [] := by
  rw [deferredAt, List.filterMap_eq_nil_iff]
  intro e he
  cases e with
  | deferred pos => exact absurd he (h pos)
  | evaluated _ _ => rfl
  | inserted _ => rfl
  | discarded _ => rfl

theorem Looped.accounts (h : db.Looped conditional (.start clauses deferredOut stats filter) s')
    (honce : AlwaysOnce conditional (db, .start clauses deferredOut stats filter)) :
    db.Accounts clauses deferredOut stats s' := by
  obtain ⟨es, hsettled, hev⟩ := h.once honce
  simp only [BulkState.start, List.nil_append] at hev hsettled
  have hnodup : (clauses.zipIdx.map Prod.snd).Nodup := by
    rw [List.zipIdx_map_snd]
    exact List.nodup_range'
  refine ⟨fun pos c hpos hc => ?_, fun pos hpos => ?_, ?_, ?_⟩
  · rw [hev]
    exact hsettled.evaluations_eq_one hnodup (List.mem_zipIdx_iff_getElem?.mpr hpos) hc
  · rw [hev] at hpos ⊢
    exact (hsettled.kept_of_true hpos).imp_right Or.inr
  · rw [h.deferred_eq, hev, deferredAt_eq_nil fun pos => hsettled.not_deferred, List.append_nil]
    rfl
  · have hcount : clauses.zipIdx.countP (db.hasSlot ∘ Prod.fst) = clauses.countP db.hasSlot := by
      rw [← List.countP_map, List.zipIdx_map_fst]
    rw [h.total_eq, ← hcount]
    rfl

/-- The condition is evaluated once for each clause with a slot, and every clause is accounted for, if and
only if no clause is ever offered to a second chunk. -/
theorem bulkAddClauses_accounts_iff_alwaysOnce (db : AdaptiveClauseDatabase) (clauses deferredOut : List Clause)
    (stats : SolvingStatistics) (conditional : Conditional κ) (filter : κ) (h : db.Sound)
    (hclauses : ∀ c ∈ clauses, c.Encodable db.maxLbdPartitionedSize) :
    (∃ db' s, db.bulkAddClauses clauses deferredOut stats conditional filter = .ok (db', s) ∧
      db.Accounts clauses deferredOut stats s) ↔
    AlwaysOnce conditional (db, .start clauses deferredOut stats filter) := by
  have hs : ∀ x ∈ clauses.zipIdx, x.1.Encodable db.maxLbdPartitionedSize := fun x hx =>
    hclauses x.1 (List.fst_mem_of_mem_zipIdx hx)
  obtain ⟨db', s, hok, -, hlooped⟩ :=
    @Sound.bulkLoop κ conditional (.start clauses deferredOut stats filter) db h clauses.length hs
      (by simp [BulkState.start])
  constructor
  · rintro ⟨db₁, s₁, hok₁, haccounts⟩
    rw [bulkAddClauses, hok] at hok₁
    obtain ⟨-, rfl⟩ := by simpa using hok₁
    by_contra htwice
    obtain ⟨x, hx, hslot, hle⟩ := hlooped.twice htwice
    have := haccounts.once x.2 x.1 (List.mem_zipIdx_iff_getElem?.mp hx) hslot
    omega
  · intro honce
    exact ⟨db', s, hok, hlooped.accounts honce⟩

/-- A condition that every clause meets only once, as that of a filter which registers clauses. -/
def registerClause (registered : List Clause) (c : Clause) : Bool × List Clause :=
  if c ∈ registered then (false, registered) else (true, c :: registered)

/-- A database with a chunk that holds three unit clauses, and another chunk that can be had. -/
def almostFull : AdaptiveClauseDatabase :=
  ((new 1 1 4 2 false).addClauses [⟨[1], 1⟩, ⟨[2], 1⟩, ⟨[3], 1⟩]).getD (new 1 1 4 2 false)

theorem almostFull_sound : almostFull.Sound := by
  have hadded : (new 1 1 4 2 false).addClauses [⟨[1], 1⟩, ⟨[2], 1⟩, ⟨[3], 1⟩] = some almostFull := by decide +kernel
  obtain ⟨hstores, hroomy⟩ := stores_new 1 1 4 2 false
  exact (hstores.addClauses (hroomy (by decide)) (by simp) hadded).sound

/-- The chunk refuses the clause, which is then filtered as a duplicate of itself. -/
theorem clause_lost_on_second_evaluation : almostFull.Sound ∧
    ¬∃ db' s, almostFull.bulkAddClauses [⟨[4], 1⟩] [] {} registerClause [] = .ok (db', s) ∧
      almostFull.Accounts [⟨[4], 1⟩] [] {} s := by
  refine ⟨almostFull_sound, ?_⟩
  rintro ⟨db', s, hok, haccounts⟩
  have hevents : (almostFull.bulkAddClauses [⟨[4], 1⟩] [] {} registerClause []).map (fun r => r.2.events) =
      .ok [.evaluated 0 true, .evaluated 0 false] := by decide +kernel
  rw [hok] at hevents
  have hevents : s.events = [.evaluated 0 true, .evaluated 0 false] := Except.ok.inj hevents
  have hkept := haccounts.kept 0 (by rw [hevents]; simp)
  rw [hevents] at hkept
  simp at hkept

end AdaptiveClauseDatabase

end Mallob.Sharing
