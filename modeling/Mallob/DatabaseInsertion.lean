import Mallob.AdaptiveClauseDatabase
import Mallob.SlotOperations

namespace Mallob.Sharing

open ClauseSlot (Inserter held stored)

variable {σ : Type} {n i j p : Nat} {slot slot' : ClauseSlot} {cells : List Chunk} {f : Inserter σ} {s : σ}

def ClauseSlot.Inserter.KeepsLive (n : Nat) (f : Inserter σ) : Prop :=
  ∀ (chunk : Chunk) (s : σ) (finished : Bool) (chunk' : Chunk) (s' : σ), chunk.Live n →
    f { chunk with state := .valid 1 } s = .ok (finished, chunk', s') → ({ chunk' with state := .valid 0 } : Chunk).Live n

def ClauseSlot.Inserter.Succeeds (n : Nat) (f : Inserter σ) : Prop :=
  ∀ (chunk : Chunk) (s : σ), chunk.Live n → ∃ r, f { chunk with state := .valid 1 } s = .ok r

theorem ClauseSlot.visit_keepsLive (hkeep : f.KeepsState) (hf : f.KeepsLive n) {finished : Bool} {cells' : List Chunk}
    {s' : σ} (hcells : ∀ c ∈ cells, c.Cell n) (hv : slot.visit f cells s = .ok (finished, cells', s')) :
    (∀ c ∈ cells', c.Cell n) ∧ held cells' = held cells := by
  induction cells generalizing s finished cells' s' with
  | nil =>
      obtain ⟨-, rfl, -⟩ : false = finished ∧ [] = cells' ∧ s = s' := by simpa [visit] using hv
      exact ⟨by simp, rfl⟩
  | cons chunk cells ih =>
      have hcell := hcells chunk (List.mem_cons_self ..)
      have hrest := fun c hc => hcells c (List.mem_cons_of_mem _ hc)
      have hcons : ∀ (chunk' : Chunk) (cells'' : List Chunk), chunk'.Cell n → chunk'.data.isSome = chunk.data.isSome →
          (∀ c ∈ cells'', c.Cell n) ∧ held cells'' = held cells →
          (∀ c ∈ chunk' :: cells'', c.Cell n) ∧ held (chunk' :: cells'') = held (chunk :: cells) := by
        intro chunk' cells'' hcell' hdata hall
        refine ⟨fun c hc => ?_, by simp [hall.2, hdata]⟩
        rcases List.mem_cons.mp hc with rfl | hc
        · exact hcell'
        · exact hall.1 c hc
      rw [visit] at hv
      split at hv
      · cases hrec : slot.visit f cells s with
        | error e => rw [hrec] at hv; cases hv
        | ok r =>
            rw [hrec] at hv
            obtain ⟨-, rfl, -⟩ : r.1 = finished ∧ chunk :: r.2.1 = cells' ∧ r.2.2 = s' := by simpa [Except.map] using hv
            exact hcons chunk r.2.1 hcell rfl (ih hrest hrec)
      · next hnot =>
          rcases hcell with hlive | hdead
          · cases hins : f { chunk with state := .valid 1 } s with
            | error e => rw [hins] at hv; cases hv
            | ok r =>
                obtain ⟨finished₁, chunk', s₁⟩ := r
                have hlive' := hf chunk s finished₁ chunk' s₁ hlive hins
                have hleave := Chunk.leave_of_valid_one (hkeep _ _ _ _ _ hins)
                rw [← hleave] at hlive'
                have hdata : chunk'.leave.data.isSome = chunk.data.isSome := by
                  obtain ⟨b, hb, -⟩ := hlive.holds
                  obtain ⟨b', hb', -⟩ := hlive'.holds
                  rw [hb, hb']
                  rfl
                rw [hins] at hv
                cases finished₁ with
                | true =>
                    obtain ⟨-, rfl, -⟩ : true = finished ∧ chunk'.leave :: cells = cells' ∧ s₁ = s' := by simpa using hv
                    exact hcons _ cells (Or.inl hlive') hdata ⟨hrest, rfl⟩
                | false =>
                    simp only at hv
                    cases hrec : slot.visit f cells s₁ with
                    | error e => rw [hrec] at hv; cases hv
                    | ok r =>
                        rw [hrec] at hv
                        obtain ⟨-, rfl, -⟩ : r.1 = finished ∧ chunk'.leave :: r.2.1 = cells' ∧ r.2.2 = s' := by
                          simpa [Except.map] using hv
                        exact hcons _ r.2.1 (Or.inl hlive') hdata (ih hrest hrec)
          · exact absurd (Or.inr hdead.state_eq) hnot

theorem ClauseSlot.visit_succeeds (hf : f.Succeeds n) (hcells : ∀ c ∈ cells, c.Cell n) :
    ∃ r, slot.visit f cells s = .ok r := by
  induction cells generalizing s with
  | nil => exact ⟨_, rfl⟩
  | cons chunk cells ih =>
      have hrest := fun c hc => hcells c (List.mem_cons_of_mem _ hc)
      rw [visit]
      split
      · obtain ⟨r, hr⟩ := @ih s hrest
        exact ⟨_, by rw [hr]; rfl⟩
      · next hnot =>
          rcases hcells chunk (List.mem_cons_self ..) with hlive | hdead
          · obtain ⟨⟨finished, chunk', s'⟩, hins⟩ := hf chunk s hlive
            rw [hins]
            cases finished with
            | true => exact ⟨_, rfl⟩
            | false =>
                obtain ⟨r, hr⟩ := @ih s' hrest
                exact ⟨_, by simp only [hr]; rfl⟩
          · exact absurd (Or.inr hdead.state_eq) hnot

namespace AdaptiveClauseDatabase

variable {db db' : AdaptiveClauseDatabase}

structure SlotFor (p i : Nat) (slot : ClauseSlot) : Prop where
  sound : slot.Sound
  size_eq : slot.clauseSize = (bucketAt p i).size
  lbd_eq : slot.lbdValue = (bucketAt p i).lbd
  uniform_eq : slot.uniformLbdValues = decide ((bucketAt p i).size ≤ p)

theorem SlotFor.of_kind (h : SlotFor p i slot) (hsound : slot'.Sound) (hkind : slot'.kind = slot.kind) :
    SlotFor p i slot' := by
  simp only [ClauseSlot.kind, Prod.mk.injEq] at hkind
  obtain ⟨hsize, hlbd, huniform, -⟩ := hkind
  exact ⟨hsound, hsize.trans h.size_eq, hlbd.trans h.lbd_eq, huniform.trans h.uniform_eq⟩

theorem SlotFor.entrySize_eq (h : SlotFor p i slot) : slot.entrySize = effectiveSize p (bucketAt p i).size := by
  rw [ClauseSlot.entrySize, effectiveSize, h.size_eq, h.uniform_eq]
  simp

def heldBySlots (slots : List ClauseSlot) : Nat := (slots.map fun slot => held slot.inner).sum

/-- A database with some chunks that are neither in the manager nor in a slot. -/
structure SoundBut (k : Nat) (db : AdaptiveClauseDatabase) : Prop where
  manager : db.chunkMgr.Sound
  slots : ∀ i slot, db.slots[i]? = some slot → SlotFor db.maxLbdPartitionedSize i slot
  conserved : db.chunkMgr.numAllocatable + db.chunkMgr.numAvailable + heldBySlots db.slots + k = db.chunkMgr.chunks.length

def Sound (db : AdaptiveClauseDatabase) : Prop := db.SoundBut 0

theorem heldBySlots_set {slots : List ClauseSlot} (h : slots[i]? = some slot) (slot' : ClauseSlot) :
    heldBySlots (slots.set i slot') + held slot.inner = heldBySlots slots + held slot'.inner := by
  induction slots generalizing i with
  | nil => simp at h
  | cons a slots ih =>
      cases i with
      | zero =>
          obtain rfl : a = slot := by simpa using h
          simp only [List.set_cons_zero, heldBySlots, List.map_cons, List.sum_cons]
          omega
      | succ i =>
          have := @ih i (by simpa using h)
          simp only [List.set_cons_succ, heldBySlots, List.map_cons, List.sum_cons] at this ⊢
          omega

theorem SoundBut.slotFor_setSlot {k : Nat} {slot₁ : ClauseSlot} (h : db.SoundBut k) (hslot : db.slots[i]? = some slot)
    (hsound : slot'.Sound) (hkind : slot'.kind = slot.kind) (hj : (db.setSlot i slot').slots[j]? = some slot₁) :
    SlotFor db.maxLbdPartitionedSize j slot₁ := by
  rw [AdaptiveClauseDatabase.setSlot] at hj
  by_cases hij : i = j
  · subst hij
    have hlt := (List.getElem?_eq_some_iff.mp hslot).1
    rw [List.getElem?_set_self hlt] at hj
    obtain rfl := Option.some.inj hj
    exact (h.slots i slot hslot).of_kind hsound hkind
  · rw [List.getElem?_set_ne hij] at hj
    exact h.slots j slot₁ hj

theorem SoundBut.setSlot {k l : Nat} (h : db.SoundBut k) (hslot : db.slots[i]? = some slot) (hsound : slot'.Sound)
    (hkind : slot'.kind = slot.kind) (hheld : held slot'.inner + l = held slot.inner + k) :
    (db.setSlot i slot').SoundBut l := by
  refine ⟨h.manager, fun j slot₁ hj => h.slotFor_setSlot hslot hsound hkind hj, ?_⟩
  · have := heldBySlots_set hslot slot'
    have := h.conserved
    simp only [AdaptiveClauseDatabase.setSlot]
    omega

structure Exhausted (db : AdaptiveClauseDatabase) (slotIdx : Nat) : Prop where
  manager : db.chunkMgr.numAllocatable = 0 ∧ db.chunkMgr.numAvailable = 0
  slots : ∀ j slot, slotIdx < j → db.slots[j]? = some slot → held slot.inner = 0

/-- A chunk is stolen from a less important slot, unless none of these holds a chunk. -/
theorem SoundBut.stealChunk (h : db.SoundBut 0) (slotIdx : Nat) {k : Nat} (hk : k ≤ db.slots.length) :
    (∃ j slot slot' data live, slotIdx < j ∧ db.slots[j]? = some slot ∧ slot'.Sound ∧ slot'.kind = slot.kind ∧
      live ∈ slot.inner ∧ slot.Released live slot' ∧
      stored slot.entrySize slot.inner = (live.elements slot.entrySize : Multiset _) + stored slot.entrySize slot'.inner ∧
      (∀ l slot₁, j < l → l < k → db.slots[l]? = some slot₁ → held slot₁.inner = 0) ∧
      db.stealChunk slotIdx k = .ok ⟨.success, some data, db.setSlot j slot', some (j, live)⟩) ∨
    (db.stealChunk slotIdx k = .ok ⟨.totalFail, none, db, none⟩ ∧
      ∀ j slot, slotIdx < j → j < k → db.slots[j]? = some slot → held slot.inner = 0) := by
  induction k with
  | zero => exact Or.inr ⟨rfl, fun j _ _ hj => absurd hj (by omega)⟩
  | succ k ih =>
      rw [AdaptiveClauseDatabase.stealChunk]
      split
      · exact Or.inr ⟨rfl, fun j _ _ _ => by omega⟩
      · next hright =>
          obtain ⟨slot, hslot⟩ : ∃ slot, db.slots[k]? = some slot := ⟨_, List.getElem?_eq_getElem (by omega)⟩
          rw [hslot]
          simp only
          rcases (h.slots k slot hslot).sound.releaseChunk with ⟨hzero, hrel⟩ | ⟨data, slot', live, hrel, hsound, hkind, hmem, hreleased, hstored⟩
          · rw [hrel]
            have hlast : ∀ {j : Nat}, (∀ l slot₁, j < l → l < k → db.slots[l]? = some slot₁ → held slot₁.inner = 0) →
                ∀ l slot₁, j < l → l < k + 1 → db.slots[l]? = some slot₁ → held slot₁.inner = 0 := by
              intro j hall l slot₁ hj hlk hslot₁
              rcases Nat.lt_succ_iff_lt_or_eq.mp hlk with hlt | rfl
              · exact hall l slot₁ hj hlt hslot₁
              · rw [hslot] at hslot₁
                obtain rfl := Option.some.inj hslot₁
                exact hzero
            rcases ih (by omega) with
              ⟨j, slot₂, slot', data, live, hj, hslot₂, hsound, hkind, hmem, hreleased, hstored, hall, hsteal⟩ |
              ⟨hfail, hall⟩
            · exact Or.inl ⟨j, slot₂, slot', data, live, hj, hslot₂, hsound, hkind, hmem, hreleased, hstored,
                hlast hall, hsteal⟩
            · exact Or.inr ⟨hfail, hlast hall⟩
          · rw [hrel]
            exact Or.inl ⟨k, slot, slot', data, live, by omega, hslot, hsound, hkind, hmem, hreleased, hstored,
              fun l _ hkl hlk => absurd hlk (by omega), rfl⟩

inductive Obtained (db : AdaptiveClauseDatabase) (slotIdx : Nat) : AdaptiveClauseDatabase → Option (Nat × Chunk) → Prop
  | allocated {mgr : ChunkManager} : mgr.chunks.length = db.chunkMgr.chunks.length →
      mgr.numAllocatable + mgr.numAvailable + 1 = db.chunkMgr.numAllocatable + db.chunkMgr.numAvailable →
      Obtained db slotIdx { db with chunkMgr := mgr } none
  | stolen {j : Nat} {slot slot' : ClauseSlot} {live : Chunk} : slotIdx < j → db.slots[j]? = some slot →
      live ∈ slot.inner → slot'.Sound → slot'.kind = slot.kind → slot.Released live slot' →
      stored slot.entrySize slot.inner = (live.elements slot.entrySize : Multiset _) + stored slot.entrySize slot'.inner →
      db.Exhausted j → Obtained db slotIdx (db.setSlot j slot') (some (j, live))

theorem SoundBut.chunkSource (h : db.SoundBut 0) (slotIdx : Nat) :
    (db.chunkSource slotIdx = .ok ⟨.totalFail, none, db, none⟩ ∧ db.Exhausted slotIdx) ∨
    ∃ data db' stolen, db.chunkSource slotIdx = .ok ⟨.success, some data, db', stolen⟩ ∧ db'.SoundBut 1 ∧
      db.Obtained slotIdx db' stolen ∧ ¬db.Exhausted slotIdx := by
  obtain ⟨c, mgr, hget, hmgr, hlen, hnone, hsome⟩ := h.manager.getChunkOrNullptr
  have hconserved := h.conserved
  rw [AdaptiveClauseDatabase.chunkSource, hget]
  cases c with
  | some data =>
      have hless := hsome (by simp)
      refine Or.inr ⟨data, { db with chunkMgr := mgr }, none, rfl, ⟨hmgr, h.slots, ?_⟩, .allocated hlen hless, fun hex => ?_⟩
      · simp only [hlen]
        omega
      · have := hex.manager
        omega
  | none =>
      obtain ⟨rfl, hall, hav⟩ := hnone rfl
      rcases h.stealChunk slotIdx le_rfl with
        ⟨j, slot, slot', data, live, hj, hslot, hsound, hkind, hmem, hreleased, hstored, hlast, hsteal⟩ | ⟨hfail, hempty⟩
      · have hex : db.Exhausted j := ⟨⟨hall, hav⟩, fun l slot₁ hjl hslot₁ =>
          hlast l slot₁ hjl (List.getElem?_eq_some_iff.mp hslot₁).1 hslot₁⟩
        refine Or.inr ⟨data, db.setSlot j slot', some (j, live), hsteal,
          h.setSlot hslot hsound hkind (by rw [hreleased.held_eq]),
          .stolen hj hslot hmem hsound hkind hreleased hstored hex, fun hex => ?_⟩
        have := hex.slots j slot hj hslot
        have := hreleased.held_eq
        omega
      · refine Or.inl ⟨hfail, ⟨hall, hav⟩, fun j slot hj hslot => ?_⟩
        exact hempty j slot hj (List.getElem?_eq_some_iff.mp hslot).1 hslot

theorem Obtained.slot_eq {stolen : Option (Nat × Chunk)} (h : db.Obtained i db' stolen) : db'.slots[i]? = db.slots[i]? := by
  cases h with
  | allocated _ _ => rfl
  | stolen hj _ _ _ _ _ _ _ =>
      rw [AdaptiveClauseDatabase.setSlot, List.getElem?_set_ne (by omega)]

theorem SoundBut.tryChunks {k : Nat} (h : db.SoundBut k) (hslot : db.slots[i]? = some slot) (hkeep : f.KeepsState)
    (hf : f.KeepsLive slot.entrySize) {finished : Bool} {cells' : List Chunk} {s' : σ}
    (hv : slot.visit f slot.inner s = .ok (finished, cells', s')) :
    ∃ slot' : ClauseSlot, slot.tryChunks f s = .ok ⟨finished, false, slot'.chunks, s'⟩ ∧
      slot' = { slot with chunks := slot'.chunks } ∧
      slot'.Sound ∧ slot'.inner.Perm cells' ∧ held slot'.inner = held slot.inner := by
  have hsound := (h.slots i slot hslot).sound
  obtain ⟨hcells', hheld⟩ := ClauseSlot.visit_keepsLive hkeep hf hsound.cell hv
  have htry := hsound.tryChunks (s := s) hkeep
  rw [hv] at htry
  obtain ⟨front, back, ds, hfront, hback, hok, hperm⟩ := htry
  have hheld' : held ds = held slot.inner := (ClauseSlot.held_perm hperm).trans hheld
  have hslot' := hsound.replace ds slot.numChunks hfront hback (fun c hc => hcells' c (hperm.subset hc))
    (by rw [hsound.count, hheld'])
  refine ⟨_, hok, rfl, hslot', ?_, ?_⟩
  · rw [ClauseSlot.inner_eq]
    exact hperm
  · rw [ClauseSlot.inner_eq]
    exact hheld'

theorem SoundBut.tryChunks_error {k : Nat} {e : DatabaseFault} (h : db.SoundBut k) (hslot : db.slots[i]? = some slot)
    (hkeep : f.KeepsState) (hv : slot.visit f slot.inner s = .error e) : slot.tryChunks f s = .error e := by
  have htry := (h.slots i slot hslot).sound.tryChunks (s := s) hkeep
  rw [hv] at htry
  exact htry

/-- What an insertion does: the chunks are tried, and once more after a new chunk has been obtained. -/
inductive Inserted (db : AdaptiveClauseDatabase) (i : Nat) (slot : ClauseSlot) (f : Inserter σ) (s : σ) : Insertion σ → Prop
  | first {cells' : List Chunk} {s' : σ} {slot' : ClauseSlot} : slot.visit f slot.inner s = .ok (true, cells', s') →
      slot'.kind = slot.kind → slot'.inner.Perm cells' → Inserted db i slot f s ⟨.success, db.setSlot i slot', s', none⟩
  | exhausted {cells' : List Chunk} {s' : σ} {slot' : ClauseSlot} : slot.visit f slot.inner s = .ok (false, cells', s') →
      slot'.kind = slot.kind → slot'.inner.Perm cells' → db.Exhausted i →
      Inserted db i slot f s ⟨.totalFail, db.setSlot i slot', s', none⟩
  | second {cells₁ cells' : List Chunk} {finished : Bool} {s₁ s' : σ} {slot₁ slot₂ slot' : ClauseSlot}
      {db₁ : AdaptiveClauseDatabase} {stolen : Option (Nat × Chunk)} :
      slot.visit f slot.inner s = .ok (false, cells₁, s₁) → slot₁.Sound → slot₁.kind = slot.kind →
      slot₁.inner.Perm cells₁ → (db.setSlot i slot₁).Obtained i db₁ stolen → ¬db.Exhausted i → slot₁.Extended slot₂ →
      slot₂.visit f slot₂.inner s₁ = .ok (finished, cells', s') → slot'.kind = slot.kind → slot'.inner.Perm cells' →
      Inserted db i slot f s ⟨if finished then .success else .totalFail, db₁.setSlot i slot', s', stolen⟩

theorem Inserted.stolen_mem {r : Insertion σ} {chunk : Chunk} (hr : Inserted db i slot f s r) (h : db.Sound)
    (hslot : db.slots[i]? = some slot) (hstolen : r.stolen = some (j, chunk)) :
    i < j ∧ j < db.slots.length ∧ ∃ slot₁, SlotFor db.maxLbdPartitionedSize j slot₁ ∧ chunk ∈ slot₁.inner := by
  cases hr with
  | first _ _ _ => cases hstolen
  | exhausted _ _ _ _ => cases hstolen
  | second _ hsound₁ hkind₁ _ hobt _ _ _ _ _ =>
      cases hobt with
      | allocated _ _ => cases hstolen
      | stolen hright hj hmem _ _ _ _ _ =>
          obtain ⟨rfl, rfl⟩ := Prod.mk.inj (Option.some.inj hstolen)
          have hlt := (List.getElem?_eq_some_iff.mp hj).1
          rw [AdaptiveClauseDatabase.setSlot, List.length_set] at hlt
          exact ⟨hright, hlt, _, h.slotFor_setSlot hslot hsound₁ hkind₁ hj, hmem⟩

theorem entrySize_eq_of_kind (h : slot'.kind = slot.kind) : slot'.entrySize = slot.entrySize := by
  simp only [ClauseSlot.kind, Prod.mk.injEq] at h
  rw [ClauseSlot.entrySize, ClauseSlot.entrySize, h.1, h.2.2.1]

theorem exhausted_setSlot (hij : i ≤ j) : (db.setSlot i slot').Exhausted j ↔ db.Exhausted j := by
  have hsame : ∀ k, j < k → (db.setSlot i slot').slots[k]? = db.slots[k]? := by
    intro k hk
    rw [AdaptiveClauseDatabase.setSlot, List.getElem?_set_ne (by omega)]
  constructor
  · intro h
    exact ⟨h.manager, fun k slot hk hslot => h.slots k slot hk ((hsame k hk).trans hslot)⟩
  · intro h
    exact ⟨h.manager, fun k slot hk hslot => h.slots k slot hk ((hsame k hk).symm.trans hslot)⟩

theorem Sound.insert (h : db.Sound) (hslot : db.slots[i]? = some slot) (hkeep : f.KeepsState)
    (hf : f.KeepsLive slot.entrySize) :
    (¬f.Succeeds slot.entrySize ∧ ∃ e, db.insert i slot f s = .error e) ∨
    ∃ r, db.insert i slot f s = .ok r ∧ r.db.Sound ∧ Inserted db i slot f s r := by
  have hquiet := (h.slots i slot hslot).sound.quiet.1
  have hlt := (List.getElem?_eq_some_iff.mp hslot).1
  rw [AdaptiveClauseDatabase.insert]
  cases hv : slot.visit f slot.inner s with
  | error e =>
      rw [h.tryChunks_error hslot hkeep hv]
      refine Or.inl ⟨fun hsucc => ?_, e, rfl⟩
      obtain ⟨r, hr⟩ : ∃ r, slot.visit f slot.inner s = .ok r :=
        ClauseSlot.visit_succeeds hsucc (h.slots i slot hslot).sound.cell
      rw [hv] at hr
      cases hr
  | ok r =>
      obtain ⟨finished, cells₁, s₁⟩ := r
      obtain ⟨slot₁, htry, hchunks, hsound₁, hperm₁, hheld₁⟩ := h.tryChunks hslot hkeep hf hv
      have hkind₁ : slot₁.kind = slot.kind := by rw [hchunks]; rfl
      have hdb₁ : (db.setSlot i slot₁).SoundBut 0 := h.setSlot hslot hsound₁ hkind₁ (by rw [hheld₁])
      rw [htry]
      simp only [← hchunks, Bool.false_eq_true, false_or]
      cases finished with
      | true => exact Or.inr ⟨_, rfl, hdb₁, .first hv hkind₁ hperm₁⟩
      | false =>
          simp only [hquiet, Bool.false_eq_true, if_false]
          rcases hdb₁.chunkSource i with ⟨hfail, hex⟩ | ⟨data, db₂, stolen, hok, hdb₂, hobt, hnot⟩
          · rw [hfail]
            exact Or.inr ⟨_, rfl, hdb₁, .exhausted hv hkind₁ hperm₁ ((exhausted_setSlot le_rfl).mp hex)⟩
          · obtain ⟨slot₂, hadd, hext⟩ := hsound₁.addChunk data
            have hslot₁ : (db.setSlot i slot₁).slots[i]? = some slot₁ := List.getElem?_set_self hlt
            have hslot₂ : db₂.slots[i]? = some slot₁ := hobt.slot_eq.trans hslot₁
            have hlt₂ := (List.getElem?_eq_some_iff.mp hslot₂).1
            have hkind₂ : slot₂.kind = slot.kind := hext.kind_eq.trans hkind₁
            have hentry : slot₂.entrySize = slot.entrySize := entrySize_eq_of_kind hkind₂
            have hdb₃ : (db₂.setSlot i slot₂).SoundBut 0 :=
              hdb₂.setSlot hslot₂ hext.sound hext.kind_eq (by rw [hext.held_eq])
            have hslot₃ : (db₂.setSlot i slot₂).slots[i]? = some slot₂ := List.getElem?_set_self hlt₂
            rw [hok]
            simp only [if_true, insertSecond, Option.bind_some, hadd]
            cases hv' : slot₂.visit f slot₂.inner s₁ with
            | error e =>
                rw [hdb₃.tryChunks_error hslot₃ hkeep hv']
                refine Or.inl ⟨fun hsucc => ?_, e, rfl⟩
                rw [← hentry] at hsucc
                obtain ⟨r, hr⟩ : ∃ r, slot₂.visit f slot₂.inner s₁ = .ok r :=
                  ClauseSlot.visit_succeeds hsucc hext.sound.cell
                rw [hv'] at hr
                cases hr
            | ok r =>
                obtain ⟨finished, cells', s'⟩ := r
                obtain ⟨slot', htry', hchunks', hsound', hperm', hheld'⟩ :=
                  hdb₃.tryChunks hslot₃ hkeep (by rw [hentry]; exact hf) hv'
                have hkind' : slot'.kind = slot.kind := by rw [hchunks']; exact hkind₂
                have hdb' : (db₂.setSlot i slot').SoundBut 0 :=
                  hdb₂.setSlot hslot₂ hsound' (hkind'.trans hkind₁.symm) (by rw [hheld', hext.held_eq])
                rw [htry']
                refine Or.inr ⟨⟨if finished then .success else .totalFail, db₂.setSlot i slot', s', stolen⟩, ?_, hdb',
                  .second hv hsound₁ hkind₁ hperm₁ hobt (fun hex => hnot ((exhausted_setSlot le_rfl).mpr hex)) hext hv' hkind'
                    hperm'⟩
                simp only [← hchunks', Bool.false_eq_true, if_false]

end AdaptiveClauseDatabase

section Agreement

variable {P : σ → Prop} {g : Inserter σ} {db : AdaptiveClauseDatabase} (hfg : ∀ chunk s, P s → f chunk s = g chunk s)
  (hP : ∀ chunk s finished chunk' s', P s → f chunk s = .ok (finished, chunk', s') → P s')

include hfg hP

theorem ClauseSlot.sweep_agree (hs : P s)
    (seen : List Chunk) (first : Option Nat) (busy : Bool) (cells : List Chunk) :
    slot.sweep f seen first busy cells s = slot.sweep g seen first busy cells s ∧
      ∀ r, slot.sweep f seen first busy cells s = .ok r → P r.state := by
  induction cells generalizing seen first busy s with
  | nil => exact ⟨rfl, by rintro r ⟨⟩; exact hs⟩
  | cons chunk cells ih =>
      rw [sweep, sweep]
      split
      · exact ⟨rfl, by rintro r ⟨⟩; exact hs⟩
      · split
        · exact ih hs _ _ _
        · cases chunk.enter with
          | none => exact ih hs _ _ _
          | some entered =>
              have hsame := hfg entered s hs
              cases hf : f entered s with
              | error e =>
                  simp only [← hsame, hf]
                  exact ⟨trivial, by rintro r ⟨⟩⟩
              | ok r =>
                  obtain ⟨finished, inserted, s'⟩ := r
                  have hs' := hP entered s finished inserted s' hs hf
                  simp only [← hsame, hf]
                  cases finished with
                  | true => exact ⟨rfl, by rintro r ⟨⟩; exact hs'⟩
                  | false => exact ih hs' _ _ _

theorem ClauseSlot.visit_agree (hs : P s) (cells : List Chunk) :
    slot.visit f cells s = slot.visit g cells s ∧ ∀ r, slot.visit f cells s = .ok r → P r.2.2 := by
  induction cells generalizing s with
  | nil => exact ⟨rfl, by rintro r ⟨⟩; exact hs⟩
  | cons chunk cells ih =>
      rw [visit, visit]
      have hmap : ∀ {s : σ} (hr : P s) (k : Chunk), (slot.visit f cells s).map (fun r => (r.1, k :: r.2.1, r.2.2)) =
            (slot.visit g cells s).map (fun r => (r.1, k :: r.2.1, r.2.2)) ∧
          ∀ r, (slot.visit f cells s).map (fun r => (r.1, k :: r.2.1, r.2.2)) = .ok r → P r.2.2 := by
        intro s hs k
        obtain ⟨heq, hstate⟩ := ih hs
        refine ⟨by rw [heq], fun r hr => ?_⟩
        cases hv : slot.visit f cells s with
        | error e => rw [hv] at hr; cases hr
        | ok r' =>
            rw [hv] at hr
            obtain rfl := Except.ok.inj hr
            exact hstate r' hv
      split
      · exact hmap hs chunk
      · have hsame := hfg { chunk with state := .valid 1 } s hs
        cases hf : f { chunk with state := .valid 1 } s with
        | error e =>
            simp only [← hsame, hf]
            exact ⟨trivial, by rintro r ⟨⟩⟩
        | ok r =>
            obtain ⟨finished, inserted, s'⟩ := r
            have hs' := hP _ s finished inserted s' hs hf
            simp only [← hsame, hf]
            cases finished with
            | true => exact ⟨rfl, by rintro r ⟨⟩; exact hs'⟩
            | false => exact hmap hs' inserted.leave

namespace AdaptiveClauseDatabase

theorem insertSecond_agree (hs : P s) (sourced : Sourced) : insertSecond i slot f sourced s = insertSecond i slot g sourced s := by
  have htry : ∀ slot' : ClauseSlot, slot'.tryChunks f s = slot'.tryChunks g s := fun slot' =>
    (ClauseSlot.sweep_agree hfg hP hs _ _ _ _).1
  simp only [insertSecond, htry]

theorem insert_agree (hs : P s) :
    db.insert i slot f s = db.insert i slot g s := by
  obtain ⟨hsweep, hstate⟩ :=
    @ClauseSlot.sweep_agree σ slot f s P g hfg hP hs (slot.chunks.take 1) none false (slot.chunks.drop 1)
  rw [AdaptiveClauseDatabase.insert, AdaptiveClauseDatabase.insert, ClauseSlot.tryChunks, ClauseSlot.tryChunks, ← hsweep]
  cases hr : slot.sweep f (slot.chunks.take 1) none false (slot.chunks.drop 1) s with
  | error e => rfl
  | ok first =>
      have hsecond : ∀ (slot' : ClauseSlot) (sourced : Sourced), insertSecond i slot' f sourced first.state =
          insertSecond i slot' g sourced first.state := fun _ sourced => insertSecond_agree hfg hP (hstate first hr) sourced
      simp only [hsecond]

end AdaptiveClauseDatabase

end Agreement

/-- An insertion with an inserter that is only ever used in certain states. -/
theorem AdaptiveClauseDatabase.Sound.insert_guarded {P : σ → Prop} {db : AdaptiveClauseDatabase} (h : db.Sound) (hslot : db.slots[i]? = some slot) (hkeep : f.KeepsState)
    (hP : ∀ chunk s finished chunk' s', P s → f chunk s = .ok (finished, chunk', s') → P s')
    (hf : ∀ (chunk : Chunk) (s : σ), P s → chunk.Live slot.entrySize → ∃ finished chunk' s',
      f { chunk with state := .valid 1 } s = .ok (finished, chunk', s') ∧
        ({ chunk' with state := .valid 0 } : Chunk).Live slot.entrySize) (hs : P s) :
    ∃ r, db.insert i slot f s = .ok r ∧ r.db.Sound ∧ Inserted db i slot f s r := by
  classical
  let g : ClauseSlot.Inserter σ := fun chunk s => if P s then f chunk s else .ok (false, chunk, s)
  have hfg : ∀ chunk s, P s → f chunk s = g chunk s := fun chunk s hs => (if_pos hs).symm
  have hgkeep : g.KeepsState := by
    intro chunk s finished chunk' s' hg
    simp only [g] at hg
    split at hg
    · exact hkeep chunk s finished chunk' s' hg
    · obtain ⟨-, rfl, -⟩ := by simpa using hg
      rfl
  have hglive : g.KeepsLive slot.entrySize := by
    intro chunk s finished chunk' s' hlive hg
    simp only [g] at hg
    split at hg
    · next hs =>
        obtain ⟨_, _, _, hok, hlive'⟩ := hf chunk s hs hlive
        rw [hok] at hg
        obtain ⟨-, rfl, -⟩ := by simpa using hg
        exact hlive'
    · obtain ⟨-, rfl, -⟩ := by simpa using hg
      exact ⟨rfl, hlive.unused, hlive.holds⟩
  have hgsucc : g.Succeeds slot.entrySize := by
    intro chunk s hlive
    simp only [g]
    split
    · next hs =>
        obtain ⟨_, _, _, hok, -⟩ := hf chunk s hs hlive
        exact ⟨_, hok⟩
    · exact ⟨_, rfl⟩
  rw [insert_agree hfg hP hs]
  rcases h.insert (s := s) hslot hgkeep hglive with ⟨hfail, -⟩ | ⟨r, hok, hsound, hins⟩
  · exact absurd hgsucc hfail
  · refine ⟨r, hok, hsound, ?_⟩
    cases hins with
    | first hv hkind hperm =>
        rw [← (ClauseSlot.visit_agree hfg hP hs _).1] at hv
        exact .first hv hkind hperm
    | exhausted hv hkind hperm hex =>
        rw [← (ClauseSlot.visit_agree hfg hP hs _).1] at hv
        exact .exhausted hv hkind hperm hex
    | second hv hsound₁ hkind₁ hperm₁ hobt hnot hext hv' hkind' hperm' =>
        obtain ⟨heq, hstate⟩ := @ClauseSlot.visit_agree σ slot f s P g hfg hP hs slot.inner
        rw [← heq] at hv
        rw [← (ClauseSlot.visit_agree hfg hP (hstate _ hv) _).1] at hv'
        exact .second hv hsound₁ hkind₁ hperm₁ hobt hnot hext hv' hkind' hperm'

end Mallob.Sharing
