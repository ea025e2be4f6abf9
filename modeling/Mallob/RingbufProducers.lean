import Mallob.RingbufSteps

namespace Mallob.RingbufThreads

open RangeChains

variable {α : Type} {s s' : State α} {L L' : Layout α} {w : Nat} {x : Worker α}

theorem Sound.registered (h : Sound s L) (hcall : (s.workers w).call ≠ .idle) : w < s.nworkers := by
  by_contra hlt
  exact hcall (h.inside w (Nat.le_of_not_lt hlt))

/-- Two ranges that the same producer has not produced are the same one. -/
theorem Sound.record_unique (h : Sound s L) {r r' : Record α} (hr : r ∈ L.records) (hr' : r' ∈ L.records)
    (hp : r.produced = false) (hp' : r'.produced = false) (hw : r.worker = r'.worker) : r = r' := by
  obtain ⟨-, hholding, u, hseen⟩ := h.holds r hr hp
  obtain ⟨-, hholding', u', hseen'⟩ := h.holds r' hr' hp'
  rw [hw, hholding'] at hholding
  rw [hw, hseen'] at hseen
  obtain ⟨hoff, hdata⟩ := Prod.mk.inj (Option.some.inj hholding)
  obtain ⟨hs, -⟩ := SeenOff.at.inj hseen
  cases r
  cases r'
  simp_all only

theorem Sound.setCall (h : Sound s L) {call : Producing α} (hw : w < s.nworkers)
    (hx : Worker.Sound s L ⟨(s.workers w).seenOff, call⟩) (hholding : call.holding = (s.workers w).call.holding)
    (hlocks : call.locks = true → (s.workers w).call.locks = true) : Sound (s.setCall w call) L := by
  refine h.setWorker hw hx hholding (fun r hr => ?_) hlocks
  obtain ⟨hh, hseen⟩ := hr
  exact ⟨hholding.trans hh, hseen⟩

theorem Sound.setIdle (h : Sound s L) (hw : w < s.nworkers) (hx : x.Sound s L)
    (hnone : (s.workers w).call.holding = none) (hholding : x.call.holding = none)
    (hlocks : x.call.locks = false) : Sound (s.setWorker w x) L := by
  refine h.setWorker hw hx (hholding.trans hnone.symm) (fun r hr => ?_) (fun hl => ?_)
  · have hh := hr.1
    rw [hnone] at hh
    cases hh
  · rw [hlocks] at hl
    cases hl

section Acquire

variable {data : List α} {seen t : Next}

theorem Sound.loadNext (h : Sound s L) (hcall : (s.workers w).call = .loadNext data) (hlocked : s.next.locked = false) :
    Sound (s.setCall w (.storeSeen data s.next)) L := by
  have hx := h.workers w
  simp only [Worker.Sound, hcall] at hx
  refine h.setCall (h.registered (by simp [hcall])) ?_ (by rw [hcall]; rfl) (by simp [Producing.locks])
  exact ⟨hx.1, hx.2, h.observed hlocked⟩

theorem Sound.storeSeen (h : Sound s L) (hcall : (s.workers w).call = .storeSeen data seen) :
    Sound (s.setWorker w ⟨.at seen.off true, .loadWritten data seen⟩) L := by
  have hx := h.workers w
  simp only [Worker.Sound, hcall] at hx
  exact h.setIdle (h.registered (by simp [hcall])) ⟨rfl, hx.2.1, hx.2.2⟩ (by rw [hcall]; rfl) rfl rfl

/-- The written offset that was just observed is good for any NEXT offset. -/
theorem stale_refl (written next : Nat) : Stale written written next :=
  ⟨fun hle => ⟨le_rfl, hle⟩, fun _ => Or.inl le_rfl⟩

theorem Sound.loadWritten (h : Sound s L) (hcall : (s.workers w).call = .loadWritten data seen)
    (ht : target s.space seen data.length s.written = some t) :
    Sound (s.setCall w (.compareExchange data seen t)) L := by
  have hx := h.workers w
  simp only [Worker.Sound, hcall] at hx
  refine h.setCall (h.registered (by simp [hcall])) ?_ (by rw [hcall]; rfl) (by simp [Producing.locks])
  exact ⟨hx.1, hx.2.1, hx.2.2, s.written, h.written_lt, ht, fun _ _ => stale_refl _ _⟩

theorem Sound.mustWait (h : Sound s L) (hcall : (s.workers w).call = .loadWritten data seen) :
    Sound (s.setCall w .giveUp) L := by
  have hx := h.workers w
  simp only [Worker.Sound, hcall] at hx
  refine h.setCall (h.registered (by simp [hcall])) (fun off => ?_) (by rw [hcall]; rfl) (by simp [Producing.locks])
  simp [hx.1]

theorem Sound.giveUp (h : Sound s L) (hcall : (s.workers w).call = .giveUp) :
    Sound (s.setWorker w ⟨.max, .idle⟩) L :=
  h.setIdle (h.registered (by simp [hcall])) rfl (by rw [hcall]; rfl) rfl rfl

theorem Sound.retry (h : Sound s L) (hcall : (s.workers w).call = .compareExchange data seen t) :
    Sound (s.setCall w (.loadNext data)) L := by
  have hx := h.workers w
  simp only [Worker.Sound, hcall] at hx
  refine h.setCall (h.registered (by simp [hcall])) ⟨fun off => ?_, hx.2.1⟩ (by rw [hcall]; rfl)
    (by simp [Producing.locks])
  simp [hx.1]

theorem Sound.clearUnstable (h : Sound s L) (hcall : (s.workers w).call = .clearUnstable data seen t) :
    t.off ≤ s.space ∧ Sound (s.setWorker w ⟨.at seen.off false,
      if t.locked then .storeEnd data seen t else .copy data (acquiredOffset seen t) 0⟩) L := by
  have hx := h.workers w
  simp only [Worker.Sound, hcall] at hx
  obtain ⟨hseen, hle, hlocking⟩ := hx
  have hholds : ∀ call : Producing α, call.holding = (s.workers w).call.holding → ∀ r, (s.workers w).Holds r →
      Worker.Holds ⟨.at seen.off false, call⟩ r := by
    rintro call hc r ⟨hh, u, hu⟩
    rw [hseen] at hu
    obtain ⟨hoff, -⟩ := SeenOff.at.inj hu
    exact ⟨hc.trans hh, false, by rw [hoff]⟩
  refine ⟨hle, ?_⟩
  split
  · next ht =>
      have hheld : (Producing.storeEnd data seen t).holding = (s.workers w).call.holding := by rw [hcall]; rfl
      exact h.setWorker (h.registered (by simp [hcall])) ⟨rfl, hlocking ht⟩ hheld (hholds _ hheld)
        (fun _ => by rw [hcall]; exact ht)
  · have hheld : (Producing.copy data (acquiredOffset seen t) 0).holding = (s.workers w).call.holding := by
      rw [hcall]; rfl
    exact h.setWorker (h.registered (by simp [hcall]))
      ⟨⟨_, rfl⟩, Nat.zero_le _, fun i _ hlt => absurd hlt (Nat.not_lt_zero i)⟩ hheld (hholds _ hheld)
      (fun hl => by cases hl)

end Acquire

section Lock

variable {n : Next} {fin : Option Nat}

/-- While a producer holds the lock the consumer does not look at the end offset. -/
theorem ConsumerSound.settle (h : ConsumerSound s L) (hlocked : s.next.locked = true)
    (hconsumer : s'.consumer = s.consumer) (hwritten : s'.written = s.written) : ConsumerSound s' L := by
  rw [ConsumerSound] at h ⊢
  rw [hconsumer]
  have hcontra : s.next.locked = false → False := fun hunlocked => by
    rw [hlocked] at hunlocked
    cases hunlocked
  cases hc : s.consumer with
  | idle => trivial
  | loadNext => trivial
  | scan next i ready =>
      simp only [hc] at h ⊢
      obtain ⟨hne, hahead, hbehind, hboundary, hobserved⟩ := h
      refine ⟨hwritten ▸ hne, hwritten ▸ hahead, fun hlt => ?_, hwritten ▸ hboundary, hwritten ▸ hobserved⟩
      exact (hcontra (hbehind (hwritten ▸ hlt)).1).elim
  | clearEnd =>
      simp only [hc] at h
      exact (hcontra h.unlocked).elim
  | resetWritten =>
      simp only [hc] at h
      exact (hcontra h.1.unlocked).elim
  | copy size copied =>
      simp only [hc] at h ⊢
      exact ⟨h.pos, h.le, hwritten ▸ h.source⟩

/-- The producer with the lock sets the end offset, or it unlocks NEXT. -/
theorem Sound.settle (h : Sound s L) (hlocks : (s.workers w).call.locks = true) (hlocked : s.next.locked = true)
    (hs' : s' = { s.setWorker w x with next := n, fin := fin }) (hoff : n.off = s.next.off)
    (hcounter : n.counter = s.next.counter) (hflat : ∀ front, L ≠ .flat front) (hmarked : L.Marked s')
    (hx : x.Sound s' L) (hholding : x.call.holding = (s.workers w).call.holding)
    (hseen : x.seenOff = (s.workers w).seenOff) : Sound s' L := by
  have heq : ∀ v, s'.workers v = if v = w then x else s.workers v := fun v => by
    simp only [hs', State.setWorker, Function.update_apply]
  have hw : w < s.nworkers := by
    refine h.registered fun hidle => ?_
    rw [hidle] at hlocks
    cases hlocks
  have hother : ∀ v, v ≠ w → (s.workers v).call.locks = false := fun v hv => by
    rw [← Bool.not_eq_true]
    exact fun hl => hv (h.lock v w hl hlocks)
  have hfields : s'.space = s.space ∧ s'.written = s.written ∧ s'.nworkers = s.nworkers ∧ s'.wraps = s.wraps ∧
      s'.cells = s.cells ∧ s'.next = n ∧ s'.acquired = s.acquired ∧ s'.consumed = s.consumed ∧
      s'.consumer = s.consumer := by
    subst hs'
    exact ⟨rfl, rfl, rfl, rfl, rfl, rfl, rfl, rfl, rfl⟩
  obtain ⟨hspace, hwritten, hnworkers, hwraps, hcells, hnext, hacquired, hconsumed, hconsumer⟩ := hfields
  refine {
    next_lt := by rw [hnext, hoff, hspace]; exact h.next_lt
    written_lt := by rw [hwritten, hspace]; exact h.written_lt
    counter_eq := by rw [hnext, hcounter, hwraps]; exact h.counter_eq
    fills := ?_, marked := hmarked, nonempty := h.nonempty
    seen := by rw [hspace]; exact h.seen
    holds := ?_, held := ?_
    contents := by rw [hcells]; exact h.contents
    inside := ?_, workers := ?_, lock := ?_, consumer := h.consumer.settle hlocked hconsumer hwritten
    log := by rw [hacquired, hconsumed]; exact h.log }
  · have hf := h.fills
    cases L with
    | flat front => exact absurd rfl (hflat front)
    | wrapped front back limit =>
        simp only [Layout.Fills, hwritten, hnext, hoff, hspace]
        exact ⟨hf.1, hf.2.1, hf.2.2.1, hf.2.2.2.1, fun _ => hf.2.2.2.2 hlocked⟩
  · intro r hr hp
    obtain ⟨hlt, hheld, hs⟩ := h.holds r hr hp
    rw [hnworkers, heq]
    refine ⟨hlt, ?_⟩
    split
    · next hrw =>
        rw [hrw] at hheld hs
        exact ⟨hholding.trans hheld, hseen ▸ hs⟩
    · exact ⟨hheld, hs⟩
  · intro v off data hv
    rw [heq] at hv
    split at hv
    · next hvw =>
        rw [hholding, ← hvw] at hv
        exact h.held v off data hv
    · exact h.held v off data hv
  · intro v hv
    rw [hnworkers] at hv
    rw [heq, if_neg (by omega)]
    exact h.inside v hv
  · intro v
    rw [heq]
    split
    · exact hx
    · next hvw =>
        refine (h.workers v).change hspace (fun _ ho => ho.advance hspace (Or.inl ⟨hwraps, by rw [hnext, hoff]⟩)) ?_
          (fun hl => by rw [hother v hvw] at hl; cases hl) (fun _ _ _ _ _ => by rw [hcells])
        rintro len seen t - ⟨observed, hlt, ht, hst⟩
        refine ⟨observed, hspace ▸ hlt, hspace ▸ ht, ?_⟩
        rw [hwraps, hnext, hoff, hwritten]
        exact hst
  · have hl : ∀ v, (s'.workers v).call.locks = true → v = w := by
      intro v hv
      by_contra hvw
      rw [heq, if_neg hvw, hother v hvw] at hv
      cases hv
    intro v v' hv hv'
    rw [hl v hv, hl v' hv']

variable {data : List α} {seen t : Next}

/-- The assertions on the end offset hold, which becomes the limit of the ranges in front. -/
theorem Sound.storeEnd (h : Sound s L) (hcall : (s.workers w).call = .storeEnd data seen t) :
    (s.written ≤ seen.off ∧ s.fin = none) ∧
      Sound { s.setCall w (.unlock data seen t) with fin := some seen.off } L := by
  have hx := h.workers w
  simp only [Worker.Sound, hcall] at hx
  obtain ⟨hseen, hlocking⟩ := hx
  obtain ⟨front, back, rfl⟩ := hlocking.limit_eq
  have hlocked : s.next.locked = true := by rw [hlocking.next_eq]; exact hlocking.locked
  refine ⟨⟨h.fills.1.le, hlocking.fin_eq⟩, ?_⟩
  refine h.settle (x := ⟨_, .unlock data seen t⟩) (by rw [hcall]; rfl) hlocked rfl rfl rfl (by simp) ?_ ?_
    (by rw [hcall]; rfl) rfl
  · refine ⟨fun e he => (Option.some.inj he).symm, fun hunlocked => ?_⟩
    change s.next.locked = false at hunlocked
    rw [hlocked] at hunlocked
    cases hunlocked
  · exact ⟨hseen, hlocking.next_eq, hlocking.locked, rfl, hlocking.limit_eq⟩

/-- With the lock released the end offset tells where the ranges in front end. -/
theorem Sound.unlock (h : Sound s L) (hcall : (s.workers w).call = .unlock data seen t) :
    Sound { s.setCall w (.copy data (acquiredOffset seen t) 0) with next := { t with locked := false } } L := by
  have hx := h.workers w
  simp only [Worker.Sound, hcall] at hx
  obtain ⟨hseen, hlocking⟩ := hx
  obtain ⟨front, back, rfl⟩ := hlocking.limit_eq
  have hlocked : s.next.locked = true := by rw [hlocking.next_eq]; exact hlocking.locked
  have hlt : seen.off < s.space := h.fills.2.2.2.2 hlocked
  refine h.settle (x := ⟨_, .copy data (acquiredOffset seen t) 0⟩) (by rw [hcall]; rfl) hlocked rfl
    (by rw [hlocking.next_eq]) (by rw [hlocking.next_eq]) (by simp) ?_ ?_ (by rw [hcall]; rfl) rfl
  · refine ⟨h.marked.1, fun _ _ => ?_⟩
    change s.fin = if seen.off = s.space then none else some seen.off
    rw [if_neg hlt.ne]
    exact hlocking.fin_eq
  · exact ⟨⟨_, hseen⟩, Nat.zero_le _, fun i _ hi => absurd hi (Nat.not_lt_zero i)⟩

end Lock


section Produce

variable {data : List α} {offset copied : Nat}

theorem Sound.copying (h : Sound s L) (hcall : (s.workers w).call = .copy data offset copied) :
    ∃ r ∈ L.records, r.produced = false ∧ r.worker = w ∧ r.off = offset ∧ r.data = data :=
  h.held w offset data (by rw [hcall]; rfl)

theorem Sound.setCells (h : Sound s L) {cells : Nat → α}
    (hcontents : ∀ r ∈ L.records, r.produced = true → ∀ i, i < r.data.length → cells (r.off + i) = s.cells (r.off + i))
    (hworkers : ∀ v, (s.workers v).Sound { s with cells := cells } L) : Sound { s with cells := cells } L where
  next_lt := h.next_lt
  written_lt := h.written_lt
  counter_eq := h.counter_eq
  fills := by
    have hf := h.fills
    cases L with
    | flat front => exact hf
    | wrapped front back limit => exact hf
  marked := by
    have hm := h.marked
    cases L with
    | flat front => trivial
    | wrapped front back limit => exact hm
  nonempty := h.nonempty
  seen := h.seen
  holds := h.holds
  held := h.held
  contents r hr hp i hi := (hcontents r hr hp i hi).trans (h.contents r hr hp i hi)
  inside := h.inside
  workers := hworkers
  lock := h.lock
  consumer := h.consumer.change rfl rfl (fun _ _ _ hs => ⟨hs.ne, hs.ahead, hs.behind, hs.boundary, hs.observed⟩)
    (fun he => ⟨he.unlocked, he.layout⟩) (fun _ _ hc => ⟨hc.pos, hc.le, hc.source⟩)
  log := h.log

theorem Sound.copyCell (h : Sound s L) (hcall : (s.workers w).call = .copy data offset copied) {a : α}
    (ha : data[copied]? = some a) :
    Sound { s.setCall w (.copy data offset (copied + 1)) with
      cells := Function.update s.cells (offset + copied) a } L := by
  obtain ⟨hlt, hget⟩ := List.getElem?_eq_some_iff.mp ha
  obtain ⟨r, hr, hp, rfl, rfl, rfl⟩ := h.copying hcall
  have hx := h.workers r.worker
  simp only [Worker.Sound, hcall] at hx
  obtain ⟨hseen, hle, hdone⟩ := hx
  have hframe : ∀ r' ∈ L.records, r' ≠ r → ∀ i, i < r'.data.length →
      Function.update s.cells (r.off + copied) a (r'.off + i) = s.cells (r'.off + i) := by
    intro r' hr' hne i hi
    refine Function.update_of_ne ?_ _ _
    rcases h.fills.separate hr' hr with heq | hsep | hsep
    · exact absurd heq hne
    · omega
    · omega
  have hbefore : ∀ i, i < copied → Function.update s.cells (r.off + copied) a (r.off + i) = s.cells (r.off + i) :=
    fun i hi => Function.update_of_ne (by omega) _ _
  have hcells : Sound { s with cells := Function.update s.cells (r.off + copied) a } L := by
    refine h.setCells (fun r' hr' hp' => hframe r' hr' ?_) fun v => ?_
    · rintro rfl
      rw [hp] at hp'
      cases hp'
    · by_cases hv : v = r.worker
      · rw [hv, Worker.Sound, hcall]
        refine ⟨hseen, hle, fun i hi hlt' => ?_⟩
        exact (hbefore i hlt').trans (hdone i hi hlt')
      · refine (h.workers v).change rfl (fun _ ho => ⟨ho.unlocked, ho.lt, ho.counter_le, ho.off_le⟩)
          (fun _ _ _ _ ha => ha) (fun _ _ _ _ hl => ⟨hl.next_eq, hl.locked, hl.fin_eq, hl.limit_eq⟩) ?_
        intro offset data hholding
        obtain ⟨r', hr', hp', rfl, rfl, rfl⟩ := h.held v offset data hholding
        exact hframe r' hr' fun heq => hv (by rw [heq])
  refine hcells.setCall (h.holds r hr hp).1 ⟨hseen, hlt, fun i hi hlt' => ?_⟩ (by rw [hcall]; rfl)
    (fun hl => by cases hl)
  rcases Nat.lt_succ_iff_lt_or_eq.mp hlt' with hlt' | rfl
  · exact (hbefore i hlt').trans (hdone i hi hlt')
  · exact (Function.update_self ..).trans hget.symm

end Produce

section Mark

variable {f : Record α → Record α}

structure Marks (f : Record α → Record α) : Prop where
  off_eq : ∀ r, (f r).off = r.off
  data_eq : ∀ r, (f r).data = r.data
  produced : ∀ r, r.produced = true → (f r).produced = true
  eq_self : ∀ r, (f r).produced = false → f r = r

@[simp] theorem Layout.records_mapRecords (L : Layout α) : (L.mapRecords f).records = L.records.map f := by
  cases L with
  | flat front => rfl
  | wrapped front back limit => exact (List.map_append ..).symm

@[simp] theorem Layout.front_mapRecords (L : Layout α) : (L.mapRecords f).front = L.front.map f := by
  cases L <;> rfl

variable {a b : Nat} {rs : List (Record α)}

theorem Marks.placed (hf : Marks f) (h : Placed a b rs) : Placed a b (rs.map f) :=
  Chain.map h (fun r _ => hf.off_eq r) (fun r _ => by rw [hf.data_eq r])

theorem Marks.exists_of_mem (hf : Marks f) {r : Record α} (hr : r ∈ rs.map f) (hp : r.produced = false) :
    r ∈ rs ∧ f r = r := by
  obtain ⟨r', hr', rfl⟩ := List.mem_map.mp hr
  rw [hf.eq_self r' hp]
  exact ⟨hr', hf.eq_self r' hp⟩

theorem Marks.map_data (hf : Marks f) (rs : List (Record α)) : (rs.map f).map Record.data = rs.map Record.data := by
  rw [List.map_map]
  exact List.map_congr_left fun r _ => hf.data_eq r

theorem Marks.fills (hf : Marks f) (h : L.Fills s) : (L.mapRecords f).Fills s := by
  cases L with
  | flat front => exact ⟨hf.placed h.1, h.2⟩
  | wrapped front back limit => exact ⟨hf.placed h.1, hf.placed h.2.1, h.2.2⟩

theorem Marks.seen {space : Nat} {r : Record α} (h : L.Seen space r) : (L.mapRecords f).Seen space r := by
  cases L with
  | flat front => exact h
  | wrapped front back limit => exact h

theorem Marks.locking {seen t : Next} {fin : Option Nat} (h : Locking s L seen t fin) :
    Locking s (L.mapRecords f) seen t fin := by
  obtain ⟨hnext, hlocked, hfin, front, back, rfl⟩ := h
  exact ⟨hnext, hlocked, hfin, _, _, rfl⟩

theorem Marks.scanned (hf : Marks f) {next i : Nat} {ready : Option Nat} (h : Scanned s L next i ready) :
    Scanned s (L.mapRecords f) next i ready where
  ne := h.ne
  ahead := by
    intro hlt
    obtain ⟨pre, hpre, hplaced⟩ := h.ahead hlt
    exact ⟨pre.map f, by rw [Layout.front_mapRecords]; exact hpre.map f, hf.placed hplaced⟩
  behind := by
    intro hlt
    obtain ⟨hunlocked, front, back, limit, rfl⟩ := h.behind hlt
    exact ⟨hunlocked, _, _, _, rfl⟩
  boundary := by
    intro v hv
    obtain ⟨pre, hpre, hplaced⟩ := h.boundary v hv
    exact ⟨pre.map f, by rw [Layout.front_mapRecords]; exact hpre.map f, hf.placed hplaced⟩
  observed := by
    intro r hr hp
    rw [Layout.records_mapRecords] at hr
    exact h.observed r (hf.exists_of_mem hr hp).1 hp

theorem Marks.emptied (hf : Marks f) (h : Emptied s L) : Emptied s (L.mapRecords f) := by
  obtain ⟨back, rfl, hback⟩ := h.layout
  exact ⟨h.unlocked, back.map f, rfl, fun r hr hp => hback r (hf.exists_of_mem hr hp).1 hp⟩

theorem Marks.copying (hf : Marks f) {size : Nat} {copied : List α} (h : Copying s L size copied) :
    Copying s (L.mapRecords f) size copied := by
  obtain ⟨pre, hpre, hplaced, hproduced, hcopied⟩ := h.source
  refine ⟨h.pos, h.le, pre.map f, by rw [Layout.front_mapRecords]; exact hpre.map f, hf.placed hplaced, ?_, ?_⟩
  · intro r hr
    obtain ⟨r', hr', rfl⟩ := List.mem_map.mp hr
    exact hf.produced r' (hproduced r' hr')
  · rw [List.flatMap_def, hf.map_data, ← List.flatMap_def]
    exact hcopied

def Record.mark (w : Nat) (r : Record α) : Record α := if r.worker = w then { r with produced := true } else r

theorem marks_mark (w : Nat) : Marks (α := α) (Record.mark w) where
  off_eq r := by
    rw [Record.mark]
    split <;> rfl
  data_eq r := by
    rw [Record.mark]
    split <;> rfl
  produced r hr := by
    rw [Record.mark]
    split
    · rfl
    · exact hr
  eq_self r hr := by
    rw [Record.mark] at hr ⊢
    split
    · next hw =>
        rw [if_pos hw] at hr
        cases hr
    · rfl

theorem Record.worker_ne_of_mark {w : Nat} {r : Record α} (h : (r.mark w).produced = false) : r.worker ≠ w := by
  intro hw
  rw [Record.mark, if_pos hw] at h
  cases h

theorem Sound.produced (h : Sound s L) {data : List α} {offset copied : Nat}
    (hcall : (s.workers w).call = .copy data offset copied) (hdone : data[copied]? = none) :
    (s.workers w).seenOff ≠ .max ∧ Sound (s.setWorker w ⟨.max, .idle⟩) (L.mapRecords (Record.mark w)) := by
  have hmarks : Marks (α := α) (Record.mark w) := marks_mark w
  have hx := h.workers w
  simp only [Worker.Sound, hcall] at hx
  obtain ⟨⟨off, hseen⟩, hle, hcopied⟩ := hx
  have hlen : copied = data.length := le_antisymm hle (List.getElem?_eq_none_iff.mp hdone)
  have hw : w < s.nworkers := h.registered (by simp [hcall])
  have heq : ∀ v, (s.setWorker w ⟨.max, .idle⟩).workers v = if v = w then ⟨.max, .idle⟩ else s.workers v :=
    fun v => by simp only [State.setWorker, Function.update_apply]
  refine ⟨by simp [hseen], {
    next_lt := h.next_lt, written_lt := h.written_lt, counter_eq := h.counter_eq, fills := ?_, marked := ?_
    nonempty := ?_, seen := ?_, holds := ?_, held := ?_, contents := ?_, inside := ?_, workers := ?_, lock := ?_
    consumer := ?_, log := ?_ }⟩
  · have hf := hmarks.fills h.fills
    cases L with
    | flat front => exact hf
    | wrapped front back limit => exact hf
  · have hm := h.marked
    cases L with
    | flat front => trivial
    | wrapped front back limit => exact hm
  · intro r hr
    rw [Layout.records_mapRecords] at hr
    obtain ⟨r', hr', rfl⟩ := List.mem_map.mp hr
    rw [hmarks.data_eq]
    exact h.nonempty r' hr'
  · intro r hr hp
    rw [Layout.records_mapRecords] at hr
    exact Marks.seen (h.seen r (hmarks.exists_of_mem hr hp).1 hp)
  · intro r hr hp
    rw [Layout.records_mapRecords] at hr
    obtain ⟨hr', hself⟩ := hmarks.exists_of_mem hr hp
    have hne : r.worker ≠ w := Record.worker_ne_of_mark (by rw [hself]; exact hp)
    rw [heq, if_neg hne]
    exact h.holds r hr' hp
  · intro v off data hv
    rw [heq] at hv
    split at hv
    · cases hv
    · next hvw =>
        obtain ⟨r, hr, hp, hrw, hrest⟩ := h.held v off data hv
        have hself : r.mark w = r := by rw [Record.mark, if_neg (by rw [hrw]; exact hvw)]
        refine ⟨r, ?_, hp, hrw, hrest⟩
        rw [Layout.records_mapRecords]
        exact List.mem_map.mpr ⟨r, hr, hself⟩
  · intro r hr hp
    rw [Layout.records_mapRecords] at hr
    obtain ⟨r, hr', rfl⟩ := List.mem_map.mp hr
    simp only [hmarks.off_eq, hmarks.data_eq]
    by_cases hp' : r.produced = true
    · exact h.contents r hr' hp'
    · -- the range that has just been filled
      rw [Bool.not_eq_true] at hp'
      have hrw : r.worker = w := by
        by_contra hne
        rw [Record.mark, if_neg hne, hp'] at hp
        cases hp
      have hholding := (h.holds r hr' hp').2.1
      rw [hrw, hcall] at hholding
      obtain ⟨rfl, rfl⟩ := Prod.mk.inj (Option.some.inj hholding)
      exact fun i hi => hcopied i hi (hlen ▸ hi)
  · intro v hv
    rw [heq, if_neg (by change s.nworkers ≤ v at hv; omega)]
    exact h.inside v hv
  · intro v
    rw [heq]
    split
    · rfl
    · exact (h.workers v).change rfl (fun _ ho => ⟨ho.unlocked, ho.lt, ho.counter_le, ho.off_le⟩)
        (fun _ _ _ _ ha => ha) (fun _ _ _ _ hl => Marks.locking ⟨hl.next_eq, hl.locked, hl.fin_eq, hl.limit_eq⟩)
        (fun _ _ _ _ _ => rfl)
  · have hl : ∀ v, ((s.setWorker w ⟨.max, .idle⟩).workers v).call.locks = true → (s.workers v).call.locks = true := by
      intro v hv
      rw [heq] at hv
      split at hv
      · cases hv
      · exact hv
    exact fun v v' hv hv' => h.lock v v' (hl v hv) (hl v' hv')
  · refine h.consumer.change rfl rfl (fun _ _ _ hs => hmarks.scanned ?_) (fun he => hmarks.emptied ?_)
      (fun _ _ hc => hmarks.copying ?_)
    · exact ⟨hs.ne, hs.ahead, hs.behind, hs.boundary, hs.observed⟩
    · exact ⟨he.unlocked, he.layout⟩
    · exact ⟨hc.pos, hc.le, hc.source⟩
  · obtain ⟨released, hacquired, hconsumed⟩ := h.log
    exact ⟨released, by rw [Layout.records_mapRecords, hmarks.map_data]; exact hacquired, hconsumed⟩

end Mark

end Mallob.RingbufThreads
