import Mallob.RingbufProducers

namespace Mallob.RingbufThreads

open RangeChains

variable {α : Type} {s s' : State α} {L L' : Layout α}

theorem Sound.setConsumer (h : Sound s L) {c : Consuming α} (hreset : s.consumer ≠ .resetWritten)
    (hc : ConsumerSound { s with consumer := c } L) : Sound { s with consumer := c } L where
  next_lt := h.next_lt
  written_lt := h.written_lt
  counter_eq := h.counter_eq
  fills := by
    have hf := h.fills
    cases L with
    | flat front => exact hf
    | wrapped front back limit => exact hf
  marked := by
    have hm := h.marked
    cases L with
    | flat front => trivial
    | wrapped front back limit =>
        refine ⟨hm.1, fun hunlocked _ => hm.2 hunlocked ?_⟩
        cases hcons : s.consumer with
        | resetWritten => exact hreset hcons
        | _ => trivial
  nonempty := h.nonempty
  seen := h.seen
  holds := h.holds
  held := h.held
  contents := h.contents
  inside := h.inside
  workers w := (h.workers w).change rfl (fun _ ho => ⟨ho.unlocked, ho.lt, ho.counter_le, ho.off_le⟩)
    (fun _ _ _ _ ha => ha) (fun _ _ _ _ hl => ⟨hl.next_eq, hl.locked, hl.fin_eq, hl.limit_eq⟩)
    (fun _ _ _ _ _ => rfl)
  lock := h.lock
  consumer := hc
  log := h.log

theorem Sound.limit_eq {front back : List (Record α)} {limit : Nat} (h : Sound s (.wrapped front back limit))
    (hunlocked : s.next.locked = false) (hreset : s.consumer ≠ .resetWritten) :
    min s.space (s.fin.getD s.space) = limit := by
  have hlimit : limit ≤ s.space := h.fills.2.2.2.1
  have hfin : s.fin = if limit = s.space then none else some limit := by
    refine h.marked.2 hunlocked ?_
    cases hcons : s.consumer with
    | resetWritten => exact hreset hcons
    | _ => trivial
  rw [hfin]
  split
  · next heq => simp [heq]
  · exact min_eq_right hlimit

section Scan

variable {next i : Nat} {ready : Option Nat}

theorem Sound.setScan (h : Sound s L) (hreset : s.consumer ≠ .resetWritten) (hs : Scanned s L next i ready) :
    Sound { s with consumer := .scan next i ready } L :=
  h.setConsumer hreset ⟨hs.ne, hs.ahead, hs.behind, hs.boundary, hs.observed⟩

theorem Sound.beginScan (h : Sound s L) (hunlocked : s.next.locked = false) (hne : s.written ≠ s.next.off) :
    Scanned s L s.next.off 0 none where
  ne := hne
  ahead := by
    intro hlt
    cases L with
    | flat front => exact ⟨front, List.prefix_rfl, h.fills.1⟩
    | wrapped front back limit => exact absurd h.fills.2.2.1 (Nat.not_lt_of_gt hlt)
  behind := by
    intro hlt
    refine ⟨hunlocked, ?_⟩
    cases L with
    | flat front => exact absurd h.fills.1.le (Nat.not_le_of_gt hlt)
    | wrapped front back limit => exact ⟨front, back, limit, rfl⟩
  boundary := by simp
  observed := fun _ _ _ hlt => absurd hlt (Nat.not_lt_zero _)

theorem Sound.stable (h : Sound s L) {w off : Nat} (hseen : (s.workers w).seenOff = .at off false) :
    ∃ r ∈ L.records, r.produced = false ∧ r.worker = w ∧ r.seen = off := by
  have hheld : ∃ offset data, (s.workers w).call.holding = some (offset, data) := by
    have hx := h.workers w
    rw [Worker.Sound] at hx
    cases hcall : (s.workers w).call with
    | idle =>
        simp only [hcall] at hx
        rw [hx] at hseen
        cases hseen
    | loadNext data =>
        simp only [hcall] at hx
        exact absurd hseen (hx.1 off)
    | storeSeen data seen =>
        simp only [hcall] at hx
        exact absurd hseen (hx.1 off)
    | loadWritten data seen =>
        simp only [hcall] at hx
        rw [hx.1] at hseen
        cases hseen
    | giveUp =>
        simp only [hcall] at hx
        exact absurd hseen (hx off)
    | compareExchange data seen t =>
        simp only [hcall] at hx
        rw [hx.1] at hseen
        cases hseen
    | clearUnstable data seen t => exact ⟨_, _, rfl⟩
    | storeEnd data seen t => exact ⟨_, _, rfl⟩
    | unlock data seen t => exact ⟨_, _, rfl⟩
    | copy data offset copied => exact ⟨_, _, rfl⟩
  obtain ⟨offset, data, hheld⟩ := hheld
  obtain ⟨r, hr, hp, rfl, -⟩ := h.held w offset data hheld
  obtain ⟨-, -, u, hu⟩ := h.holds r hr hp
  rw [hseen] at hu
  exact ⟨r, hr, hp, rfl, (SeenOff.at.inj hu).1.symm⟩

/-- A seen offset that is not behind WRITTEN is the beginning of a range in front, or the limit. -/
theorem Sound.seen_boundary (h : Sound s L) {r : Record α} (hr : r ∈ L.records) (hp : r.produced = false)
    (hle : s.written ≤ r.seen) : ∃ pre, pre <+: L.front ∧ Placed s.written r.seen pre := by
  have hin : r ∈ L.front → r.seen = r.off → ∃ pre, pre <+: L.front ∧ Placed s.written r.seen pre := by
    intro hfront hoff
    rw [hoff]
    have hchain : ∃ b, Placed s.written b L.front := by
      cases L with
      | flat front => exact ⟨_, h.fills.1⟩
      | wrapped front back limit => exact ⟨_, h.fills.1⟩
    obtain ⟨b, hb⟩ := hchain
    obtain ⟨pre, post, hsplit, hpre⟩ := hb.split hfront
    exact ⟨pre, ⟨_, hsplit.symm⟩, hpre⟩
  have hseen := h.seen r hr hp
  cases L with
  | flat front => exact hin hr hseen
  | wrapped front back limit =>
      rcases hseen with hoff | ⟨hlimit, -, -⟩
      · exact hin (h.fills.mem_front hr (hoff ▸ hle)) hoff
      · exact ⟨front, List.prefix_rfl, hlimit ▸ h.fills.1⟩

theorem Scanned.skip (hs : Scanned s L next i ready) (h : Sound s L) (hseen : (s.workers i).seenOff = .max) :
    Scanned s L next (i + 1) ready := by
  refine ⟨hs.ne, hs.ahead, hs.behind, hs.boundary, fun r hr hp hlt hle hready => ?_⟩
  refine hs.observed r hr hp (Nat.lt_of_le_of_ne (Nat.le_of_lt_succ hlt) ?_) hle hready
  rintro rfl
  obtain ⟨-, -, u, hu⟩ := h.holds r hr hp
  rw [hseen] at hu
  cases hu

theorem Scanned.observe (hs : Scanned s L next i ready) (h : Sound s L) {off : Nat}
    (hseen : (s.workers i).seenOff = .at off false) :
    Scanned s L next (i + 1) (State.observe s.written ready off) := by
  obtain ⟨r₀, hr₀, hp₀, hw₀, rfl⟩ := h.stable hseen
  refine ⟨hs.ne, hs.ahead, hs.behind, fun v hv => ?_, fun r hr hp hlt hle hready => ?_⟩
  · rw [State.observe] at hv
    split at hv
    · next hle =>
        obtain rfl : ready.elim r₀.seen (min r₀.seen) = v := Option.some.inj hv
        cases ready with
        | none => exact h.seen_boundary hr₀ hp₀ hle
        | some v' =>
            rcases min_choice r₀.seen v' with hmin | hmin
            · rw [Option.elim_some, hmin]
              exact h.seen_boundary hr₀ hp₀ hle
            · rw [Option.elim_some, hmin]
              exact hs.boundary v' rfl
    · exact hs.boundary v hv
  · rcases Nat.lt_succ_iff_lt_or_eq.mp hlt with hlt | hi
    · -- a producer that was scanned before
      obtain ⟨v, hv, hvle⟩ := hs.observed r hr hp hlt hle hready
      obtain rfl : ready = some v := hv
      rw [State.observe]
      split
      · exact ⟨_, rfl, (min_le_right _ _).trans hvle⟩
      · exact ⟨v, rfl, hvle⟩
    · obtain rfl := h.record_unique hr hr₀ hp hp₀ (hi.trans hw₀.symm)
      rw [State.observe, if_pos hle]
      refine ⟨_, rfl, ?_⟩
      cases ready with
      | none => exact le_rfl
      | some v => exact min_le_left _ _

theorem Scanned.le (hs : Scanned s L next i ready) {v : Nat} (hv : v ∈ ready) : s.written ≤ v := by
  obtain ⟨pre, -, hplaced⟩ := hs.boundary v hv
  exact hplaced.le

theorem Scanned.produced (hs : Scanned s L next i ready) (h : Sound s L) (hi : s.nworkers ≤ i) {b : Nat}
    {pre : List (Record α)} (hpre : pre <+: L.front) (hplaced : Placed s.written b pre)
    (hnext : next < s.written ∨ b ≤ next) (hready : ∀ v ∈ ready, b ≤ v) : ∀ r ∈ pre, r.produced = true := by
  intro r hr
  by_contra hp
  rw [Bool.not_eq_true] at hp
  have hfront := hpre.subset hr
  have hmem := Layout.mem_front hfront
  have hoff := h.fills.seen_eq (h.seen r hmem hp) hfront
  obtain ⟨hle, hlt⟩ := hplaced.bounds hr
  have hpos := h.nonempty r hmem
  have hworker := (h.holds r hmem hp).1
  obtain ⟨v, hv, hvle⟩ := hs.observed r hmem hp (by omega) (by omega) (by omega)
  have hb := hready v hv
  omega

end Scan


section Deliver

variable {next i : Nat} {ready : Option Nat}

theorem Sound.deliver (h : Sound s L) {b : Nat} {pre : List (Record α)} (hreset : s.consumer ≠ .resetWritten)
    (hpre : pre <+: L.front) (hplaced : Placed s.written b pre) (hproduced : ∀ r ∈ pre, r.produced = true) :
    Sound { s with consumer := if b - s.written = 0 then .idle else .copy (b - s.written) [] } L := by
  refine h.setConsumer hreset ?_
  by_cases hzero : b - s.written = 0
  · rw [if_pos hzero]
    trivial
  · rw [if_neg hzero]
    have hle := hplaced.le
    have hb : s.written + (b - s.written) = b := by omega
    refine ⟨Nat.pos_of_ne_zero hzero, Nat.zero_le _, pre, hpre, ?_, hproduced, List.nil_prefix⟩
    rw [hb]
    exact hplaced

/-- After the scan either the written offset is reset, or the range up to the ready offset is delivered, which lies
within the space. -/
theorem Sound.finishScan (h : Sound s L) (hcons : s.consumer = .scan next i ready) (hi : s.nworkers ≤ i) :
    ∃ s', s.finishScan next ready = .ok s' ∧ Sound s' L := by
  have hreset : s.consumer ≠ .resetWritten := by simp [hcons]
  have hs := h.consumer
  rw [ConsumerSound, hcons] at hs
  rw [State.finishScan]
  by_cases hwrap : next < s.written
  · obtain ⟨hunlocked, front, back, limit, rfl⟩ := hs.behind hwrap
    have hfills := h.fills
    obtain ⟨hchain, hback, hbehind, hlimit, -⟩ := hfills
    have hle := hchain.le
    simp only [if_pos hwrap, h.limit_eq hunlocked hreset]
    by_cases hreached : ready = none ∧ s.written = limit
    · obtain ⟨rfl, rfl⟩ := hreached
      simp only [if_true, and_self]
      refine ⟨_, rfl, h.setConsumer hreset ?_⟩
      have hnil : front = [] := by
        refine hchain.nil_of_eq fun r hr => h.nonempty r (List.mem_append_left _ hr)
      refine ⟨hunlocked, back, by rw [hnil], fun r hr hp => ?_⟩
      by_contra hlt
      have hmem : r ∈ front ++ back := List.mem_append_right _ hr
      obtain ⟨v, hv, -⟩ := hs.observed r hmem hp ((h.holds r hmem hp).1.trans_le hi) (Nat.le_of_not_lt hlt)
        (Or.inl hwrap)
      cases hv
    · rw [if_neg hreached]
      obtain ⟨pre, hpre, hplaced, hready⟩ : ∃ pre, pre <+: front ∧
          Placed s.written (min (ready.getD limit) limit) pre ∧ ∀ v ∈ ready, min (ready.getD limit) limit ≤ v := by
        cases ready with
        | none => exact ⟨front, List.prefix_rfl, by simpa using hchain, by simp⟩
        | some v =>
            obtain ⟨pre, hpre, hplaced⟩ := hs.boundary v rfl
            have hv : v ≤ limit := by
              obtain ⟨post, -, hpost⟩ := hchain.drop_front hpre hplaced
              exact hpost.le
            refine ⟨pre, hpre, ?_, fun v' hv' => ?_⟩
            · rw [Option.getD_some, min_eq_left hv]
              exact hplaced
            · obtain rfl := Option.some.inj hv'
              exact min_le_left _ _
      have hb := hplaced.le
      have hahead : ready.all (next < ·) = true := by
        cases ready with
        | none => rfl
        | some v =>
            have hv := hs.le (v := v) rfl
            simp only [Option.all_some, decide_eq_true_eq]
            omega
      rw [if_pos ⟨hahead, hb, by omega⟩]
      exact ⟨_, rfl, h.deliver hreset hpre hplaced (hs.produced h hi hpre hplaced (Or.inl hwrap) hready)⟩
  · have hlt : s.written < next := by
      have hne := hs.ne
      omega
    simp only [if_neg hwrap]
    obtain ⟨all, hall, hplacedAll⟩ := hs.ahead hlt
    obtain ⟨pre, hpre, hplaced, hready⟩ : ∃ pre, pre <+: L.front ∧
        Placed s.written (min (ready.getD next) next) pre ∧ ∀ v ∈ ready, min (ready.getD next) next ≤ v := by
      cases ready with
      | none => exact ⟨all, hall, by simpa using hplacedAll, by simp⟩
      | some v =>
          refine ⟨if v ≤ next then (hs.boundary v rfl).choose else all, ?_, ?_, fun v' hv' => ?_⟩
          · split
            · exact (hs.boundary v rfl).choose_spec.1
            · exact hall
          · by_cases hv : v ≤ next
            · rw [Option.getD_some, min_eq_left hv, if_pos hv]
              exact (hs.boundary v rfl).choose_spec.2
            · rw [Option.getD_some, min_eq_right (by omega), if_neg hv]
              exact hplacedAll
          · obtain rfl := Option.some.inj hv'
            exact min_le_left _ _
    have hb := hplaced.le
    have hspace : min (ready.getD next) next ≤ s.space := by
      have hchain : ∃ b, Placed s.written b L.front ∧ b ≤ s.space := by
        have hnext := h.next_lt
        cases L with
        | flat front => exact ⟨_, h.fills.1, hnext.le⟩
        | wrapped front back limit => exact ⟨_, h.fills.1, h.fills.2.2.2.1⟩
      obtain ⟨b, hchain, hb⟩ := hchain
      obtain ⟨post, -, hpost⟩ := hchain.drop_front hpre hplaced
      exact hpost.le.trans hb
    rw [if_pos ⟨hb, by omega⟩]
    exact ⟨_, rfl, h.deliver hreset hpre hplaced (hs.produced h hi hpre hplaced (Or.inr (min_le_right _ _)) hready)⟩

end Deliver

section Reset

theorem Sound.clearEnd (h : Sound s L) (hcons : s.consumer = .clearEnd) :
    Sound { s with fin := none, consumer := .resetWritten } L := by
  have hc := h.consumer
  rw [ConsumerSound, hcons] at hc
  have hunlocked := hc.unlocked
  obtain ⟨back, rfl, hback⟩ := hc.layout
  refine {
    next_lt := h.next_lt, written_lt := h.written_lt, counter_eq := h.counter_eq, fills := h.fills
    marked := ⟨by simp, fun _ hr => hr.elim⟩, nonempty := h.nonempty, seen := h.seen, holds := h.holds, held := h.held
    contents := h.contents, inside := h.inside, workers := fun w => ?_, lock := h.lock
    consumer := ⟨⟨hunlocked, back, rfl, hback⟩, rfl⟩, log := h.log }
  refine (h.workers w).change rfl (fun _ ho => ⟨ho.unlocked, ho.lt, ho.counter_le, ho.off_le⟩)
    (fun _ _ _ _ ha => ha) (fun hl => ?_) (fun _ _ _ _ _ => rfl)
  rw [h.not_locks hunlocked w] at hl
  cases hl

/-- The consumer wraps around: the ranges that began at zero are in front now. -/
theorem Sound.resetWritten (h : Sound s L) (hcons : s.consumer = .resetWritten) :
    ∃ L', Sound { s with written := 0, consumer := .loadNext } L' := by
  have hc := h.consumer
  rw [ConsumerSound, hcons] at hc
  obtain ⟨hempty, hfin⟩ := hc
  have hunlocked := hempty.unlocked
  obtain ⟨back, rfl, hback⟩ := hempty.layout
  obtain ⟨-, hchain, hbehind, -⟩ := h.fills
  refine ⟨.flat back, {
    next_lt := h.next_lt, written_lt := (Nat.zero_le _).trans_lt h.next_lt, counter_eq := h.counter_eq
    fills := ⟨hchain, hunlocked, hfin⟩, marked := trivial, nonempty := h.nonempty, seen := fun r hr hp => ?_
    holds := h.holds, held := h.held, contents := h.contents, inside := h.inside, workers := fun w => ?_
    lock := h.lock, consumer := trivial, log := h.log }⟩
  · rcases h.seen r hr hp with hoff | ⟨hlimit, -, -⟩
    · exact hoff
    · exact absurd hlimit (hback r hr hp).ne
  · refine (h.workers w).change rfl (fun _ ho => ⟨ho.unlocked, ho.lt, ho.counter_le, ho.off_le⟩) ?_ (fun hl => ?_)
      (fun _ _ _ _ _ => rfl)
    · rintro len seen t - ⟨observed, hlt, ht, hstale⟩
      refine ⟨observed, hlt, ht, fun heq hoff => ?_⟩
      have hst := hstale heq hoff
      change seen.off = s.next.off at hoff
      refine ⟨fun hle => ?_, fun _ => Or.inr (Nat.zero_le _)⟩
      have hw := (hst.1 hle).2
      omega
    · rw [h.not_locks hunlocked w] at hl
      cases hl

end Reset


section Release

variable {size : Nat} {copied : List α}

theorem Sound.copyOut (h : Sound s L) (hcons : s.consumer = .copy size copied) (hlt : copied.length < size) :
    Sound { s with consumer := .copy size (copied ++ [s.cells (s.written + copied.length)]) } L := by
  have hc := h.consumer
  rw [ConsumerSound, hcons] at hc
  obtain ⟨hpos, -, pre, hpre, hplaced, hproduced, hcopied⟩ := hc
  refine h.setConsumer (by simp [hcons]) ⟨hpos, by simpa using hlt, pre, hpre, hplaced, hproduced, ?_⟩
  obtain ⟨hend, hcells⟩ := Chain.contents hplaced fun r hr =>
    h.contents r (Layout.mem_front (hpre.subset hr)) (hproduced r hr)
  have hin : copied.length < (pre.flatMap Record.data).length := by
    have hlen : size = (pre.flatMap Record.data).length := by omega
    omega
  obtain ⟨rest, hrest⟩ := hcopied
  have hnext : rest = s.cells (s.written + copied.length) :: rest.tail := by
    rw [hcells copied.length hin]
    simp only [← hrest]
    rw [List.getElem_append_right le_rfl]
    cases rest with
    | nil =>
        simp only [← hrest, List.append_nil] at hin
        omega
    | cons x rest => simp
  exact ⟨rest.tail, by rw [List.append_assoc, List.singleton_append, ← hnext, hrest]⟩

structure Drops (s : State α) (L L' : Layout α) (pre : List (Record α)) (written : Nat) : Prop where
  records : L.records = pre ++ L'.records
  fills : L'.Fills { s with written := written }
  marked : L'.Marked s
  seen : ∀ r ∈ L'.records, L.Seen s.space r → L'.Seen s.space r
  limit : s.next.locked = true → ∀ front back limit, L = .wrapped front back limit →
    ∃ front', L' = .wrapped front' back limit
  lt : written < s.space
  stale : ∀ observed, Stale observed s.written s.next.off → Stale observed written s.next.off

/-- A range that ends before the limit is dropped, or everything up to the end of the buffer. -/
theorem Sound.exists_drops (h : Sound s L) {pre : List (Record α)} {nwritten : Nat} (hpre : pre <+: L.front)
    (hplaced : Placed s.written nwritten pre) (hlt : s.written < nwritten) (hreset : s.consumer ≠ .resetWritten) :
    nwritten ≤ s.space ∧ s.written ≤ s.fin.getD s.space ∧
      ∃ L', Drops s L L' pre (if nwritten = s.space then 0 else nwritten) := by
  have hnext := h.next_lt
  have hwritten := h.written_lt
  have hfills := h.fills
  cases L with
  | flat front =>
      obtain ⟨hchain, hunlocked, hfin⟩ := hfills
      obtain ⟨post, rfl, hpost⟩ := hchain.drop_front hpre hplaced
      have hle := hpost.le
      rw [if_neg (by omega), hfin]
      refine ⟨by omega, hwritten.le, .flat post, rfl, ⟨hpost, hunlocked, hfin⟩, trivial, fun r _ hr => hr, ?_,
        by omega, fun observed hstale => ?_⟩
      · intro hlocked
        rw [hunlocked] at hlocked
        cases hlocked
      · refine ⟨fun hobs => ⟨?_, hle⟩, fun _ => Or.inr hle⟩
        have hw := (hstale.1 hobs).1
        omega
  | wrapped front back limit =>
      obtain ⟨hchain, hback, hbehind, hlimit, hexceed⟩ := hfills
      obtain ⟨post, rfl, hpost⟩ := hchain.drop_front hpre hplaced
      have hle := hpost.le
      refine ⟨hle.trans hlimit, ?_, ?_⟩
      · cases hfin : s.fin with
        | none => exact hwritten.le
        | some e =>
            obtain rfl := h.marked.1 e hfin
            simp only [Option.getD_some]
            omega
      · by_cases hend : nwritten = s.space
        · -- the consumer has come to the end of the buffer, and nothing is left in front
          obtain rfl : limit = s.space := by omega
          rw [hend] at hpost
          obtain rfl : post = [] := hpost.nil_of_eq fun r hr =>
            h.nonempty r (List.mem_append_left _ (List.mem_append_right _ hr))
          have hunlocked : s.next.locked = false := by
            rw [← Bool.not_eq_true]
            exact fun hl => lt_irrefl _ (hexceed hl)
          have hfin : s.fin = none := by
            rw [h.marked.2 hunlocked ?_, if_pos rfl]
            cases hcons : s.consumer with
            | resetWritten => exact hreset hcons
            | _ => trivial
          rw [if_pos hend]
          refine ⟨.flat back, by simp [Layout.records], ⟨hback, hunlocked, hfin⟩, trivial, ?_, ?_, by omega, ?_⟩
          · rintro r - (hoff | ⟨-, hlt', -⟩)
            · exact hoff
            · exact absurd hlt' (lt_irrefl _)
          · intro hlocked
            rw [hunlocked] at hlocked
            cases hlocked
          · refine fun observed hstale => ⟨fun hobs => ?_, fun _ => Or.inr (Nat.zero_le _)⟩
            have hw := (hstale.1 hobs).2
            omega
        · rw [if_neg hend]
          refine ⟨.wrapped post back limit, by simp [Layout.records], ?_, h.marked, fun r _ hr => hr, ?_, by omega,
            fun observed hstale => ⟨fun hobs => ?_, fun hobs => ?_⟩⟩
          · exact ⟨hpost, hback, by change s.next.off < nwritten; omega, hlimit, hexceed⟩
          · rintro - _ _ _ ⟨⟩
            exact ⟨post, rfl⟩
          · have hw := (hstale.1 hobs).2
            omega
          · rcases hstale.2 hobs with hw | hw
            · exact Or.inl (hw.trans hlt.le)
            · omega

/-- The range that was copied is released; its values are those of whole ranges. -/
theorem Sound.release (h : Sound s L) (hcons : s.consumer = .copy size copied) (hdone : ¬ copied.length < size) :
    ∃ s', ((s.release size).map fun s' : State α => { s' with consumed := s.consumed ++ copied }) = .ok s' ∧
      ∃ L', Sound s' L' := by
  have hc := h.consumer
  rw [ConsumerSound, hcons] at hc
  obtain ⟨hpos, hsize, pre, hpre, hplaced, hproduced, hcopied⟩ := hc
  have hreset : s.consumer ≠ .resetWritten := by simp [hcons]
  obtain ⟨hend, -⟩ := Chain.contents hplaced fun r hr =>
    h.contents r (Layout.mem_front (hpre.subset hr)) (hproduced r hr)
  have hcopied : copied = pre.flatMap Record.data := by
    refine hcopied.eq_of_length ?_
    omega
  obtain ⟨hspace, hfin, L', hd⟩ := h.exists_drops hpre hplaced (by omega) hreset
  have hwritten := h.written_lt
  rw [State.release, if_pos ⟨hwritten.le, hfin, hspace⟩]
  refine ⟨_, rfl, L', ?_⟩
  have hmem : ∀ r ∈ L'.records, r ∈ L.records := fun r hr => by
    rw [hd.records]
    exact List.mem_append_right _ hr
  refine {
    next_lt := h.next_lt, written_lt := hd.lt, counter_eq := h.counter_eq, fills := ?_, marked := ?_
    nonempty := fun r hr => h.nonempty r (hmem r hr), seen := fun r hr hp => hd.seen r hr (h.seen r (hmem r hr) hp)
    holds := fun r hr => h.holds r (hmem r hr), held := fun v off data hv => ?_
    contents := fun r hr => h.contents r (hmem r hr), inside := h.inside, workers := fun v => ?_, lock := h.lock
    consumer := trivial, log := ?_ }
  · have hf := hd.fills
    cases L' with
    | flat front => exact hf
    | wrapped front back limit => exact hf
  · have hm := hd.marked
    cases L' with
    | flat front => trivial
    | wrapped front back limit =>
        refine ⟨hm.1, fun hunlocked _ => hm.2 hunlocked ?_⟩
        rw [hcons]
        trivial
  · obtain ⟨r, hr, hp, hrest⟩ := h.held v off data hv
    refine ⟨r, ?_, hp, hrest⟩
    rw [hd.records] at hr
    rcases List.mem_append.mp hr with hr | hr
    · rw [hproduced r hr] at hp
      cases hp
    · exact hr
  · refine (h.workers v).change rfl (fun _ ho => ⟨ho.unlocked, ho.lt, ho.counter_le, ho.off_le⟩) ?_ (fun _ => ?_)
      (fun _ _ _ _ _ => rfl)
    · rintro len seen t - ⟨observed, hlt, ht, hstale⟩
      refine ⟨observed, hlt, ht, fun heq hoff => ?_⟩
      have hst := hstale heq hoff
      rw [hoff] at hst ⊢
      exact hd.stale observed hst
    · rintro seen t fin ⟨hnext, hlocked, hfin, front, back, hL⟩
      obtain ⟨front', hL'⟩ := hd.limit (by rw [hnext]; exact hlocked) front back _ hL
      exact ⟨hnext, hlocked, hfin, front', back, hL'⟩
  · obtain ⟨released, hacquired, hconsumed⟩ := h.log
    refine ⟨released ++ pre.map Record.data, ?_, ?_⟩
    · rw [List.append_assoc, ← List.map_append, ← hd.records]
      exact hacquired
    · rw [List.flatten_append, ← hconsumed, hcopied, List.flatMap_def]

end Release

end Mallob.RingbufThreads
