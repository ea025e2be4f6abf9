import Mallob.RingbufConsumer

namespace Mallob.RingbufThreads

open RangeChains Runs

variable {α : Type} {s s' : State α} {L : Layout α}

def setup (space nworkers : Nat) (cells : Nat → α) : Option (State α) :=
  if 2 ^ 32 - 1 ≤ space then none else some { space := space, nworkers := nworkers, cells := cells }

theorem sound_setup {space nworkers : Nat} {cells : Nat → α} (h : setup space nworkers cells = some s)
    (hpos : 0 < space) : Sound s (.flat []) := by
  rw [setup] at h
  split at h
  · cases h
  · obtain rfl := Option.some.inj h
    exact {
      next_lt := hpos, written_lt := hpos, counter_eq := rfl, fills := ⟨rfl, rfl, rfl⟩, marked := trivial
      nonempty := fun _ hr => by cases hr
      seen := fun _ hr => by cases hr
      holds := fun _ hr => by cases hr
      held := fun _ _ _ hv => by cases hv
      contents := fun _ hr => by cases hr
      inside := fun _ _ => rfl, workers := fun _ => rfl
      lock := fun _ _ hl => by cases hl
      consumer := trivial, log := ⟨[], rfl, rfl⟩ }

theorem Sound.acquire (h : Sound s L) {w : Nat} {data : List α} (hw : w < s.nworkers) (hpos : 0 < data.length)
    (hlen : data.length ≤ s.space) : ∃ s', s.acquire w data = .ok s' ∧ Sound s' L := by
  rw [State.acquire, if_neg (by omega)]
  cases hcall : (s.workers w).call with
  | idle =>
      have hx := h.workers w
      simp only [Worker.Sound, hcall] at hx
      simp only [if_pos (show 0 < data.length ∧ data.length ≤ s.space ∧ (s.workers w).seenOff = .max from
        ⟨hpos, hlen, hx⟩)]
      refine ⟨_, rfl, h.setCall hw ⟨fun off => ?_, hpos⟩ (by rw [hcall]; rfl) (by simp [Producing.locks])⟩
      simp [hx]
  | _ => exact ⟨s, rfl, h⟩

/-- A producer can always take its next step, and it keeps to the ranges. -/
theorem Sound.produce (h : Sound s L) (w : Nat) (spurious : Bool) :
    ∃ s', s.produce w spurious = .ok s' ∧ (s'.wraps < 2 ^ 31 → ∃ L', Sound s' L') := by
  rw [State.produce]
  cases hcall : (s.workers w).call with
  | idle => exact ⟨s, rfl, fun _ => ⟨L, h⟩⟩
  | loadNext data =>
      simp only
      split
      · exact ⟨s, rfl, fun _ => ⟨L, h⟩⟩
      · next hlocked =>
          rw [if_pos h.next_lt]
          exact ⟨_, rfl, fun _ => ⟨L, h.loadNext hcall (Bool.not_eq_true _ ▸ hlocked)⟩⟩
  | storeSeen data seen => exact ⟨_, rfl, fun _ => ⟨L, h.storeSeen hcall⟩⟩
  | loadWritten data seen =>
      simp only
      cases ht : target s.space seen data.length s.written with
      | none => exact ⟨_, rfl, fun _ => ⟨L, h.mustWait hcall⟩⟩
      | some t => exact ⟨_, rfl, fun _ => ⟨L, h.loadWritten hcall ht⟩⟩
  | giveUp => exact ⟨_, rfl, fun _ => ⟨L, h.giveUp hcall⟩⟩
  | compareExchange data seen t =>
      refine ⟨_, rfl, fun hwraps => ?_⟩
      by_cases hexchange : s.next = seen ∧ !spurious
      · obtain ⟨hnext, hspurious⟩ := hexchange
        obtain rfl : spurious = false := by simpa using hspurious
        exact h.exchange hcall hnext hwraps
      · rw [State.compareExchange, if_neg hexchange]
        exact ⟨L, h.retry hcall⟩
  | clearUnstable data seen t =>
      obtain ⟨hle, hsound⟩ := h.clearUnstable hcall
      simp only [if_pos hle]
      exact ⟨_, rfl, fun _ => ⟨L, hsound⟩⟩
  | storeEnd data seen t =>
      obtain ⟨hassert, hsound⟩ := h.storeEnd hcall
      simp only [if_pos hassert]
      exact ⟨_, rfl, fun _ => ⟨L, hsound⟩⟩
  | unlock data seen t => exact ⟨_, rfl, fun _ => ⟨L, h.unlock hcall⟩⟩
  | copy data offset copied =>
      simp only
      cases hget : data[copied]? with
      | some x => exact ⟨_, rfl, fun _ => ⟨L, h.copyCell hcall hget⟩⟩
      | none =>
          obtain ⟨hassert, hsound⟩ := h.produced hcall hget
          simp only [if_pos hassert]
          exact ⟨_, rfl, fun _ => ⟨_, hsound⟩⟩

theorem Sound.beginConsume (h : Sound s L) : Sound s.beginConsume L := by
  rw [State.beginConsume]
  cases hcons : s.consumer with
  | idle => exact h.setConsumer (by simp [hcons]) trivial
  | _ => exact h

theorem Sound.consume (h : Sound s L) : ∃ s', s.consume = .ok s' ∧ ∃ L', Sound s' L' := by
  rw [State.consume]
  have hc := h.consumer
  rw [ConsumerSound] at hc
  cases hcons : s.consumer with
  | idle => exact ⟨s, rfl, L, h⟩
  | loadNext =>
      simp only
      split
      · exact ⟨s, rfl, L, h⟩
      · next hlocked =>
          rw [if_pos h.next_lt]
          have hreset : s.consumer ≠ .resetWritten := by simp [hcons]
          refine ⟨_, rfl, L, ?_⟩
          split
          · exact h.setConsumer hreset trivial
          · next hne => exact h.setScan hreset (h.beginScan (Bool.not_eq_true _ ▸ hlocked) hne)
  | scan next i ready =>
      simp only [hcons] at hc
      have hreset : s.consumer ≠ .resetWritten := by simp [hcons]
      simp only
      split
      · cases hseen : (s.workers i).seenOff with
        | max => exact ⟨_, rfl, L, h.setScan hreset (hc.skip h hseen)⟩
        | «at» off unstable =>
            cases unstable with
            | true => exact ⟨s, rfl, L, h⟩
            | false =>
                have hobserve := hc.observe h hseen
                have hall : (State.observe s.written ready off).all (s.written ≤ ·) = true := by
                  cases hready : State.observe s.written ready off with
                  | none => rfl
                  | some v => simpa using hobserve.le hready
                simp only [if_pos hall]
                exact ⟨_, rfl, L, h.setScan hreset hobserve⟩
      · next hi =>
          obtain ⟨s', hok, hsound⟩ := h.finishScan hcons (Nat.le_of_not_lt hi)
          exact ⟨s', hok, L, hsound⟩
  | clearEnd => exact ⟨_, rfl, L, h.clearEnd hcons⟩
  | resetWritten => exact ⟨_, rfl, h.resetWritten hcons⟩
  | copy size copied =>
      simp only
      split
      · next hlt => exact ⟨_, rfl, L, h.copyOut hcons hlt⟩
      · next hdone => exact h.release hcons hdone

/-- No assertion fails in a proper step, and the threads keep to their ranges as long as the counter of the
wrap-arounds does not overflow. -/
theorem Sound.step (h : Sound s L) {a : Action α} (ha : a.Proper s) :
    ∃ s', step s a = .ok s' ∧ (s'.wraps < 2 ^ 31 → ∃ L', Sound s' L') := by
  cases a with
  | acquire w data =>
      obtain ⟨s', hok, hsound⟩ := h.acquire ha.1 ha.2.1 ha.2.2
      exact ⟨s', hok, fun _ => ⟨L, hsound⟩⟩
  | produce w spurious => exact h.produce w spurious
  | beginConsume => exact ⟨_, rfl, fun _ => ⟨L, h.beginConsume⟩⟩
  | consume =>
      obtain ⟨s', hok, hsound⟩ := h.consume
      exact ⟨s', hok, fun _ => hsound⟩


section Runs

structure Grows (s s' : State α) : Prop where
  space : s'.space = s.space
  nworkers : s'.nworkers = s.nworkers
  wraps : s.wraps ≤ s'.wraps
  acquired : s.acquired <+: s'.acquired
  consumed : s.consumed <+: s'.consumed

theorem Grows.refl (s : State α) : Grows s s := ⟨rfl, rfl, le_rfl, List.prefix_rfl, List.prefix_rfl⟩

theorem grows_setWorker (s : State α) (w : Nat) (x : Worker α) : Grows s (s.setWorker w x) :=
  ⟨rfl, rfl, le_rfl, List.prefix_rfl, List.prefix_rfl⟩

theorem grows_acquire {w : Nat} {data : List α} (h : s.acquire w data = .ok s') : Grows s s' := by
  rw [State.acquire] at h
  split at h
  · cases h
  · split at h
    · split at h
      · obtain rfl := Except.ok.inj h
        exact grows_setWorker ..
      · cases h
    · obtain rfl := Except.ok.inj h
      exact .refl s

theorem grows_compareExchange (s : State α) (w : Nat) (data : List α) (seen t : Next) (spurious : Bool) :
    Grows s (s.compareExchange w data seen t spurious) := by
  rw [State.compareExchange]
  split
  · refine ⟨rfl, rfl, ?_, List.prefix_append _ _, List.prefix_rfl⟩
    simp only
    split
    · exact Nat.le_succ _
    · exact le_rfl
  · exact grows_setWorker ..

theorem grows_produce {w : Nat} {spurious : Bool} (h : s.produce w spurious = .ok s') : Grows s s' := by
  rw [State.produce] at h
  cases hcall : (s.workers w).call with
  | idle =>
      simp only [hcall] at h
      obtain rfl := Except.ok.inj h
      exact .refl s
  | loadNext data =>
      simp only [hcall] at h
      split at h
      · obtain rfl := Except.ok.inj h
        exact .refl s
      · split at h
        · obtain rfl := Except.ok.inj h
          exact grows_setWorker ..
        · cases h
  | storeSeen data seen =>
      simp only [hcall] at h
      obtain rfl := Except.ok.inj h
      exact grows_setWorker ..
  | loadWritten data seen =>
      simp only [hcall] at h
      split at h
      · obtain rfl := Except.ok.inj h
        exact grows_setWorker ..
      · obtain rfl := Except.ok.inj h
        exact grows_setWorker ..
  | giveUp =>
      simp only [hcall] at h
      obtain rfl := Except.ok.inj h
      exact grows_setWorker ..
  | compareExchange data seen t =>
      simp only [hcall] at h
      obtain rfl := Except.ok.inj h
      exact grows_compareExchange ..
  | clearUnstable data seen t =>
      simp only [hcall] at h
      split at h
      · obtain rfl := Except.ok.inj h
        exact grows_setWorker ..
      · cases h
  | storeEnd data seen t =>
      simp only [hcall] at h
      split at h
      · obtain rfl := Except.ok.inj h
        exact ⟨rfl, rfl, le_rfl, List.prefix_rfl, List.prefix_rfl⟩
      · cases h
  | unlock data seen t =>
      simp only [hcall] at h
      obtain rfl := Except.ok.inj h
      exact ⟨rfl, rfl, le_rfl, List.prefix_rfl, List.prefix_rfl⟩
  | copy data offset copied =>
      simp only [hcall] at h
      split at h
      · obtain rfl := Except.ok.inj h
        exact ⟨rfl, rfl, le_rfl, List.prefix_rfl, List.prefix_rfl⟩
      · split at h
        · obtain rfl := Except.ok.inj h
          exact grows_setWorker ..
        · cases h

structure ConsumerFrame (s s' : State α) : Prop where
  space : s'.space = s.space
  nworkers : s'.nworkers = s.nworkers
  next : s'.next = s.next
  workers : s'.workers = s.workers
  wraps : s'.wraps = s.wraps
  acquired : s'.acquired = s.acquired
  consumed : s.consumed <+: s'.consumed

theorem consumerFrame_setConsumer (s : State α) (c : Consuming α) : ConsumerFrame s { s with consumer := c } :=
  ⟨rfl, rfl, rfl, rfl, rfl, rfl, List.prefix_rfl⟩

theorem consumerFrame_finishScan {next : Nat} {ready : Option Nat} (h : s.finishScan next ready = .ok s') :
    ConsumerFrame s s' := by
  simp only [State.finishScan] at h
  split at h
  · split at h
    · obtain rfl := Except.ok.inj h
      exact consumerFrame_setConsumer ..
    · split at h
      · obtain rfl := Except.ok.inj h
        exact consumerFrame_setConsumer ..
      · cases h
  · split at h
    · obtain rfl := Except.ok.inj h
      exact consumerFrame_setConsumer ..
    · cases h

theorem consumerFrame_consume (h : s.consume = .ok s') : ConsumerFrame s s' := by
  rw [State.consume] at h
  cases hcons : s.consumer with
  | idle =>
      simp only [hcons] at h
      obtain rfl := Except.ok.inj h
      exact ⟨rfl, rfl, rfl, rfl, rfl, rfl, List.prefix_rfl⟩
  | loadNext =>
      simp only [hcons] at h
      split at h
      · obtain rfl := Except.ok.inj h
        exact ⟨rfl, rfl, rfl, rfl, rfl, rfl, List.prefix_rfl⟩
      · split at h
        · obtain rfl := Except.ok.inj h
          exact consumerFrame_setConsumer ..
        · cases h
  | scan next i ready =>
      simp only [hcons] at h
      split at h
      · split at h
        · obtain rfl := Except.ok.inj h
          exact consumerFrame_setConsumer ..
        · obtain rfl := Except.ok.inj h
          exact ⟨rfl, rfl, rfl, rfl, rfl, rfl, List.prefix_rfl⟩
        · split at h
          · obtain rfl := Except.ok.inj h
            exact consumerFrame_setConsumer ..
          · cases h
      · exact consumerFrame_finishScan h
  | clearEnd =>
      simp only [hcons] at h
      obtain rfl := Except.ok.inj h
      exact ⟨rfl, rfl, rfl, rfl, rfl, rfl, List.prefix_rfl⟩
  | resetWritten =>
      simp only [hcons] at h
      obtain rfl := Except.ok.inj h
      exact ⟨rfl, rfl, rfl, rfl, rfl, rfl, List.prefix_rfl⟩
  | copy size copied =>
      simp only [hcons] at h
      split at h
      · obtain rfl := Except.ok.inj h
        exact consumerFrame_setConsumer ..
      · obtain ⟨s₁, hr, rfl⟩ := exists_of_map_eq_ok h
        simp only [State.release] at hr
        split at hr
        · obtain rfl := Except.ok.inj hr
          exact ⟨rfl, rfl, rfl, rfl, rfl, rfl, List.prefix_append _ _⟩
        · cases hr

theorem consumerFrame_beginConsume (s : State α) : ConsumerFrame s s.beginConsume := by
  rw [State.beginConsume]
  split
  · exact consumerFrame_setConsumer ..
  · exact ⟨rfl, rfl, rfl, rfl, rfl, rfl, List.prefix_rfl⟩

theorem ConsumerFrame.grows (h : ConsumerFrame s s') : Grows s s' :=
  ⟨h.space, h.nworkers, h.wraps.ge, by rw [h.acquired], h.consumed⟩

theorem grows_step {a : Action α} (h : step s a = .ok s') : Grows s s' := by
  cases a with
  | acquire w data => exact grows_acquire h
  | produce w spurious => exact grows_produce h
  | beginConsume =>
      obtain rfl := Except.ok.inj h
      exact (consumerFrame_beginConsume s).grows
  | consume => exact (consumerFrame_consume h).grows

variable {space nworkers : Nat} {cells : Nat → α} {as : List (Action α)}

theorem sound_of_reaches (hsetup : setup space nworkers cells = some s) (hpos : 0 < space)
    (h : Reaches step (fun s a => a.Proper s) s as s') (hwraps : s'.wraps < 2 ^ 31) : ∃ L, Sound s' L := by
  refine Reaches.invariant (P := fun s' => s'.wraps < 2 ^ 31 → ∃ L, Sound s' L) (fun _ => ⟨_, sound_setup hsetup hpos⟩)
    (fun s₁ a s₂ hs hproper hok hwraps => ?_) h hwraps
  obtain ⟨L, hsound⟩ := hs ((grows_step hok).wraps.trans_lt hwraps)
  obtain ⟨s₃, hok', hnext⟩ := hsound.step hproper
  obtain rfl := Except.ok.inj (hok.symm.trans hok')
  exact hnext hwraps

inductive Thread
  | producer (w : Nat)
  | consumer

def State.range (s : State α) : Thread → Option (Nat × Nat)
  | .producer w => (s.workers w).call.holding.map fun (offset, data) => (offset, data.length)
  | .consumer =>
      match s.consumer with
      | .copy size _ => some (s.written, size)
      | _ => none

theorem Sound.range_producer (h : Sound s L) {w a n : Nat} (hr : s.range (.producer w) = some (a, n)) :
    ∃ r ∈ L.records, r.produced = false ∧ r.worker = w ∧ r.off = a ∧ r.data.length = n := by
  obtain ⟨⟨offset, data⟩, hheld, heq⟩ := Option.map_eq_some_iff.mp hr
  obtain ⟨rfl, rfl⟩ := Prod.mk.inj heq
  obtain ⟨r, hmem, hp, hw, hoff, hdata⟩ := h.held w offset data hheld
  exact ⟨r, hmem, hp, hw, hoff, by rw [hdata]⟩

theorem Sound.range_consumer (h : Sound s L) {a n : Nat} (hr : s.range .consumer = some (a, n)) :
    a = s.written ∧ ∃ pre, pre <+: L.front ∧ Placed a (a + n) pre ∧ ∀ r ∈ pre, r.produced = true := by
  have hc := h.consumer
  rw [ConsumerSound] at hc
  rw [State.range] at hr
  cases hcons : s.consumer with
  | copy size copied =>
      simp only [hcons] at hc hr
      obtain ⟨rfl, rfl⟩ := Prod.mk.inj (Option.some.inj hr)
      obtain ⟨pre, hpre, hplaced, hproduced, -⟩ := hc.source
      exact ⟨rfl, pre, hpre, hplaced, hproduced⟩
  | _ => simp [hcons] at hr

/-- A range that is not produced lies outside of what the consumer has got. -/
theorem Sound.apart_consumer (h : Sound s L) {a n b m w : Nat} (hr : s.range .consumer = some (a, n))
    (hr' : s.range (.producer w) = some (b, m)) : a + n ≤ b ∨ b + m ≤ a := by
  obtain ⟨rfl, pre, hpre, hplaced, hproduced⟩ := h.range_consumer hr
  obtain ⟨r, hmem, hp, -, rfl, rfl⟩ := h.range_producer hr'
  have hout : r ∉ pre := fun hin => by
    rw [hproduced r hin] at hp
    cases hp
  cases L with
  | flat front =>
      obtain ⟨post, rfl, hpost⟩ := h.fills.1.drop_front hpre hplaced
      rcases List.mem_append.mp hmem with hin | hin
      · exact absurd hin hout
      · exact Or.inl (hpost.bounds hin).1
  | wrapped front back limit =>
      obtain ⟨hchain, hback, hbehind, -⟩ := h.fills
      obtain ⟨post, rfl, hpost⟩ := hchain.drop_front hpre hplaced
      rcases List.mem_append.mp hmem with hin | hin
      · rcases List.mem_append.mp hin with hin | hin
        · exact absurd hin hout
        · exact Or.inl (hpost.bounds hin).1
      · have hb := hback.bounds hin
        omega

def Action.isProper (s : State α) : Action α → Bool
  | .acquire w data => decide (w < s.nworkers) && decide (0 < data.length) && decide (data.length ≤ s.space)
  | _ => true

theorem proper_of_isProper (s : State α) (a : Action α) (h : a.isProper s = true) : a.Proper s := by
  cases a with
  | acquire w data =>
      simp only [Action.isProper, Bool.and_eq_true, decide_eq_true_eq] at h
      exact ⟨h.1.1, h.1.2, h.2⟩
  | _ => trivial

def overlapping : List (Action Nat) :=
  .acquire 0 [1, 2] :: List.replicate 5 (.produce 0 false) ++ .acquire 1 [3] :: List.replicate 4 (.produce 1 false) ++
    .produce 0 false :: .produce 0 false :: .produce 0 false :: .beginConsume :: .produce 1 false ::
      List.replicate 4 .consume

def copiedOut : List (Action Nat) := overlapping ++ List.replicate 3 .consume

/-- In every run with proper calls in which the counter of the wrap-arounds does not overflow, no assertion of a
further step fails, and each thread accesses a range of the buffer that no other one accesses. -/
theorem ringbuf_safe (hsetup : setup space nworkers cells = some s) (hpos : 0 < space)
    (h : Reaches step (fun s a => a.Proper s) s as s') (hwraps : s'.wraps < 2 ^ 31) :
    (∀ a : Action α, a.Proper s' → ∃ s'', step s' a = .ok s'') ∧
      (∀ x a n, s'.range x = some (a, n) → a + n ≤ s'.space) ∧
      ∀ x y a n b m, x ≠ y → s'.range x = some (a, n) → s'.range y = some (b, m) → a + n ≤ b ∨ b + m ≤ a := by
  obtain ⟨L, hsound⟩ := sound_of_reaches hsetup hpos h hwraps
  refine ⟨fun a ha => ?_, fun x a n hx => ?_, fun x y a n b m hne hx hy => ?_⟩
  · obtain ⟨s'', hok, -⟩ := hsound.step ha
    exact ⟨s'', hok⟩
  · cases x with
    | producer w =>
        obtain ⟨r, hmem, -, -, rfl, rfl⟩ := hsound.range_producer hx
        exact hsound.fills.inside hsound.next_lt hmem
    | consumer =>
        obtain ⟨rfl, pre, hpre, hplaced, -⟩ := hsound.range_consumer hx
        have hnext := hsound.next_lt
        cases L with
        | flat front =>
            obtain ⟨post, -, hpost⟩ := hsound.fills.1.drop_front hpre hplaced
            exact hpost.le.trans hnext.le
        | wrapped front back limit =>
            obtain ⟨post, -, hpost⟩ := hsound.fills.1.drop_front hpre hplaced
            exact hpost.le.trans hsound.fills.2.2.2.1
  · cases x with
    | producer w =>
        cases y with
        | producer w' =>
            obtain ⟨r, hmem, -, rfl, rfl, rfl⟩ := hsound.range_producer hx
            obtain ⟨r', hmem', -, rfl, rfl, rfl⟩ := hsound.range_producer hy
            rcases hsound.fills.separate hmem hmem' with rfl | hsep
            · exact absurd rfl hne
            · exact hsep
        | consumer => exact (hsound.apart_consumer hy hx).symm
    | consumer =>
        cases y with
        | producer w => exact hsound.apart_consumer hx hy
        | consumer => exact absurd rfl hne

theorem ringbuf_safe_overlapping : ∃ s s' : State Nat, setup 4 2 (fun _ => 0) = some s ∧
    Reaches step (fun s a => a.Proper s) s overlapping s' ∧ s'.range .consumer = some (0, 2) ∧
      s'.range (.producer 1) = some (2, 1) ∧ ∃ s'', step s' .consume = .ok s'' := by
  have hsetup : setup 4 2 (fun _ => 0) = some ({ space := 4, nworkers := 2, cells := fun _ => 0 } : State Nat) := rfl
  have hrun : (overlapping.foldlM (checked (fun s a => a.isProper s) step) { space := 4, nworkers := 2, cells := fun _ => 0 }).map
      (fun s => (s.range .consumer, s.range (.producer 1), s.wraps)) = some (some (0, 2), some (2, 1), 0) := by
    decide +kernel
  obtain ⟨s', hs, heq⟩ := Option.map_eq_some_iff.mp hrun
  obtain ⟨hconsumer, hrest⟩ := Prod.mk.inj heq
  obtain ⟨hproducer, hwraps⟩ := Prod.mk.inj hrest
  have hreaches := Reaches.of_checked proper_of_isProper hs
  have hsafe := ringbuf_safe hsetup (by decide) hreaches (by rw [hwraps]; decide)
  exact ⟨_, s', hsetup, hreaches, hconsumer, hproducer, hsafe.1 .consume trivial⟩

/-- What was consumed are whole productions in the order in which their ranges were acquired, and all of them
while WRITTEN and NEXT are equal. -/
theorem ringbuf_consumed (hsetup : setup space nworkers cells = some s) (hpos : 0 < space)
    (h : Reaches step (fun s a => a.Proper s) s as s') (hwraps : s'.wraps < 2 ^ 31) :
    (∃ released, released <+: s'.acquired ∧ s'.consumed = released.flatten) ∧
      (s'.written = s'.next.off → s'.consumed = s'.acquired.flatten) := by
  obtain ⟨L, hsound⟩ := sound_of_reaches hsetup hpos h hwraps
  obtain ⟨released, hacquired, hconsumed⟩ := hsound.log
  refine ⟨⟨released, ⟨_, hacquired.symm⟩, hconsumed⟩, fun heq => ?_⟩
  have hnil : L.records = [] := by
    cases L with
    | flat front =>
        have hchain := hsound.fills.1
        rw [← heq] at hchain
        exact hchain.nil_of_eq fun r hr => hsound.nonempty r hr
    | wrapped front back limit => exact absurd hsound.fills.2.2.1 (by omega)
  rw [hacquired, hnil, List.map_nil, List.append_nil]
  exact hconsumed

theorem ringbuf_consumed_overlapping : ∃ s s' : State Nat, setup 4 2 (fun _ => 0) = some s ∧
    Reaches step (fun s a => a.Proper s) s copiedOut s' ∧
      s'.acquired = [[1, 2], [3]] ∧ s'.consumed = [1, 2] ∧
        ∃ released, released <+: s'.acquired ∧ s'.consumed = released.flatten := by
  have hsetup : setup 4 2 (fun _ => 0) = some ({ space := 4, nworkers := 2, cells := fun _ => 0 } : State Nat) := rfl
  have hrun : (copiedOut.foldlM (checked (fun s a => a.isProper s) step)
      { space := 4, nworkers := 2, cells := fun _ => 0 }).map (fun s => (s.acquired, s.consumed, s.wraps)) =
        some ([[1, 2], [3]], [1, 2], 0) := by
    decide +kernel
  obtain ⟨s', hs, heq⟩ := Option.map_eq_some_iff.mp hrun
  obtain ⟨hacquired, hrest⟩ := Prod.mk.inj heq
  obtain ⟨hconsumed, hwraps⟩ := Prod.mk.inj hrest
  have hreaches := Reaches.of_checked proper_of_isProper hs
  have hall := ringbuf_consumed hsetup (by decide) hreaches (by rw [hwraps]; decide)
  exact ⟨_, s', hsetup, hreaches, hacquired, hconsumed, hall.1⟩

end Runs

end Mallob.RingbufThreads
