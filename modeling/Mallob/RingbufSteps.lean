import Mallob.RingbufLayout

namespace Mallob.RingbufThreads

open RangeChains

variable {α : Type} {s s' : State α} {L L' : Layout α} {w : Nat} {x y : Worker α}

namespace Layout

theorem mem_front {r : Record α} (h : r ∈ L.front) : r ∈ L.records := by
  cases L with
  | flat front => exact h
  | wrapped front back limit => exact List.mem_append_left _ h

theorem Fills.mem_front (h : L.Fills s) {r : Record α} (hr : r ∈ L.records) (hle : s.written ≤ r.off) :
    r ∈ L.front := by
  cases L with
  | flat front => exact hr
  | wrapped front back limit =>
      obtain ⟨-, hback, hlt, -⟩ := h
      rcases List.mem_append.mp hr with hr | hr
      · exact hr
      · have hb := hback.bounds hr
        omega

theorem Fills.seen_eq (h : L.Fills s) {r : Record α} (hseen : L.Seen s.space r) (hr : r ∈ L.front) :
    r.seen = r.off := by
  cases L with
  | flat front => exact hseen
  | wrapped front back limit =>
      obtain ⟨hfront, -, hlt, -⟩ := h
      have hle := (hfront.bounds hr).1
      rcases hseen with heq | ⟨-, -, hzero⟩
      · exact heq
      · omega

theorem Fills.separate (h : L.Fills s) {r r' : Record α} (hr : r ∈ L.records) (hr' : r' ∈ L.records) :
    r = r' ∨ r.off + r.data.length ≤ r'.off ∨ r'.off + r'.data.length ≤ r.off := by
  cases L with
  | flat front => exact h.1.apart hr hr'
  | wrapped front back limit =>
      obtain ⟨hfront, hback, hlt, -⟩ := h
      rcases List.mem_append.mp hr with hf | hb
      · rcases List.mem_append.mp hr' with hf' | hb'
        · exact hfront.apart hf hf'
        · have h₁ := hfront.bounds hf
          have h₂ := hback.bounds hb'
          omega
      · rcases List.mem_append.mp hr' with hf' | hb'
        · have h₁ := hback.bounds hb
          have h₂ := hfront.bounds hf'
          omega
        · exact hback.apart hb hb'

theorem Fills.inside (h : L.Fills s) (hnext : s.next.off < s.space) {r : Record α} (hr : r ∈ L.records) :
    r.off + r.data.length ≤ s.space := by
  cases L with
  | flat front =>
      have hb := h.1.bounds hr
      omega
  | wrapped front back limit =>
      obtain ⟨hfront, hback, -, hlimit, -⟩ := h
      rcases List.mem_append.mp hr with hr | hr
      · have hb := hfront.bounds hr
        omega
      · have hb := hback.bounds hr
        omega

end Layout

theorem Sound.observed (h : Sound s L) (hlocked : s.next.locked = false) : Observed s s.next :=
  ⟨hlocked, h.next_lt, h.counter_eq.le, fun _ => le_rfl⟩

/-- What holds of a producer keeps holding when the others do nothing to what it relies on. -/
theorem Worker.Sound.change (h : x.Sound s L) (hspace : s'.space = s.space)
    (hobserved : ∀ seen, Observed s seen → Observed s' seen)
    (haimed : ∀ len seen t, Observed s seen → Aimed s len seen t → Aimed s' len seen t)
    (hlocking : x.call.locks = true → ∀ seen t fin, Locking s L seen t fin → Locking s' L' seen t fin)
    (hcells : ∀ offset data, x.call.holding = some (offset, data) →
      ∀ i, i < data.length → s'.cells (offset + i) = s.cells (offset + i)) : x.Sound s' L' := by
  rw [Worker.Sound] at h ⊢
  cases hcall : x.call with
  | idle => simpa only [hcall] using h
  | loadNext data => simpa only [hcall] using h
  | giveUp => simpa only [hcall] using h
  | storeSeen data seen =>
      simp only [hcall] at h ⊢
      exact ⟨h.1, h.2.1, hobserved seen h.2.2⟩
  | loadWritten data seen =>
      simp only [hcall] at h ⊢
      exact ⟨h.1, h.2.1, hobserved seen h.2.2⟩
  | compareExchange data seen t =>
      simp only [hcall] at h ⊢
      exact ⟨h.1, h.2.1, hobserved seen h.2.2.1, haimed _ _ _ h.2.2.1 h.2.2.2⟩
  | clearUnstable data seen t =>
      simp only [hcall, Producing.locks, hspace] at h hlocking ⊢
      exact ⟨h.1, h.2.1, fun ht => hlocking ht seen t none (h.2.2 ht)⟩
  | storeEnd data seen t =>
      simp only [hcall] at h hlocking ⊢
      exact ⟨h.1, hlocking rfl seen t none h.2⟩
  | unlock data seen t =>
      simp only [hcall] at h hlocking ⊢
      exact ⟨h.1, hlocking rfl seen t _ h.2⟩
  | copy data offset copied =>
      simp only [hcall, Producing.holding] at h hcells ⊢
      refine ⟨h.1, h.2.1, fun i hi hlt => ?_⟩
      rw [hcells offset data rfl i hi]
      exact h.2.2 i hi hlt

theorem ConsumerSound.change (h : ConsumerSound s L) (hconsumer : s'.consumer = s.consumer) (hfin : s'.fin = s.fin)
    (hscan : ∀ next i ready, Scanned s L next i ready → Scanned s' L' next i ready)
    (hempty : Emptied s L → Emptied s' L')
    (hcopy : ∀ size copied, Copying s L size copied → Copying s' L' size copied) : ConsumerSound s' L' := by
  rw [ConsumerSound] at h ⊢
  rw [hconsumer]
  cases hc : s.consumer with
  | idle => trivial
  | loadNext => trivial
  | scan next i ready =>
      simp only [hc] at h ⊢
      exact hscan next i ready h
  | clearEnd =>
      simp only [hc] at h ⊢
      exact hempty h
  | resetWritten =>
      simp only [hc] at h ⊢
      exact ⟨hempty h.1, hfin.trans h.2⟩
  | copy size copied =>
      simp only [hc] at h ⊢
      exact hcopy size copied h

/-- A producer moves on without touching anything that the others rely on. -/
theorem Sound.setWorker (h : Sound s L) (hw : w < s.nworkers) (hx : x.Sound s L)
    (hholding : x.call.holding = (s.workers w).call.holding) (hholds : ∀ r, (s.workers w).Holds r → x.Holds r)
    (hlocks : x.call.locks = true → (s.workers w).call.locks = true) : Sound (s.setWorker w x) L := by
  have heq : ∀ v, (s.setWorker w x).workers v = if v = w then x else s.workers v := fun v => by
    simp only [State.setWorker, Function.update_apply]
  refine {
    next_lt := h.next_lt, written_lt := h.written_lt, counter_eq := h.counter_eq, fills := ?_, marked := ?_
    nonempty := h.nonempty, seen := h.seen, holds := ?_, held := ?_, contents := h.contents, inside := ?_
    workers := ?_, lock := ?_, consumer := ?_, log := h.log }
  · have hf := h.fills
    cases L with
    | flat front => exact hf
    | wrapped front back limit => exact hf
  · have hm := h.marked
    cases L with
    | flat front => trivial
    | wrapped front back limit => exact hm
  · intro r hr hp
    obtain ⟨hlt, hhr⟩ := h.holds r hr hp
    refine ⟨hlt, ?_⟩
    rw [heq]
    split
    · next hrw => exact hholds r (hrw ▸ hhr)
    · exact hhr
  · intro v off data hv
    rw [heq] at hv
    split at hv
    · next hvw =>
        rw [hholding, ← hvw] at hv
        exact h.held v off data hv
    · exact h.held v off data hv
  · intro v hv
    rw [heq, if_neg (by change s.nworkers ≤ v at hv; omega)]
    exact h.inside v hv
  · have hkeep : ∀ y : Worker α, y.Sound s L → y.Sound (s.setWorker w x) L := fun y hy =>
      hy.change rfl (fun _ ho => ⟨ho.unlocked, ho.lt, ho.counter_le, ho.off_le⟩) (fun _ _ _ _ ha => ha)
        (fun _ _ _ _ hl => ⟨hl.next_eq, hl.locked, hl.fin_eq, hl.limit_eq⟩) (fun _ _ _ _ _ => rfl)
    intro v
    rw [heq]
    split
    · exact hkeep x hx
    · exact hkeep _ (h.workers v)
  · intro v v' hv hv'
    have hl : ∀ u, ((s.setWorker w x).workers u).call.locks = true → (s.workers u).call.locks = true := by
      intro u hu
      rw [heq] at hu
      split at hu
      · next huw => rw [huw]; exact hlocks hu
      · exact hu
    exact h.lock v v' (hl v hv) (hl v' hv')
  · exact h.consumer.change rfl rfl (fun _ _ _ hs => ⟨hs.ne, hs.ahead, hs.behind, hs.boundary, hs.observed⟩)
      (fun he => ⟨he.unlocked, he.layout⟩) (fun _ _ hc => ⟨hc.pos, hc.le, hc.source⟩)

/-- The target lies behind the range without a wrap-around, or the range ends with the buffer, or it exceeds the
buffer and lies at its beginning. -/
theorem target_cases {space len observed : Nat} {seen t : Next} (hlt : observed < space)
    (h : target space seen len observed = some t) :
    (seen.off + len < space ∧ t = ⟨seen.off + len, seen.counter, false⟩ ∧
      (observed ≤ seen.off ∨ seen.off + len < observed)) ∨
    (seen.off + len = space ∧ observed ≤ seen.off ∧ 0 < observed ∧ t = ⟨0, (seen.counter + 1) % 2 ^ 31, false⟩) ∨
    (space < seen.off + len ∧ observed ≤ seen.off ∧ len < observed ∧ t = ⟨len, (seen.counter + 1) % 2 ^ 31, true⟩) := by
  simp only [target] at h
  split at h
  · cases h
  · next hfree =>
      split at h
      · next hwrap =>
          by_cases hexceed : space < seen.off + len
          · simp only [gt_iff_lt, hexceed, if_true, decide_true] at h
            split at h
            · cases h
            · exact Or.inr (Or.inr ⟨hexceed, by omega, by omega, (Option.some.inj h).symm⟩)
          · simp only [gt_iff_lt, hexceed, if_false, decide_false] at h
            split at h
            · cases h
            · exact Or.inr (Or.inl ⟨by omega, by omega, by omega, (Option.some.inj h).symm⟩)
      · exact Or.inl ⟨by omega, (Option.some.inj h).symm, by omega⟩

theorem placed_concat {a b : Nat} {rs : List (Record α)} (h : Placed a b rs) (w seen : Nat) (data : List α) :
    Placed a (b + data.length) (rs ++ [⟨w, b, seen, data, false⟩]) :=
  Chain.concat (r := ⟨w, b, seen, data, false⟩) h rfl

structure Extends (s s' : State α) (L L' : Layout α) (r : Record α) (t : Next) : Prop where
  records : L'.records = L.records ++ [r]
  front : L.front <+: L'.front
  wrapped : ∀ front back limit, L = .wrapped front back limit →
    s'.next.locked = false ∧ ∃ back', L' = .wrapped front back' limit
  fills : L'.Fills s'
  marked : L'.Marked s'
  seen : ∀ r', L.Seen s.space r' → L'.Seen s.space r'
  last : L'.Seen s.space r
  limit : t.locked = true → s.fin = none ∧ ∃ front back, L' = .wrapped front back r.seen

/-- With the word NEXT unchanged since it was observed, the target leaves all ranges alone. -/
theorem Sound.exists_extends (h : Sound s L) {data : List α} {t : Next} (haimed : Aimed s data.length s.next t)
    (hlocked : s.next.locked = false) (hspace : s'.space = s.space) (hwritten : s'.written = s.written)
    (hfin : s'.fin = s.fin) (hconsumer : s'.consumer = s.consumer) (hnext : s'.next = t) :
    ∃ L', Extends s s' L L' ⟨w, acquiredOffset s.next t, s.next.off, data, false⟩ t := by
  obtain ⟨observed, hlt, htarget, hstale⟩ := haimed
  obtain ⟨hflat, hwrapped⟩ := hstale h.counter_eq rfl
  have hfills := h.fills
  rcases target_cases hlt htarget with ⟨hroom, rfl, hfree⟩ | ⟨hexact, hle, hpos, rfl⟩ | ⟨hexceed, hle, hlen, rfl⟩
  · have hoff : acquiredOffset s.next ⟨s.next.off + data.length, s.next.counter, false⟩ = s.next.off := rfl
    cases L with
    | flat front =>
        obtain ⟨hchain, -, hnone⟩ := hfills
        refine ⟨.flat (front ++ [⟨w, s.next.off, s.next.off, data, false⟩]), {
          records := rfl, front := List.prefix_append _ _, wrapped := fun _ _ _ heq => by cases heq
          fills := ⟨?_, by rw [hnext], hfin.trans hnone⟩, marked := trivial, seen := fun _ hr => hr, last := rfl
          limit := fun ht => by cases ht }⟩
        rw [hwritten, hnext]
        exact placed_concat hchain ..
    | wrapped front back limit =>
        obtain ⟨hchain, hback, hbehind, hlimit, -⟩ := hfills
        refine ⟨.wrapped front (back ++ [⟨w, s.next.off, s.next.off, data, false⟩]) limit, {
          records := (List.append_assoc _ _ _).symm, front := List.prefix_rfl
          wrapped := ?_, fills := ?_, marked := ?_, seen := fun _ hr => hr, last := Or.inl rfl
          limit := fun ht => by cases ht }⟩
        · rintro _ _ _ ⟨⟩
          exact ⟨by rw [hnext], _, rfl⟩
        · simp only [Layout.Fills, hwritten, hnext, hspace]
          exact ⟨hchain, placed_concat hback .., by omega, hlimit, fun hl => by cases hl⟩
        · refine ⟨fun e he => h.marked.1 e (hfin ▸ he), fun _ hc => ?_⟩
          rw [hfin, hspace]
          rw [hconsumer] at hc
          exact h.marked.2 hlocked hc
  · cases L with
    | flat front =>
        obtain ⟨hchain, -, hnone⟩ := hfills
        refine ⟨.wrapped (front ++ [⟨w, s.next.off, s.next.off, data, false⟩]) [] s.space, {
          records := by simp [Layout.records, acquiredOffset], front := List.prefix_append _ _
          wrapped := fun _ _ _ heq => by cases heq
          fills := ?_, marked := ?_, seen := fun _ hr => Or.inl hr, last := Or.inl rfl
          limit := fun ht => by cases ht }⟩
        · simp only [Layout.Fills, hwritten, hnext, hspace]
          have hend : Placed s.written (s.next.off + data.length)
              (front ++ [⟨w, s.next.off, s.next.off, data, false⟩]) := placed_concat hchain ..
          exact ⟨hexact ▸ hend, rfl, by omega, le_rfl, fun hl => by cases hl⟩
        · refine ⟨fun e he => ?_, fun _ _ => ?_⟩
          · rw [hfin, hnone] at he
            cases he
          · rw [hfin, hnone, hspace, if_pos rfl]
    | wrapped front back limit =>
        have hbehind := hfills.2.2.1
        omega
  · cases L with
    | flat front =>
        obtain ⟨hchain, -, hnone⟩ := hfills
        refine ⟨.wrapped front [⟨w, 0, s.next.off, data, false⟩] s.next.off, {
          records := rfl, front := List.prefix_rfl, wrapped := fun _ _ _ heq => by cases heq
          fills := ?_, marked := ?_, seen := fun _ hr => Or.inl hr, last := Or.inr ⟨rfl, h.next_lt, rfl⟩
          limit := fun _ => ⟨hnone, _, _, rfl⟩ }⟩
        · simp only [Layout.Fills, hwritten, hnext, hspace]
          exact ⟨hchain, ⟨rfl, Nat.zero_add _⟩, by omega, h.next_lt.le, fun _ => h.next_lt⟩
        · refine ⟨fun e he => ?_, fun hl => ?_⟩
          · rw [hfin, hnone] at he
            cases he
          · rw [hnext] at hl
            cases hl
    | wrapped front back limit =>
        have hbehind := hfills.2.2.1
        omega

theorem Worker.Sound.locking (h : x.Sound s L) (hlocks : x.call.locks = true) :
    ∃ seen t fin, Locking s L seen t fin := by
  rw [Worker.Sound] at h
  cases hcall : x.call with
  | clearUnstable data seen t =>
      simp only [hcall, Producing.locks] at h hlocks
      exact ⟨seen, t, none, h.2.2 hlocks⟩
  | storeEnd data seen t =>
      simp only [hcall] at h
      exact ⟨seen, t, none, h.2⟩
  | unlock data seen t =>
      simp only [hcall] at h
      exact ⟨seen, t, some seen.off, h.2⟩
  | _ => simp [hcall, Producing.locks] at hlocks

theorem Sound.not_locks (h : Sound s L) (hlocked : s.next.locked = false) (v : Nat) :
    (s.workers v).call.locks = false := by
  rw [← Bool.not_eq_true]
  intro hlocks
  obtain ⟨seen, t, fin, hl⟩ := (h.workers v).locking hlocks
  rw [hl.next_eq, hl.locked] at hlocked
  cases hlocked

/-- The words that other producers have observed are older than a new one. -/
theorem Observed.advance {seen : Next} (h : Observed s seen) (hspace : s'.space = s.space)
    (hwraps : s'.wraps = s.wraps ∧ s.next.off ≤ s'.next.off ∨ s'.wraps = s.wraps + 1) : Observed s' seen := by
  have hle := h.counter_le
  refine ⟨h.unlocked, hspace ▸ h.lt, by omega, fun heq => ?_⟩
  rcases hwraps with ⟨hw, hoff⟩ | hw
  · exact (h.off_le (heq.trans hw)).trans hoff
  · omega

theorem Aimed.advance {len : Nat} {seen t : Next} (h : Aimed s len seen t) (hobserved : Observed s seen)
    (hspace : s'.space = s.space)
    (hwraps : s'.wraps = s.wraps ∧ s.next.off < s'.next.off ∨ s'.wraps = s.wraps + 1) : Aimed s' len seen t := by
  obtain ⟨observed, hlt, htarget, -⟩ := h
  refine ⟨observed, hspace ▸ hlt, hspace ▸ htarget, fun heq hoff => ?_⟩
  have hle := hobserved.counter_le
  rcases hwraps with ⟨hw, hadv⟩ | hw
  · have h' := hobserved.off_le (heq.trans hw)
    omega
  · omega

section Extended

variable {r : Record α} {t : Next}

theorem Scanned.extend {next i : Nat} {ready : Option Nat} (h : Scanned s L next i ready) (hfills : L.Fills s)
    (he : Extends s s' L L' r t) (hwritten : s'.written = s.written) (hseen : r.seen = s.next.off) :
    Scanned s' L' next i ready where
  ne := hwritten ▸ h.ne
  ahead := by
    intro hlt
    rw [hwritten] at hlt ⊢
    obtain ⟨pre, hpre, hplaced⟩ := h.ahead hlt
    exact ⟨pre, hpre.trans he.front, hplaced⟩
  behind := by
    intro hlt
    obtain ⟨-, front, back, limit, hL⟩ := h.behind (hwritten ▸ hlt)
    obtain ⟨hunlocked, back', hL'⟩ := he.wrapped front back limit hL
    exact ⟨hunlocked, front, back', limit, hL'⟩
  boundary := by
    intro v hv
    rw [hwritten]
    obtain ⟨pre, hpre, hplaced⟩ := h.boundary v hv
    exact ⟨pre, hpre.trans he.front, hplaced⟩
  observed := by
    intro r' hr' hp hi hle hlt
    rw [hwritten] at hle hlt
    rw [he.records] at hr'
    rcases List.mem_append.mp hr' with hr' | hr'
    · exact h.observed r' hr' hp hi hle hlt
    · -- the range begins at NEXT, which the consumer has seen already
      obtain rfl := List.mem_singleton.mp hr'
      rw [hseen] at hle hlt
      cases L with
      | flat front =>
          rcases hlt with hlt | hlt
          · obtain ⟨-, _, _, _, hL⟩ := h.behind hlt
            cases hL
          · obtain ⟨pre, hpre, hplaced⟩ := h.ahead (by omega)
            obtain ⟨post, -, hpost⟩ := hfills.1.drop_front hpre hplaced
            have hend := hpost.le
            omega
      | wrapped front back limit =>
          have hbehind := hfills.2.2.1
          omega

theorem Emptied.extend (h : Emptied s L) (hfills : L.Fills s) (he : Extends s s' L L' r t)
    (hwritten : s'.written = s.written) (hseen : r.seen = s.next.off) : Emptied s' L' := by
  obtain ⟨back, rfl, hback⟩ := h.layout
  obtain ⟨hunlocked, back', rfl⟩ := he.wrapped [] back s.written rfl
  have hrecords : back' = back ++ [r] := by simpa [Layout.records] using he.records
  refine ⟨hunlocked, back', by rw [hwritten], fun r' hr' hp => ?_⟩
  rw [hwritten]
  rw [hrecords] at hr'
  rcases List.mem_append.mp hr' with hr' | hr'
  · exact hback r' hr' hp
  · obtain rfl := List.mem_singleton.mp hr'
    rw [hseen]
    exact hfills.2.2.1

theorem Copying.extend {size : Nat} {copied : List α} (h : Copying s L size copied) (he : Extends s s' L L' r t)
    (hwritten : s'.written = s.written) : Copying s' L' size copied := by
  obtain ⟨pre, hpre, hplaced, hproduced, hcopied⟩ := h.source
  refine ⟨h.pos, h.le, pre, hpre.trans he.front, ?_, hproduced, hcopied⟩
  rw [hwritten]
  exact hplaced

end Extended

theorem Sound.exchange (h : Sound s L) {data : List α} {seen t : Next}
    (hcall : (s.workers w).call = .compareExchange data seen t) (hnext : s.next = seen)
    (hwraps : (s.compareExchange w data seen t false).wraps < 2 ^ 31) :
    ∃ L', Sound (s.compareExchange w data seen t false) L' := by
  have hw : w < s.nworkers := by
    by_contra hlt
    rw [h.inside w (Nat.le_of_not_lt hlt)] at hcall
    cases hcall
  have hsound := h.workers w
  rw [Worker.Sound] at hsound
  simp only [hcall] at hsound
  obtain ⟨hseenOff, hlen, hobserved, haimed⟩ := hsound
  subst hnext
  have hunlocked := hobserved.unlocked
  obtain ⟨observed, hlt, htarget, -⟩ := id haimed
  have hcases := target_cases hlt htarget
  have hs' : s.compareExchange w data s.next t false =
      { s.setCall w (.clearUnstable data s.next t) with
        next := t, acquired := s.acquired ++ [data]
        wraps := if s.space ≤ s.next.off + data.length then s.wraps + 1 else s.wraps } := by
    simp [State.compareExchange]
  generalize hdef : s.compareExchange w data s.next t false = s' at hwraps hs' ⊢
  have hworkers : ∀ v, s'.workers v =
      if v = w then ⟨.at s.next.off true, .clearUnstable data s.next t⟩ else s.workers v := by
    intro v
    rw [hs', ← hseenOff]
    simp only [State.setCall, State.setWorker, Function.update_apply]
  have hspace : s'.space = s.space := by rw [hs']; rfl
  have hwritten : s'.written = s.written := by rw [hs']; rfl
  have hfin : s'.fin = s.fin := by rw [hs']; rfl
  have hconsumer : s'.consumer = s.consumer := by rw [hs']; rfl
  have hcells : s'.cells = s.cells := by rw [hs']; rfl
  have hnext : s'.next = t := by rw [hs']
  have hwraps' : s'.wraps = if s.space ≤ s.next.off + data.length then s.wraps + 1 else s.wraps := by rw [hs']
  have hnworkers : s'.nworkers = s.nworkers := by rw [hs']; rfl
  have hacquired : s'.acquired = s.acquired ++ [data] := by rw [hs']
  have hconsumed : s'.consumed = s.consumed := by rw [hs']; rfl
  obtain ⟨L', he⟩ := h.exists_extends (w := w) haimed hunlocked hspace hwritten hfin hconsumer hnext
  have hpos := h.written_lt
  have hcounter := h.counter_eq
  have hadvance : t.off < s.space ∧ t.counter = s'.wraps ∧
      (s'.wraps = s.wraps ∧ s.next.off < s'.next.off ∨ s'.wraps = s.wraps + 1) := by
    rw [hnext]
    rcases hcases with ⟨hroom, rfl, -⟩ | ⟨hexact, hle, -, rfl⟩ | ⟨hexceed, hle, hlen', rfl⟩
    · rw [if_neg (by omega)] at hwraps'
      exact ⟨hroom, hcounter.trans hwraps'.symm, Or.inl ⟨hwraps', by simp only; omega⟩⟩
    · rw [if_pos (by omega)] at hwraps'
      rw [hcounter, hwraps', Nat.mod_eq_of_lt (by omega)]
      exact ⟨by simp only; omega, rfl, Or.inr rfl⟩
    · rw [if_pos (by omega)] at hwraps'
      rw [hcounter, hwraps', Nat.mod_eq_of_lt (by omega)]
      exact ⟨by simp only; omega, rfl, Or.inr rfl⟩
  obtain ⟨hoff, htcounter, hadv⟩ := hadvance
  have hadv' : s'.wraps = s.wraps ∧ s.next.off ≤ s'.next.off ∨ s'.wraps = s.wraps + 1 :=
    hadv.imp_left fun hh => ⟨hh.1, hh.2.le⟩
  have hother : ∀ r ∈ L.records, r.produced = false → r.worker ≠ w := by
    intro r hr hp heq
    have hholds := (h.holds r hr hp).2.1
    rw [heq, hcall] at hholds
    cases hholds
  refine ⟨L', {
    next_lt := by rw [hnext, hspace]; exact hoff
    written_lt := by rw [hwritten, hspace]; exact hpos
    counter_eq := by rw [hnext]; exact htcounter
    fills := he.fills, marked := he.marked, nonempty := ?_, seen := ?_, holds := ?_, held := ?_, contents := ?_
    inside := ?_, workers := ?_, lock := ?_, consumer := ?_, log := ?_ }⟩
  · intro r hr
    rw [he.records] at hr
    rcases List.mem_append.mp hr with hr | hr
    · exact h.nonempty r hr
    · obtain rfl := List.mem_singleton.mp hr
      exact hlen
  · intro r hr hp
    rw [hspace]
    rw [he.records] at hr
    rcases List.mem_append.mp hr with hr | hr
    · exact he.seen r (h.seen r hr hp)
    · obtain rfl := List.mem_singleton.mp hr
      exact he.last
  · intro r hr hp
    rw [hnworkers, hworkers]
    rw [he.records] at hr
    rcases List.mem_append.mp hr with hr | hr
    · rw [if_neg (hother r hr hp)]
      exact h.holds r hr hp
    · obtain rfl := List.mem_singleton.mp hr
      rw [if_pos rfl]
      exact ⟨hw, rfl, true, rfl⟩
  · intro v off xs hv
    rw [he.records]
    rw [hworkers] at hv
    split at hv
    · next hvw =>
        obtain ⟨rfl, rfl⟩ := Prod.mk.inj (Option.some.inj hv)
        exact ⟨_, List.mem_append_right _ (List.mem_singleton_self _), rfl, hvw.symm, rfl, rfl⟩
    · obtain ⟨r, hr, hrest⟩ := h.held v off xs hv
      exact ⟨r, List.mem_append_left _ hr, hrest⟩
  · intro r hr hp i hi
    rw [hcells]
    rw [he.records] at hr
    rcases List.mem_append.mp hr with hr | hr
    · exact h.contents r hr hp i hi
    · obtain rfl := List.mem_singleton.mp hr
      cases hp
  · intro v hv
    rw [hnworkers] at hv
    rw [hworkers, if_neg (by omega)]
    exact h.inside v hv
  · intro v
    rw [hworkers]
    split
    · refine ⟨rfl, by rw [hspace]; exact hoff.le, fun ht => ?_⟩
      obtain ⟨hnone, hlimit⟩ := he.limit ht
      exact ⟨hnext, ht, hfin.trans hnone, hlimit⟩
    · refine (h.workers v).change hspace (fun _ ho => ho.advance hspace hadv')
        (fun _ _ _ ho ha => ha.advance ho hspace hadv) ?_ (fun _ _ _ _ _ => by rw [hcells])
      intro hlocks
      rw [h.not_locks hunlocked v] at hlocks
      cases hlocks
  · have hlocks : ∀ v, (s'.workers v).call.locks = true → v = w := by
      intro v hv
      rw [hworkers] at hv
      split at hv
      · next heq => exact heq
      · rw [h.not_locks hunlocked v] at hv
        cases hv
    intro v v' hv hv'
    rw [hlocks v hv, hlocks v' hv']
  · exact h.consumer.change hconsumer hfin (fun _ _ _ hs => hs.extend h.fills he hwritten rfl)
      (fun hem => hem.extend h.fills he hwritten rfl) (fun _ _ hc => hc.extend he hwritten)
  · obtain ⟨released, hacq, hcons⟩ := h.log
    refine ⟨released, ?_, hconsumed.trans hcons⟩
    rw [hacquired, hacq, he.records, List.map_append, List.append_assoc, List.map_singleton]

end Mallob.RingbufThreads
