import Mallob.BulkInsertion

namespace Mallob.Sharing

variable {κ : Type} {slot : ClauseSlot} {conditional : Conditional κ} {c : Clause} {pos n n' : Nat}
  {cs rest : List (Clause × Nat)} {b b' : RingBuffer} {s s' : BulkState κ} {filter filter' : κ} {finished : Bool}
  {es es' : List BulkEvent} {valid : Clause → Prop}

def BulkState.asked (pos : Nat) (verdict : Bool) (filter : κ) (s : BulkState κ) : BulkState κ :=
  { s with filter := filter, events := s.events ++ [.evaluated pos verdict] }

def BulkState.insertedAt (pos : Nat) (s : BulkState κ) : BulkState κ :=
  { s with isClauseAdmitted := false, events := s.events ++ [.inserted pos] }

/-- Each clause with a slot is evaluated once, and those that meet the condition are then inserted or
discarded. -/
inductive Settled (conditional : Conditional κ) (valid : Clause → Prop) :
    κ → List (Clause × Nat) → List BulkEvent → κ → Prop
  | nil {filter : κ} : Settled conditional valid filter [] [] filter
  | skipped {filter filter' : κ} {c : Clause} {pos : Nat} {cs : List (Clause × Nat)} {es : List BulkEvent} :
      ¬valid c → Settled conditional valid filter cs es filter' →
      Settled conditional valid filter ((c, pos) :: cs) es filter'
  | filtered {filter filter₁ filter' : κ} {c : Clause} {pos : Nat} {cs : List (Clause × Nat)} {es : List BulkEvent} :
      valid c → conditional filter c = (false, filter₁) → Settled conditional valid filter₁ cs es filter' →
      Settled conditional valid filter ((c, pos) :: cs) (.evaluated pos false :: es) filter'
  | kept {filter filter₁ filter' : κ} {c : Clause} {pos : Nat} {cs : List (Clause × Nat)} {es : List BulkEvent}
      {e : BulkEvent} :
      valid c → conditional filter c = (true, filter₁) → e = .inserted pos ∨ e = .discarded pos →
      Settled conditional valid filter₁ cs es filter' →
      Settled conditional valid filter ((c, pos) :: cs) (.evaluated pos true :: e :: es) filter'

theorem Settled.of_nil (h : Settled conditional valid filter [] es filter') : es = [] ∧ filter' = filter := by
  cases h with
  | nil => exact ⟨rfl, rfl⟩

theorem Settled.append {ds : List (Clause × Nat)} {filter'' : κ} (h : Settled conditional valid filter cs es filter')
    (h' : Settled conditional valid filter' ds es' filter'') :
    Settled conditional valid filter (cs ++ ds) (es ++ es') filter'' := by
  induction h with
  | nil => exact h'
  | skipped hnot _ ih => exact .skipped hnot (ih h')
  | filtered hc hask _ ih => exact .filtered hc hask (ih h')
  | kept hc hask he _ ih => exact .kept hc hask he (ih h')

namespace ClauseSlot

def groupOf (slot : ClauseSlot) (cs : List (Clause × Nat)) : List (Clause × Nat) :=
  cs.takeWhile fun x => slot.isClauseCompatible x.1

def behind (slot : ClauseSlot) (cs : List (Clause × Nat)) : List (Clause × Nat) :=
  cs.dropWhile fun x => slot.isClauseCompatible x.1

def admitted (conditional : Conditional κ) : κ → List (Clause × Nat) → List Clause
  | _, [] => []
  | filter, (c, _) :: rest =>
      if (conditional filter c).1 then c :: admitted conditional (conditional filter c).2 rest
      else admitted conditional (conditional filter c).2 rest

def takesAll (slot : ClauseSlot) : RingBuffer → List Clause → Bool
  | _, [] => true
  | b, c :: cs =>
      match b.produce c.lits (if slot.uniformLbdValues then 0 else c.lbd) with
      | none => false
      | some b' => slot.takesAll b' cs

theorem groupOf_append_behind (slot : ClauseSlot) (cs : List (Clause × Nat)) :
    slot.groupOf cs ++ slot.behind cs = cs :=
  List.takeWhile_append_dropWhile

@[simp] theorem groupOf_cons (hc : slot.isClauseCompatible c) :
    slot.groupOf ((c, pos) :: rest) = (c, pos) :: slot.groupOf rest := by
  simp [groupOf, hc]

@[simp] theorem behind_cons (hc : slot.isClauseCompatible c) :
    slot.behind ((c, pos) :: rest) = slot.behind rest := by
  simp [behind, hc]

@[simp] theorem groupOf_incompatible (hc : ¬slot.isClauseCompatible c) :
    slot.groupOf ((c, pos) :: rest) = [] := by
  simp [groupOf, hc]

@[simp] theorem behind_incompatible (hc : ¬slot.isClauseCompatible c) :
    slot.behind ((c, pos) :: rest) = (c, pos) :: rest := by
  simp [behind, hc]

theorem size_of_compatible (hc : slot.isClauseCompatible c) : c.size = slot.clauseSize := by
  simp only [isClauseCompatible, Bool.and_eq_true, decide_eq_true_eq] at hc
  exact hc.1

def Proper (x : Clause × Nat) : Prop := x.1.lbd ≠ 0 ∧ 0 ∉ x.1.lits

theorem fillChunk_incompatible (hlits : 0 ∉ c.lits) (hc : ¬slot.isClauseCompatible c) :
    slot.fillChunk conditional ((c, pos) :: rest) b n s = .ok (true, b, n, { s with cPtr := (c, pos) :: rest }) := by
  rw [fillChunk, if_neg hlits, if_pos hc]

theorem fillChunk_filtered (hlits : 0 ∉ c.lits) (hc : slot.isClauseCompatible c)
    (hask : conditional s.filter c = (false, filter)) :
    slot.fillChunk conditional ((c, pos) :: rest) b n s =
      slot.fillChunk conditional rest b n (s.asked pos false filter).countFiltered := by
  rw [fillChunk, if_neg hlits, if_neg (not_not.mpr hc), BulkState.evaluate, hask]
  rfl

theorem fillChunk_refused (hlits : 0 ∉ c.lits) (hc : slot.isClauseCompatible c)
    (hask : conditional s.filter c = (true, filter))
    (hfull : b.produce c.lits (if slot.uniformLbdValues then 0 else c.lbd) = none) :
    slot.fillChunk conditional ((c, pos) :: rest) b n s =
      .ok (false, b, n, { s.asked pos true filter with isClauseAdmitted := true, cPtr := (c, pos) :: rest }) := by
  rw [fillChunk, if_neg hlits, if_neg (not_not.mpr hc), BulkState.evaluate, hask]
  simp only [insertClause, size_of_compatible hc, ne_eq, not_true_eq_false, if_false, hfull]
  rfl

theorem fillChunk_inserted (hlits : 0 ∉ c.lits) (hc : slot.isClauseCompatible c)
    (hask : conditional s.filter c = (true, filter))
    (hroom : b.produce c.lits (if slot.uniformLbdValues then 0 else c.lbd) = some b') :
    slot.fillChunk conditional ((c, pos) :: rest) b n s =
      slot.fillChunk conditional rest b' (n + 1) ((s.asked pos true filter).insertedAt pos) := by
  rw [fillChunk, if_neg hlits, if_neg (not_not.mpr hc), BulkState.evaluate, hask]
  simp only [insertClause, size_of_compatible hc, ne_eq, not_true_eq_false, if_false, hroom]
  rfl

structure Passes (slot : ClauseSlot) (s s' : BulkState κ) : Prop where
  cPtr_eq : ∃ done, s.cPtr = done ++ s'.cPtr ∧ (∀ x ∈ done, slot.isClauseCompatible x.1) ∧
    s'.stats.total = s.stats.total + done.length
  deferred_eq : s'.deferred = s.deferred
  starts : s.events <+: s'.events

theorem Passes.refl (slot : ClauseSlot) (s : BulkState κ) : slot.Passes s s :=
  ⟨⟨[], rfl, by simp, rfl⟩, rfl, List.prefix_rfl⟩

theorem Passes.trans {s'' : BulkState κ} (h : slot.Passes s s') (h' : slot.Passes s' s'') : slot.Passes s s'' := by
  obtain ⟨done, hdone, hall, htotal⟩ := h.cPtr_eq
  obtain ⟨done', hdone', hall', htotal'⟩ := h'.cPtr_eq
  refine ⟨⟨done ++ done', ?_, ?_, ?_⟩, h'.deferred_eq.trans h.deferred_eq, h.starts.trans h'.starts⟩
  · rw [hdone, hdone', List.append_assoc]
  · intro x hx
    rcases List.mem_append.mp hx with hx | hx
    · exact hall x hx
    · exact hall' x hx
  · rw [htotal', htotal, List.length_append, Nat.add_assoc]

def Completes (slot : ClauseSlot) (conditional : Conditional κ) (valid : Clause → Prop) (s s' : BulkState κ) : Prop :=
  s'.cPtr = slot.behind s.cPtr ∧
    ∃ es, Settled conditional valid s.filter (slot.groupOf s.cPtr) es s'.filter ∧ s'.events = s.events ++ es

def Sticks (slot : ClauseSlot) (conditional : Conditional κ) (valid : Clause → Prop) (s s' : BulkState κ) : Prop :=
  ∃ done c pos post es filter, s.cPtr = done ++ (c, pos) :: post ∧ (∀ x ∈ done, slot.isClauseCompatible x.1) ∧
    slot.isClauseCompatible c ∧ Settled conditional valid s.filter done es filter ∧
    conditional filter c = (true, s'.filter) ∧ s'.events = s.events ++ es ++ [.evaluated pos true] ∧
    s'.cPtr = (c, pos) :: post ∧ s'.isClauseAdmitted = true

/-- How the loop at a chunk ends: all clauses of the slot are passed if there is room for those that meet
the condition, and otherwise one of them is refused. -/
structure Fill (slot : ClauseSlot) (conditional : Conditional κ) (valid : Clause → Prop) (room : Bool)
    (cs : List (Clause × Nat)) (s s' : BulkState κ) (finished : Bool) (numInserted : Nat) : Prop where
  deferred_eq : s'.deferred = s.deferred
  outcome : ∃ done es filter, cs = done ++ s'.cPtr ∧ (∀ x ∈ done, slot.isClauseCompatible x.1) ∧
    Settled conditional valid s.filter done es filter ∧
    s'.stats.total + numInserted = s.stats.total + done.length ∧
    ((room = true ∧ s'.cPtr = slot.behind cs ∧ done = slot.groupOf cs ∧ filter = s'.filter ∧
        s'.events = s.events ++ es ∧ finished = !(slot.behind cs).isEmpty) ∨
      (room = false ∧ finished = false ∧ s'.isClauseAdmitted = true ∧
        ∃ c pos post, s'.cPtr = (c, pos) :: post ∧ slot.isClauseCompatible c ∧
          conditional filter c = (true, s'.filter) ∧ s'.events = s.events ++ es ++ [.evaluated pos true]))

theorem Fill.last (slot : ClauseSlot) (conditional : Conditional κ) (valid : Clause → Prop) (s : BulkState κ)
    (hcs : slot.groupOf cs = []) :
    slot.Fill conditional valid true cs s { s with cPtr := cs } (!(slot.behind cs).isEmpty) 0 := by
  have hparts := slot.groupOf_append_behind cs
  rw [hcs] at hparts
  exact ⟨rfl, [], [], s.filter, rfl, by simp, .nil, rfl,
    Or.inl ⟨rfl, hparts.symm, hcs.symm, rfl, (List.append_nil _).symm, rfl⟩⟩

theorem Fill.cons {s₁ : BulkState κ} {room : Bool} {k l : Nat} (h : slot.Fill conditional valid room cs s₁ s' finished k)
    (hc : slot.isClauseCompatible c) (hsettled : Settled conditional valid s.filter [(c, pos)] es s₁.filter)
    (hev : s₁.events = s.events ++ es) (hdef : s₁.deferred = s.deferred) (htotal : s₁.stats.total + l = s.stats.total + 1) :
    slot.Fill conditional valid room ((c, pos) :: cs) s s' finished (k + l) := by
  obtain ⟨done, es', filter, heq, hall, hsettled', htotal', hcase⟩ := h.outcome
  refine ⟨h.deferred_eq.trans hdef, (c, pos) :: done, es ++ es', filter, by rw [heq]; rfl, ?_,
    hsettled.append hsettled', ?_, ?_⟩
  · intro x hx
    rcases List.mem_cons.mp hx with rfl | hx
    · exact hc
    · exact hall x hx
  · rw [List.length_cons]
    omega
  · rw [groupOf_cons hc, behind_cons hc]
    rcases hcase with
      ⟨hroom, hptr, rfl, hfilter, hev', hfin⟩ | ⟨hroom, hfin, hadm, c', pos', post, hptr, hc', hask, hev'⟩
    · exact Or.inl ⟨hroom, hptr, rfl, hfilter, by rw [hev', hev, List.append_assoc], hfin⟩
    · exact Or.inr ⟨hroom, hfin, hadm, c', pos', post, hptr, hc', hask,
        by rw [hev', hev, List.append_assoc s.events]⟩

theorem fillChunk_spec (hcs : ∀ x ∈ cs, Proper x) (hvalid : ∀ c, slot.isClauseCompatible c → valid c)
    (hn : 0 < slot.entrySize) (hb : b.Sound slot.entrySize) :
    ∃ finished b' k s', slot.fillChunk conditional cs b n s = .ok (finished, b', n + k, s') ∧
      b'.Sound slot.entrySize ∧ (b'.elements slot.entrySize).length = (b.elements slot.entrySize).length + k ∧
      slot.Fill conditional valid (slot.takesAll b (admitted conditional s.filter (slot.groupOf cs))) cs s s' finished k := by
  induction cs generalizing b n s with
  | nil => exact ⟨false, b, 0, _, rfl, hb, rfl, .last slot conditional valid s rfl⟩
  | cons x cs ih =>
      obtain ⟨c, pos⟩ := x
      obtain ⟨hlbd, hlits⟩ := hcs (c, pos) (List.mem_cons_self ..)
      have hrest := fun x hx => hcs x (List.mem_cons_of_mem _ hx)
      by_cases hc : slot.isClauseCompatible c = true
      · rw [groupOf_cons hc]
        cases hask : conditional s.filter c with
        | mk verdict filter =>
            rw [admitted, hask]
            cases verdict with
            | false =>
                obtain ⟨finished, b', k, s', hok, hsound, hlen, hfill⟩ :=
                  @ih n b (s.asked pos false filter).countFiltered hrest hb
                refine ⟨finished, b', k, s', by rw [fillChunk_filtered hlits hc hask, hok], hsound, hlen, ?_⟩
                refine hfill.cons (l := 0) hc (.filtered (hvalid c hc) hask .nil) rfl rfl ?_
                simp only [BulkState.countFiltered, BulkState.asked, SolvingStatistics.total]
                omega
            | true =>
                simp only [if_true, takesAll]
                cases hp : b.produce c.lits (if slot.uniformLbdValues then 0 else c.lbd) with
                | none =>
                    refine ⟨false, b, 0, _, fillChunk_refused hlits hc hask hp, hb, rfl, rfl, [], [], s.filter, rfl,
                      by simp, .nil, rfl, Or.inr ⟨rfl, rfl, rfl, c, pos, cs, rfl, hc, hask, ?_⟩⟩
                    simp [BulkState.asked]
                | some b₁ =>
                    have hentry := length_entryOf slot (size_of_compatible hc) hlbd
                    obtain ⟨hsound₁, helems⟩ := hb.produce hn hentry hp
                    obtain ⟨finished, b', k, s', hok, hsound, hlen, hfill⟩ :=
                      @ih (n + 1) b₁ ((s.asked pos true filter).insertedAt pos) hrest hsound₁
                    refine ⟨finished, b', k + 1, s', ?_, hsound, ?_, ?_⟩
                    · rw [fillChunk_inserted hlits hc hask hp, hok, Nat.add_assoc, Nat.add_comm 1 k]
                    · rw [hlen, helems, List.length_append, List.length_singleton]
                      omega
                    · refine hfill.cons hc (.kept (hvalid c hc) hask (Or.inl rfl) .nil) ?_ rfl rfl
                      simp [BulkState.insertedAt, BulkState.asked]
      · have hgroup : slot.groupOf ((c, pos) :: cs) = [] := groupOf_incompatible hc
        have hlast := Fill.last slot conditional valid s hgroup
        rw [behind_incompatible hc] at hlast
        rw [hgroup]
        exact ⟨true, b, 0, _, fillChunk_incompatible hlits hc, hb, rfl, hlast⟩

def Takes (slot : ClauseSlot) (chunk : Chunk) (cs : List Clause) : Prop :=
  ∃ b, chunk.data = some b ∧ slot.takesAll b cs = true

theorem bulkInserter_keepsState (slot : ClauseSlot) (conditional : Conditional κ) :
    (slot.bulkInserter conditional).KeepsState := by
  intro chunk s finished chunk' s' h
  rw [bulkInserter] at h
  split at h
  · cases h
  · next b hb =>
      cases hfill : slot.fillChunk conditional s.cPtr b 0 s with
      | error e => rw [hfill] at h; cases h
      | ok r =>
          rw [hfill] at h
          obtain ⟨-, rfl, -⟩ := by simpa [bind, Except.bind, pure, Except.pure] using h
          rfl

theorem bulkInserter_spec {chunk : Chunk} (hs : ∀ x ∈ s.cPtr, Proper x)
    (hvalid : ∀ c, slot.isClauseCompatible c → valid c) (hn : 0 < slot.entrySize)
    (hlive : chunk.Live slot.entrySize) :
    ∃ finished chunk' s',
      slot.bulkInserter conditional { chunk with state := .valid 1 } s = .ok (finished, chunk', s') ∧
      ({ chunk' with state := .valid 0 } : Chunk).Live slot.entrySize ∧ slot.Passes s s' ∧
      ((slot.Takes chunk (admitted conditional s.filter (slot.groupOf s.cPtr)) ∧ slot.Completes conditional valid s s' ∧
          finished = !s'.cPtr.isEmpty) ∨
        (¬slot.Takes chunk (admitted conditional s.filter (slot.groupOf s.cPtr)) ∧ slot.Sticks conditional valid s s' ∧
          finished = false)) := by
  obtain ⟨hstate, hunused, b, hb, hsound, hnum⟩ := hlive
  obtain ⟨finished, b', k, s', hok, hsound', hlen, hfill⟩ :=
    @fillChunk_spec κ slot conditional 0 s.cPtr b s valid hs hvalid hn hsound
  obtain ⟨done, es, filter, heq, hall, hsettled, htotal, hcase⟩ := hfill.outcome
  have hstarts : s.events <+: s'.events := by
    rcases hcase with ⟨-, -, -, -, hev, -⟩ | ⟨-, -, -, c, pos, post, -, -, -, hev⟩
    · exact ⟨es, hev.symm⟩
    · exact ⟨es ++ [.evaluated pos true], by rw [hev, List.append_assoc]⟩
  refine ⟨finished, { chunk with state := .valid 1, data := some b', numElems := chunk.numElems + k },
    { s' with stats.receivedClausesInserted := s'.stats.receivedClausesInserted + k }, ?_, ?_,
    ⟨⟨done, heq, hall, ?_⟩, hfill.deferred_eq, hstarts⟩, ?_⟩
  · simp only [bulkInserter, hb, hok, Nat.zero_add]
    rfl
  · refine ⟨rfl, hunused, b', rfl, hsound', ?_⟩
    simp only [hnum, hlen]
    push_cast
    ring
  · simp only [SolvingStatistics.total] at htotal ⊢
    omega
  · rcases hcase with
      ⟨htakes, hptr, rfl, rfl, hev, hfin⟩ | ⟨htakes, hfin, hadm, c, pos, post, hptr, hc, hask, hev⟩
    · exact Or.inl ⟨⟨b, hb, htakes⟩, ⟨hptr, es, hsettled, hev⟩, by rw [hfin, hptr]⟩
    · refine Or.inr ⟨?_, ⟨done, c, pos, post, es, filter, by rw [heq, hptr], hall, hc, hsettled, hask, hev, hptr, hadm⟩,
        hfin⟩
      rintro ⟨b₁, hb₁, htakes₁⟩
      rw [hb] at hb₁
      obtain rfl := Option.some.inj hb₁
      rw [htakes] at htakes₁
      cases htakes₁

def opens (slot : ClauseSlot) (cells : List Chunk) : List Chunk :=
  cells.filter fun chunk => !slot.isFull chunk && chunk.state ≠ .invalid

theorem opens_cons_open {chunk : Chunk} {cells : List Chunk}
    (h : ¬(slot.isFull chunk = true ∨ chunk.state = .invalid)) :
    slot.opens (chunk :: cells) = chunk :: slot.opens cells := by
  rw [not_or] at h
  simp [opens, h]

theorem opens_cons_closed {chunk : Chunk} {cells : List Chunk}
    (h : slot.isFull chunk = true ∨ chunk.state = .invalid) :
    slot.opens (chunk :: cells) = slot.opens cells := by
  rcases h with h | h
  · simp [opens, h]
  · simp [opens, h]

def evaluations (pos : Nat) (events : List BulkEvent) : Nat :=
  events.countP fun e => e = .evaluated pos true ∨ e = .evaluated pos false

theorem evaluations_append (pos : Nat) (es es' : List BulkEvent) :
    evaluations pos (es ++ es') = evaluations pos es + evaluations pos es' := by
  simp [evaluations]

theorem evaluations_le (pos : Nat) (h : es <+: es') : evaluations pos es ≤ evaluations pos es' :=
  h.sublist.countP_le

theorem evaluations_evaluated (pos : Nat) (verdict : Bool) :
    evaluations pos (.evaluated pos verdict :: es) = evaluations pos es + 1 := by
  cases verdict with
  | true => simp [evaluations]
  | false => simp [evaluations]

theorem Settled.evaluations_pos (h : Settled conditional valid filter ((c, pos) :: cs) es filter') (hc : valid c) :
    0 < evaluations pos es := by
  cases h with
  | skipped hnot _ => exact absurd hc hnot
  | filtered _ _ _ => rw [evaluations_evaluated]; omega
  | kept _ _ _ _ => rw [evaluations_evaluated]; omega

theorem Completes.evaluated (h : slot.Completes conditional valid s s') (hc : slot.isClauseCompatible c) (hvalid : valid c)
    (hptr : s.cPtr = (c, pos) :: rest) : evaluations pos s.events < evaluations pos s'.events := by
  obtain ⟨-, es, hsettled, hev⟩ := h
  rw [hptr, groupOf_cons hc] at hsettled
  have := Settled.evaluations_pos hsettled hvalid
  rw [hev, evaluations_append]
  omega

theorem Sticks.evaluated (h : slot.Sticks conditional valid s s') (hvalid : valid c)
    (hptr : s.cPtr = (c, pos) :: rest) : evaluations pos s.events < evaluations pos s'.events := by
  obtain ⟨done, c', pos', post, es, filter, heq, -, -, hsettled, -, hev, -⟩ := h
  rw [hev, evaluations_append, evaluations_append]
  rw [hptr] at heq
  cases done with
  | nil =>
      obtain ⟨⟨rfl, rfl⟩, -⟩ := by simpa using heq
      rw [evaluations_evaluated]
      omega
  | cons x done =>
      obtain ⟨rfl, -⟩ := by simpa using heq
      have := Settled.evaluations_pos hsettled hvalid
      omega

theorem behind_append {done : List (Clause × Nat)} (h : ∀ x ∈ done, slot.isClauseCompatible x.1)
    (cs : List (Clause × Nat)) :
    slot.behind (done ++ cs) = slot.behind cs := by
  induction done with
  | nil => rfl
  | cons x done ih =>
      have hrest := ih fun y hy => h y (List.mem_cons_of_mem _ hy)
      rw [List.cons_append, behind_cons (h x (List.mem_cons_self ..)), hrest]

theorem groupOf_append {done : List (Clause × Nat)} (h : ∀ x ∈ done, slot.isClauseCompatible x.1)
    (cs : List (Clause × Nat)) :
    slot.groupOf (done ++ cs) = done ++ slot.groupOf cs := by
  induction done with
  | nil => rfl
  | cons x done ih =>
      have hrest := ih fun y hy => h y (List.mem_cons_of_mem _ hy)
      rw [List.cons_append, groupOf_cons (h x (List.mem_cons_self ..)), hrest]
      rfl

theorem groupOf_behind (slot : ClauseSlot) (cs : List (Clause × Nat)) : slot.groupOf (slot.behind cs) = [] := by
  induction cs with
  | nil => rfl
  | cons x cs ih =>
      by_cases hx : slot.isClauseCompatible x.1 = true
      · rw [behind_cons hx, ih]
      · rw [behind_incompatible hx, groupOf_incompatible hx]

theorem behind_behind (slot : ClauseSlot) (cs : List (Clause × Nat)) :
    slot.behind (slot.behind cs) = slot.behind cs := by
  have h := slot.groupOf_append_behind (slot.behind cs)
  rw [groupOf_behind] at h
  exact h

theorem Sticks.groupOf_ne (h : slot.Sticks conditional valid s s') : slot.groupOf s.cPtr ≠ [] := by
  obtain ⟨done, c, pos, post, es, filter, heq, hall, hc, -⟩ := h
  rw [heq, groupOf_append hall, groupOf_cons hc]
  simp

theorem Sticks.groupOf_ne' (h : slot.Sticks conditional valid s s') : slot.groupOf s'.cPtr ≠ [] := by
  obtain ⟨done, c, pos, post, es, filter, -, -, hc, -, -, -, hptr, -⟩ := h
  rw [hptr, groupOf_cons hc]
  simp

theorem Passes.behind_eq (h : slot.Passes s s') : slot.behind s'.cPtr = slot.behind s.cPtr := by
  obtain ⟨done, hdone, hall, -⟩ := h.cPtr_eq
  rw [hdone, behind_append hall]

theorem Passes.proper (h : slot.Passes s s') (hs : ∀ x ∈ s.cPtr, Proper x) : ∀ x ∈ s'.cPtr, Proper x := by
  obtain ⟨done, hdone, -⟩ := h.cPtr_eq
  intro x hx
  exact hs x (by rw [hdone]; exact List.mem_append_right _ hx)

structure Offered (slot : ClauseSlot) (conditional : Conditional κ) (valid : Clause → Prop) (chunks : List Chunk)
    (s s' : BulkState κ) : Prop where
  passes : slot.Passes s s'
  unchanged : chunks = [] → s' = s
  completes : ∀ chunk others, chunks = chunk :: others →
    slot.Takes chunk (admitted conditional s.filter (slot.groupOf s.cPtr)) → slot.Completes conditional valid s s'
  sticks : ∀ chunk, chunks = [chunk] → ¬slot.Takes chunk (admitted conditional s.filter (slot.groupOf s.cPtr)) →
    slot.Sticks conditional valid s s'
  repeats : ∀ chunk chunk' others, chunks = chunk :: chunk' :: others →
    ¬slot.Takes chunk (admitted conditional s.filter (slot.groupOf s.cPtr)) →
    ∃ x ∈ slot.groupOf s.cPtr, evaluations x.2 s.events + 2 ≤ evaluations x.2 s'.events
  evaluates : ∀ c pos rest, s.cPtr = (c, pos) :: rest → slot.isClauseCompatible c → chunks ≠ [] →
    evaluations pos s.events < evaluations pos s'.events

theorem Offered.nil (slot : ClauseSlot) (conditional : Conditional κ) (valid : Clause → Prop) (s : BulkState κ) :
    slot.Offered conditional valid [] s s :=
  ⟨.refl slot s, fun _ => rfl, fun _ _ h => (nomatch h), fun _ h => (nomatch h), fun _ _ _ h => (nomatch h),
    fun _ _ _ _ _ h => absurd rfl h⟩

/-- The clause that a chunk has refused is evaluated again for the next chunk. -/
theorem Sticks.repeats {s'' : BulkState κ} {chunks : List Chunk} (h : slot.Sticks conditional valid s s')
    (h' : slot.Offered conditional valid chunks s' s'') (hne : chunks ≠ []) :
    ∃ x ∈ slot.groupOf s.cPtr, evaluations x.2 s.events + 2 ≤ evaluations x.2 s''.events := by
  obtain ⟨done, c, pos, post, es, filter, heq, hall, hc, -, -, hev, hptr, -⟩ := h
  have hagain := h'.evaluates c pos post hptr hc hne
  rw [hev, evaluations_append, evaluations_append, evaluations_evaluated] at hagain
  refine ⟨(c, pos), ?_, by simp only; omega⟩
  rw [heq, groupOf_append hall, groupOf_cons hc]
  simp

theorem Completes.append {s'' : BulkState κ} {chunks : List Chunk} (h : slot.Completes conditional valid s s')
    (h' : slot.Offered conditional valid chunks s' s'') : slot.Completes conditional valid s s'' := by
  have hgroup : slot.groupOf s'.cPtr = [] := by rw [h.1, groupOf_behind]
  cases chunks with
  | nil => rw [h'.unchanged rfl]; exact h
  | cons chunk others =>
      by_cases htakes : slot.Takes chunk (admitted conditional s'.filter (slot.groupOf s'.cPtr))
      · obtain ⟨hptr', es', hsettled', hev'⟩ := h'.completes chunk others rfl htakes
        obtain ⟨hptr, es, hsettled, hev⟩ := h
        rw [hgroup] at hsettled'
        obtain ⟨rfl, hfilter⟩ := hsettled'.of_nil
        exact ⟨by rw [hptr', hptr, behind_behind], es, hfilter ▸ hsettled, by rw [hev', hev, List.append_nil]⟩
      · cases others with
        | nil => exact absurd hgroup (h'.sticks chunk rfl htakes).groupOf_ne
        | cons chunk' others =>
            obtain ⟨x, hx, -⟩ := h'.repeats chunk chunk' others rfl htakes
            rw [hgroup] at hx
            cases hx

/-- The clauses are offered to one more chunk in front, which sets the pointer behind them or sticks. -/
theorem Offered.cons {s'' : BulkState κ} {chunk : Chunk} {chunks : List Chunk}
    (hvalid : ∀ c, slot.isClauseCompatible c → valid c) (hpasses : slot.Passes s s')
    (hcase : (slot.Takes chunk (admitted conditional s.filter (slot.groupOf s.cPtr)) ∧ slot.Completes conditional valid s s') ∨
      (¬slot.Takes chunk (admitted conditional s.filter (slot.groupOf s.cPtr)) ∧ slot.Sticks conditional valid s s'))
    (h : slot.Offered conditional valid chunks s' s'') : slot.Offered conditional valid (chunk :: chunks) s s'' := by
  refine ⟨hpasses.trans h.passes, fun hnil => (nomatch hnil), ?_, ?_, ?_, ?_⟩
  · rintro _ _ ⟨⟩ htakes
    rcases hcase with ⟨-, hcompletes⟩ | ⟨hrefuses, -⟩
    · exact hcompletes.append h
    · exact absurd htakes hrefuses
  · rintro _ ⟨⟩ hrefuses
    rcases hcase with ⟨htakes, -⟩ | ⟨-, hsticks⟩
    · exact absurd htakes hrefuses
    · rw [h.unchanged rfl]
      exact hsticks
  · rintro _ chunk' others ⟨⟩ hrefuses
    rcases hcase with ⟨htakes, -⟩ | ⟨-, hsticks⟩
    · exact absurd htakes hrefuses
    · exact hsticks.repeats h (by simp)
  · intro c pos rest hptr hc _
    refine Nat.lt_of_lt_of_le ?_ (evaluations_le pos h.passes.starts)
    rcases hcase with ⟨-, hcompletes⟩ | ⟨-, hsticks⟩
    · exact hcompletes.evaluated hc (hvalid c hc) hptr
    · exact hsticks.evaluated (hvalid c hc) hptr

/-- The last chunk that the clauses are offered to, behind which there are clauses of other slots. -/
theorem Offered.last {chunk : Chunk} {chunks : List Chunk} (hvalid : ∀ c, slot.isClauseCompatible c → valid c)
    (hpasses : slot.Passes s s') (htakes : slot.Takes chunk (admitted conditional s.filter (slot.groupOf s.cPtr)))
    (hcompletes : slot.Completes conditional valid s s') : slot.Offered conditional valid (chunk :: chunks) s s' := by
  refine ⟨hpasses, fun hnil => (nomatch hnil), fun _ _ _ _ => hcompletes, ?_, ?_, ?_⟩
  · rintro _ ⟨⟩ hrefuses
    exact absurd htakes hrefuses
  · rintro _ _ _ ⟨⟩ hrefuses
    exact absurd htakes hrefuses
  · intro c pos rest hptr hc _
    exact hcompletes.evaluated hc (hvalid c hc) hptr

theorem visit_offered {cells : List Chunk} (hs : ∀ x ∈ s.cPtr, Proper x)
    (hvalid : ∀ c, slot.isClauseCompatible c → valid c) (hn : 0 < slot.entrySize)
    (hcells : ∀ c ∈ cells, c.Cell slot.entrySize) :
    ∃ finished cells' s', slot.visit (slot.bulkInserter conditional) cells s = .ok (finished, cells', s') ∧
      slot.Offered conditional valid (slot.opens cells) s s' ∧ (slot.opens cells = [] → cells' = cells) ∧
      (finished = true → s'.cPtr = slot.behind s.cPtr) ∧
      ∀ chunk others, slot.opens cells = chunk :: others →
        slot.Takes chunk (admitted conditional s.filter (slot.groupOf s.cPtr)) → slot.behind s.cPtr ≠ [] →
        finished = true := by
  induction cells generalizing s with
  | nil => exact ⟨false, [], s, rfl, .nil slot conditional valid s, fun _ => rfl, by simp, by simp [opens]⟩
  | cons chunk cells ih =>
      have hrest := fun c hc => hcells c (List.mem_cons_of_mem _ hc)
      by_cases hclosed : slot.isFull chunk = true ∨ chunk.state = .invalid
      · obtain ⟨finished, cells', s', hok, hoffered, hsame, hfin, htaken⟩ := @ih s hs hrest
        rw [visit, if_pos hclosed, opens_cons_closed hclosed, hok]
        exact ⟨finished, chunk :: cells', s', rfl, hoffered, fun h => by rw [hsame h], hfin, htaken⟩
      · have hlive : chunk.Live slot.entrySize := by
          rcases hcells chunk (List.mem_cons_self ..) with hlive | hdead
          · exact hlive
          · exact absurd (Or.inr hdead.state_eq) hclosed
        obtain ⟨finished, chunk', s₁, hins, -, hpasses, hcase⟩ :=
          @bulkInserter_spec κ slot conditional s valid chunk hs hvalid hn hlive
        rw [visit, if_neg hclosed, opens_cons_open hclosed, hins]
        cases finished with
        | true =>
            rcases hcase with ⟨htakes, hcompletes, -⟩ | ⟨-, -, hfin⟩
            · exact ⟨true, _, s₁, rfl, .last hvalid hpasses htakes hcompletes, by simp, fun _ => hcompletes.1,
                fun _ _ _ _ _ => rfl⟩
            · cases hfin
        | false =>
            obtain ⟨finished, cells', s', hok, hoffered, -, hfin, -⟩ := @ih s₁ (hpasses.proper hs) hrest
            simp only [hok]
            refine ⟨finished, _, s', rfl, .cons hvalid hpasses ?_ hoffered, by simp, ?_, ?_⟩
            · rcases hcase with ⟨htakes, hcompletes, -⟩ | ⟨hrefuses, hsticks, -⟩
              · exact Or.inl ⟨htakes, hcompletes⟩
              · exact Or.inr ⟨hrefuses, hsticks⟩
            · intro h
              rw [hfin h, hpasses.behind_eq]
            · rintro _ _ ⟨⟩ htakes hbehind
              rcases hcase with ⟨-, hcompletes, hend⟩ | ⟨hrefuses, -, -⟩
              · rw [hcompletes.1] at hend
                exact absurd (by simpa using hend) hbehind
              · exact absurd htakes hrefuses

theorem fillChunk_suffix (h : slot.fillChunk conditional cs b n s = .ok (finished, b', n', s')) :
    s'.cPtr <:+ cs := by
  induction cs generalizing b n s with
  | nil =>
      rw [fillChunk] at h
      obtain ⟨-, -, -, rfl⟩ := by simpa using h
      exact List.suffix_rfl
  | cons x cs ih =>
      obtain ⟨c, pos⟩ := x
      rw [fillChunk] at h
      split at h
      · cases h
      · split at h
        · obtain ⟨-, -, -, rfl⟩ := by simpa using h
          exact List.suffix_rfl
        · split at h
          · exact (ih h).trans (List.suffix_cons _ _)
          · split at h
            · cases h
            · obtain ⟨-, -, -, rfl⟩ := by simpa using h
              exact List.suffix_rfl
            · exact (ih h).trans (List.suffix_cons _ _)

theorem bulkInserter_suffix {chunk chunk' : Chunk}
    (h : slot.bulkInserter conditional chunk s = .ok (finished, chunk', s')) : s'.cPtr <:+ s.cPtr := by
  rw [bulkInserter] at h
  split at h
  · cases h
  · next b hb =>
      cases hfill : slot.fillChunk conditional s.cPtr b 0 s with
      | error e => rw [hfill] at h; cases h
      | ok r =>
          rw [hfill] at h
          obtain ⟨-, -, rfl⟩ := by simpa [bind, Except.bind, pure, Except.pure] using h
          have hsuffix : r.2.2.2.cPtr <:+ s.cPtr := fillChunk_suffix hfill
          exact hsuffix

theorem treatRest_admitted {result : SlotResult} (hfail : result = .totalFail) (hc : slot.isClauseCompatible c)
    (hs : s.isClauseAdmitted = true) :
    slot.treatRest conditional result ((c, pos) :: rest) s =
      slot.treatRest conditional result rest { s.discard pos with isClauseAdmitted := false } := by
  rw [treatRest, if_neg (not_not.mpr hc), hfail]
  simp [hs]

theorem treatRest_discarded {result : SlotResult} (hfail : result = .totalFail) (hc : slot.isClauseCompatible c)
    (hs : s.isClauseAdmitted = false) (hask : conditional s.filter c = (true, filter)) :
    slot.treatRest conditional result ((c, pos) :: rest) s =
      slot.treatRest conditional result rest
        { (s.asked pos true filter).discard pos with isClauseAdmitted := false } := by
  rw [treatRest, if_neg (not_not.mpr hc), hfail]
  simp [hs, BulkState.evaluate, hask, BulkState.asked]

theorem treatRest_filtered {result : SlotResult} (hfail : result = .totalFail) (hc : slot.isClauseCompatible c)
    (hs : s.isClauseAdmitted = false) (hask : conditional s.filter c = (false, filter)) :
    slot.treatRest conditional result ((c, pos) :: rest) s =
      slot.treatRest conditional result rest
        { (s.asked pos false filter).countFiltered with isClauseAdmitted := false } := by
  rw [treatRest, if_neg (not_not.mpr hc), hfail]
  simp [hs, BulkState.evaluate, hask, BulkState.asked]

theorem treatRest_spec {result : SlotResult} (hresult : slot.groupOf cs = [] ∨ result = .totalFail)
    (hvalid : ∀ c, slot.isClauseCompatible c → valid c) (hs : s.isClauseAdmitted = false) :
    ∃ s' es, slot.treatRest conditional result cs s = .ok s' ∧ s'.cPtr = slot.behind cs ∧
      Settled conditional valid s.filter (slot.groupOf cs) es s'.filter ∧ s'.events = s.events ++ es ∧
      s'.deferred = s.deferred ∧
      s'.stats.total = s.stats.total + (slot.groupOf cs).length := by
  induction cs generalizing s with
  | nil => exact ⟨_, [], rfl, rfl, .nil, (List.append_nil _).symm, rfl, rfl⟩
  | cons x cs ih =>
      obtain ⟨c, pos⟩ := x
      by_cases hc : slot.isClauseCompatible c = true
      · rw [groupOf_cons hc] at hresult
        have hfail : result = .totalFail := by simpa using hresult
        rw [groupOf_cons hc, behind_cons hc]
        cases hask : conditional s.filter c with
        | mk verdict filter =>
            cases verdict with
            | true =>
                obtain ⟨s', es, hok, hptr, hsettled, hev, hdef, htotal⟩ :=
                  @ih { (s.asked pos true filter).discard pos with isClauseAdmitted := false } (Or.inr hfail) rfl
                refine ⟨s', .evaluated pos true :: .discarded pos :: es, ?_, hptr,
                  .kept (hvalid c hc) hask (Or.inr rfl) hsettled, ?_, hdef, ?_⟩
                · rw [treatRest_discarded hfail hc hs hask, hok]
                · rw [hev]
                  simp [BulkState.discard, BulkState.asked]
                · rw [htotal]
                  simp only [BulkState.discard, BulkState.asked, SolvingStatistics.total, List.length_cons]
                  omega
            | false =>
                obtain ⟨s', es, hok, hptr, hsettled, hev, hdef, htotal⟩ :=
                  @ih { (s.asked pos false filter).countFiltered with isClauseAdmitted := false } (Or.inr hfail) rfl
                refine ⟨s', .evaluated pos false :: es, ?_, hptr, .filtered (hvalid c hc) hask hsettled, ?_, hdef, ?_⟩
                · rw [treatRest_filtered hfail hc hs hask, hok]
                · rw [hev]
                  simp [BulkState.countFiltered, BulkState.asked]
                · rw [htotal]
                  simp only [BulkState.countFiltered, BulkState.asked, SolvingStatistics.total, List.length_cons]
                  omega
      · rw [groupOf_incompatible hc, behind_incompatible hc, treatRest, if_pos hc]
        exact ⟨_, [], rfl, rfl, .nil, (List.append_nil _).symm, rfl, rfl⟩

theorem compatible_groupOf (slot : ClauseSlot) (cs : List (Clause × Nat)) :
    ∀ x ∈ slot.groupOf cs, slot.isClauseCompatible x.1 = true := by
  intro x hx
  rw [groupOf] at hx
  exact List.mem_takeWhile_imp (p := fun x : Clause × Nat => slot.isClauseCompatible x.1) hx

/-- Whatever has happened before, the pointer is set behind the clauses of the slot and all of them are
counted. -/
theorem treatRest_passes {result : SlotResult} (hresult : slot.groupOf s.cPtr = [] ∨ result = .totalFail) :
    ∃ s', slot.treatRest conditional result s.cPtr s = .ok s' ∧ s'.cPtr = slot.behind s.cPtr ∧ slot.Passes s s' := by
  have hgroup := slot.compatible_groupOf s.cPtr
  cases hs : s.isClauseAdmitted with
  | false =>
      obtain ⟨s', es, hok, hptr, -, hev, hdef, htotal⟩ :=
        @treatRest_spec κ slot conditional s.cPtr s (fun _ => True) result hresult (fun _ _ => trivial) hs
      exact ⟨s', hok, hptr, ⟨slot.groupOf s.cPtr, by rw [hptr, groupOf_append_behind], hgroup, htotal⟩, hdef, es,
        hev.symm⟩
  | true =>
      cases hcs : s.cPtr with
      | nil => exact ⟨_, rfl, rfl, ⟨[], by simp [hcs], by simp, rfl⟩, rfl, List.prefix_rfl⟩
      | cons x cs =>
          obtain ⟨c, pos⟩ := x
          by_cases hc : slot.isClauseCompatible c = true
          · rw [hcs, groupOf_cons hc] at hresult hgroup
            have hfail : result = .totalFail := by simpa using hresult
            obtain ⟨s', es, hok, hptr, -, hev, hdef, htotal⟩ :=
              @treatRest_spec κ slot conditional cs { s.discard pos with isClauseAdmitted := false } (fun _ => True)
                result (Or.inr hfail) (fun _ _ => trivial) rfl
            refine ⟨s', by rw [treatRest_admitted hfail hc hs, hok], by rw [behind_cons hc, hptr],
              ⟨(c, pos) :: slot.groupOf cs, ?_, hgroup, ?_⟩, hdef, ?_⟩
            · rw [hcs, hptr, List.cons_append, groupOf_append_behind]
            · rw [htotal]
              simp only [BulkState.discard, SolvingStatistics.total, List.length_cons]
              omega
            · rw [hev]
              simp only [BulkState.discard, List.append_assoc]
              exact List.prefix_append _ _
          · rw [behind_incompatible hc, treatRest, if_pos hc]
            exact ⟨_, rfl, rfl, ⟨[], by simp [hcs], by simp, rfl⟩, rfl, List.prefix_rfl⟩

theorem Completes.treatRest {result : SlotResult} (h : slot.Completes conditional valid s s') {s'' : BulkState κ}
    (hok : slot.treatRest conditional result s'.cPtr s' = .ok s'') : slot.Completes conditional valid s s'' := by
  obtain ⟨hptr, es, hsettled, hev⟩ := h
  have hgroup : slot.groupOf s'.cPtr = [] := by rw [hptr, groupOf_behind]
  have hsame : s''.cPtr = s'.cPtr ∧ s''.events = s'.events ∧ s''.filter = s'.filter := by
    cases hcs : s'.cPtr with
    | nil =>
        rw [hcs] at hok
        obtain rfl := Except.ok.inj hok
        exact ⟨rfl, rfl, rfl⟩
    | cons x cs =>
        obtain ⟨c, pos⟩ := x
        have hc : ¬slot.isClauseCompatible c = true := by
          intro hc
          rw [hcs, groupOf_cons hc] at hgroup
          cases hgroup
        rw [hcs, ClauseSlot.treatRest, if_pos hc] at hok
        obtain rfl := Except.ok.inj hok
        exact ⟨rfl, rfl, rfl⟩
  exact ⟨hsame.1.trans hptr, es, hsame.2.2 ▸ hsettled, hsame.2.1.trans hev⟩

theorem Sticks.treatRest {result : SlotResult} (h : slot.Sticks conditional valid s s') (hfail : result = .totalFail)
    (hvalid : ∀ c, slot.isClauseCompatible c → valid c) {s'' : BulkState κ}
    (hok : slot.treatRest conditional result s'.cPtr s' = .ok s'') : slot.Completes conditional valid s s'' := by
  obtain ⟨done, c, pos, post, es, filter, heq, hall, hc, hsettled, hask, hev, hptr, hadm⟩ := h
  obtain ⟨s₁, es', hok', hptr', hsettled', hev', -⟩ :=
    @treatRest_spec κ slot conditional post { s'.discard pos with isClauseAdmitted := false } valid result
      (Or.inr hfail) hvalid rfl
  rw [hptr, treatRest_admitted hfail hc hadm, hok'] at hok
  obtain rfl := Except.ok.inj hok
  refine ⟨by rw [hptr', heq, behind_append hall, behind_cons hc],
    es ++ .evaluated pos true :: .discarded pos :: es', ?_, ?_⟩
  · rw [heq, groupOf_append hall, groupOf_cons hc]
    exact hsettled.append (.kept (hvalid c hc) hask (Or.inr rfl) hsettled')
  · rw [hev']
    simp [BulkState.discard, hev]

theorem completes_treatRest {result : SlotResult} (hresult : slot.groupOf s.cPtr = [] ∨ result = .totalFail)
    (hvalid : ∀ c, slot.isClauseCompatible c → valid c) (hs : s.isClauseAdmitted = false)
    (hok : slot.treatRest conditional result s.cPtr s = .ok s') : slot.Completes conditional valid s s' := by
  obtain ⟨s₁, es, hok', hptr, hsettled, hev, -⟩ :=
    @treatRest_spec κ slot conditional s.cPtr s valid result hresult hvalid hs
  rw [hok'] at hok
  obtain rfl := Except.ok.inj hok
  exact ⟨hptr, es, hsettled, hev⟩

end ClauseSlot

theorem AdaptiveClauseDatabase.Sound.insert_bulkInserter {db : AdaptiveClauseDatabase} {i : Nat} (h : db.Sound)
    (hslot : db.slots[i]? = some slot) (hs : ∀ x ∈ s.cPtr, ClauseSlot.Proper x) :
    ∃ r, db.insert i slot (slot.bulkInserter conditional) s = .ok r ∧ r.db.Sound ∧
      Inserted db i slot (slot.bulkInserter conditional) s r := by
  have hn := ClauseSlot.entrySize_pos (h.slots i slot hslot).sound
  refine h.insert_guarded (P := fun s => ∀ x ∈ s.cPtr, ClauseSlot.Proper x) hslot
    (ClauseSlot.bulkInserter_keepsState slot conditional) ?_ ?_ hs
  · intro chunk s finished chunk' s' hs hok x hx
    exact hs x ((ClauseSlot.bulkInserter_suffix hok).subset hx)
  · intro chunk s hs hlive
    obtain ⟨finished, chunk', s', hok, hlive', -⟩ :=
      @ClauseSlot.bulkInserter_spec κ slot conditional s (fun _ => True) chunk hs (fun _ _ => trivial) hn hlive
    exact ⟨finished, chunk', s', hok, hlive'⟩

end Mallob.Sharing
