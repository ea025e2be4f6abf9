import Mallob.TransferLines

namespace Mallob.MessageQueue

open Runs

theorem SendHandle.sendNext_kept {h handle : SendHandle} {data : List UInt8} {id sentBatch totalNumBatches : Int}
    (hnext : h.sendNext = some (.fragment data id sentBatch totalNumBatches, handle)) :
    id = h.id ∧ handle.data = h.data := by
  rw [SendHandle.sendNext] at hnext
  split_ifs at hnext
  · cases hnext
  · obtain ⟨hmessage, rfl⟩ := Prod.mk.inj (Option.some.inj hnext)
    exact ⟨(Message.fragment.inj hmessage).2.1.symm, rfl⟩
  · obtain ⟨hmessage, rfl⟩ := Prod.mk.inj (Option.some.inj hnext)
    exact ⟨(Message.fragment.inj hmessage).2.1.symm, rfl⟩

namespace Transfers

def transfer (s : Transfers) (key : Nat × Int) : Transfer where
  sending := s.sendQueue key
  sent := s.sent.filter fun p => p.key = key
  flying := s.network.filter fun p => p.key = key
  entry := s.fragmentedMessages key
  queued := s.fragmentedQueue.filter fun f => f.key = key
  output := (s.delivered ++ s.fusedQueue).filter fun m => m.key = key

structure Sound (early : Nat × Int → Prop) (s : Transfers) : Prop where
  positive : 0 < s.maxMsgSize
  ids : ∀ source, 0 < s.runningSendId source
  fresh : ∀ source id, s.runningSendId source ≤ id → s.sendQueue (source, id) = none
  tracked : ∀ key, Transfer.Tracked s.maxMsgSize key (early key) (s.transfer key)

variable {s s' : Transfers} {early : Nat × Int → Prop} {key key' : Nat × Int} {source dest tag n : Nat} {id : Int}
  {data : List UInt8} {p : Packet} {a : Action}

section Frame

theorem transfer_sendQueue (s : Transfers) (key : Nat × Int) (t : Sending) :
    { s with sendQueue := Function.update s.sendQueue key (some t) }.transfer key =
      { s.transfer key with sending := some t } := by
  simp only [transfer, Function.update_self]

theorem transfer_sendQueue_of_ne (s : Transfers) (t : Sending) (hne : key' ≠ key) :
    { s with sendQueue := Function.update s.sendQueue key (some t) }.transfer key' = s.transfer key' := by
  simp only [transfer, Function.update_of_ne hne]

theorem transfer_isend (s : Transfers) (hkey : p.key = key) : (s.isend p).transfer key =
    { s.transfer key with sent := (s.transfer key).sent ++ [p], flying := (s.transfer key).flying ++ [p] } := by
  simp [transfer, isend, hkey]

theorem transfer_isend_of_ne (s : Transfers) (hne : key ≠ p.key) : (s.isend p).transfer key = s.transfer key := by
  simp [transfer, isend, hne.symm]

theorem transfer_eraseIdx (hp : s.network[n]? = some p)
    (hfirst : ∀ q ∈ s.network.take n, q.key = p.key → False) : ∃ rest, (s.transfer p.key).flying = p :: rest ∧
      { s with network := s.network.eraseIdx n }.transfer p.key = { s.transfer p.key with flying := rest } := by
  obtain ⟨hn, hget⟩ := List.getElem?_eq_some_iff.mp hp
  have hsplit : s.network = s.network.take n ++ p :: s.network.drop (n + 1) := by
    rw [← hget, List.getElem_cons_drop, List.take_append_drop]
  have hnone : (s.network.take n).filter (fun q => q.key = p.key) = [] := by
    rw [List.filter_eq_nil_iff]
    intro q hq hkey
    exact hfirst q hq (of_decide_eq_true hkey)
  refine ⟨(s.network.drop (n + 1)).filter fun q => q.key = p.key, ?_, ?_⟩
  · rw [transfer]
    conv_lhs => rw [hsplit]
    rw [List.filter_append, hnone]
    simp
  · simp only [transfer, List.eraseIdx_eq_take_drop_succ, List.filter_append, hnone, List.nil_append]

theorem transfer_eraseIdx_of_ne (hp : s.network[n]? = some p) (hne : key ≠ p.key) :
    { s with network := s.network.eraseIdx n }.transfer key = s.transfer key := by
  obtain ⟨hn, hget⟩ := List.getElem?_eq_some_iff.mp hp
  have hsplit : s.network = s.network.take n ++ p :: s.network.drop (n + 1) := by
    rw [← hget, List.getElem_cons_drop, List.take_append_drop]
  have hfilter : (s.network.eraseIdx n).filter (fun q => q.key = key) = s.network.filter fun q => q.key = key := by
    conv_rhs => rw [hsplit]
    rw [List.eraseIdx_eq_take_drop_succ, List.filter_append, List.filter_append, List.filter_cons_of_neg]
    simpa using hne.symm
  simp only [transfer, hfilter]

def store (s : Transfers) (f : FragmentedMessage) : Transfers := { s with
  fragmentedQueue := s.fragmentedQueue ++ if f.isDone then [f] else []
  fragmentedMessages := Function.update s.fragmentedMessages f.key (if f.isDone then none else some f) }

theorem processReceived_eq_store {f : FragmentedMessage} (htag : p.tag ≥ msgOffsetBatched)
    (hf : p.received (s.fragmentedMessages p.key) = some f) (hkey : f.key = p.key) :
    s.processReceived p = .ok (s.store f) := by
  rw [Packet.received] at hf
  simp only [processReceived, if_pos htag, hf, store, hkey]
  cases hdone : f.isDone with
  | true =>
      have hor : (f.fragment.cancelled || f.fragment.isFinished) = true := hdone
      rw [if_pos hor]
      rfl
  | false =>
      have hor : ¬(f.fragment.cancelled || f.fragment.isFinished) = true := ne_true_of_eq_false hdone
      rw [if_neg hor]
      simp

theorem transfer_store (s : Transfers) (f : FragmentedMessage) : (s.store f).transfer f.key =
    { s.transfer f.key with
      entry := if f.isDone then none else some f
      queued := (s.transfer f.key).queued ++ if f.isDone then [f] else [] } := by
  have hqueued : (if f.isDone then [f] else []).filter (fun f' => f'.key = f.key) = if f.isDone then [f] else [] := by
    split
    · exact List.filter_cons_of_pos (decide_eq_true rfl)
    · rfl
  simp only [transfer, store, Function.update_self, List.filter_append, hqueued]

theorem transfer_store_of_ne {f : FragmentedMessage} (s : Transfers) (hne : key ≠ f.key) :
    (s.store f).transfer key = s.transfer key := by
  have hqueued : (if f.isDone then [f] else []).filter (fun f' => f'.key = key) = [] := by
    split
    · exact List.filter_cons_of_neg (by simpa using hne.symm)
    · rfl
  simp only [transfer, store, Function.update_of_ne hne, List.filter_append, hqueued, List.append_nil]

end Frame

structure Advances (s : Transfers) (a : Action) (s' : Transfers) : Prop where
  maxMsgSize : s'.maxMsgSize = s.maxMsgSize
  rank : s'.rank = s.rank
  ids : ∀ source, s.runningSendId source ≤ s'.runningSendId source
  origin : ∀ source id t', s'.sendQueue (source, id) = some t' →
    (∃ t, s.sendQueue (source, id) = some t ∧ t.tag = t'.tag ∧ t.handle.data = t'.handle.data) ∨
    a = .send source s.rank t'.tag t'.handle.data ∧ s.runningSendId source = id ∧ id < s'.runningSendId source
  transfers : ∀ key, s'.transfer key = s.transfer key ∨
    Transfer.Moves s.maxMsgSize key (s.transfer key) (s'.transfer key)

theorem Advances.refl (s : Transfers) (a : Action) : Advances s a s :=
  ⟨rfl, rfl, fun _ => le_rfl, fun _ _ t h => Or.inl ⟨t, h, rfl, rfl⟩, fun _ => Or.inl rfl⟩

theorem Sound.advances (hs : s.Sound early) (h : Advances s a s') : s'.Sound early := by
  refine ⟨?_, fun source => (hs.ids source).trans_le (h.ids source), ?_, fun key => ?_⟩
  · rw [h.maxMsgSize]
    exact hs.positive
  · intro source id hle
    by_contra hne
    obtain ⟨t', ht'⟩ := Option.ne_none_iff_exists'.mp hne
    rcases h.origin source id t' ht' with ⟨t, ht, -⟩ | ⟨-, -, hlt⟩
    · rw [hs.fresh source id ((h.ids source).trans hle)] at ht
      cases ht
    · omega
  · rw [h.maxMsgSize]
    rcases h.transfers key with hsame | hmoves
    · rw [hsame]
      exact hs.tracked key
    · exact (hs.tracked key).moves hs.positive hmoves

theorem origin_update {t t₁ t' : Sending} (ht : s.sendQueue key = some t)
    (ht' : Function.update s.sendQueue key (some t₁) key' = some t') (htag : t.tag = t₁.tag)
    (hdata : t.handle.data = t₁.handle.data) :
    ∃ t, s.sendQueue key' = some t ∧ t.tag = t'.tag ∧ t.handle.data = t'.handle.data := by
  by_cases hkey : key' = key
  · rw [hkey, Function.update_self] at ht'
    obtain rfl := Option.some.inj ht'
    exact ⟨t, by rw [hkey]; exact ht, htag, hdata⟩
  · rw [Function.update_of_ne hkey] at ht'
    exact ⟨t', ht', rfl, rfl⟩

section Steps

theorem Sound.send (hs : s.Sound early) (hok : s.send source dest tag data = .ok s') :
    Advances s (.send source dest tag data) s' := by
  have hids : ∀ source', s.runningSendId source' ≤
      Function.update s.runningSendId source (s.runningSendId source + 1) source' := by
    intro source'
    rw [Function.update_apply]
    split
    · next heq =>
        rw [heq]
        exact Int.le_add_one le_rfl
    · exact le_rfl
  simp only [Transfers.send] at hok
  split_ifs at hok with hoverflow hnew
  · obtain rfl := Except.ok.inj hok
    obtain ⟨rfl, -, hbatched⟩ := hnew
    refine ⟨rfl, rfl, hids, ?_, fun key => ?_⟩
    · intro source' id t' ht'
      simp only at ht' ⊢
      by_cases hkey : (source', id) = (source, s.runningSendId source)
      · obtain ⟨rfl, rfl⟩ := Prod.mk.inj hkey
        rw [Function.update_self] at ht' ⊢
        obtain rfl := Option.some.inj ht'
        exact Or.inr ⟨rfl, rfl, Int.lt_succ _⟩
      · rw [Function.update_of_ne hkey] at ht'
        exact Or.inl ⟨t', ht', rfl, rfl⟩
    · by_cases hkey : key = (source, s.runningSendId source)
      · have hpos := hs.ids source
        have hmoves : Transfer.Moves s.maxMsgSize key (s.transfer key) _ :=
          .send tag data (by rw [hkey]; exact hs.fresh source _ le_rfl) (by rw [hkey]; simp only; omega)
            (by rw [hkey]; simpa [SendHandle.isBatched] using hbatched)
        subst hkey
        exact Or.inr ((transfer_sendQueue s _ _).symm ▸ hmoves)
      · exact Or.inl (transfer_sendQueue_of_ne s _ hkey)
  · obtain rfl := Except.ok.inj hok
    exact ⟨rfl, rfl, hids, fun _ _ t h => Or.inl ⟨t, h, rfl, rfl⟩, fun _ => Or.inl rfl⟩

theorem Sound.sendNext (hs : s.Sound early) (hok : s.sendNext source id = .ok s') :
    Advances s (.sendNext source id) s' := by
  rw [Transfers.sendNext] at hok
  split at hok
  · obtain rfl := Except.ok.inj hok
    exact .refl s _
  · next t ht =>
      split_ifs at hok with hfinished
      · obtain rfl := Except.ok.inj hok
        exact .refl s _
      · split at hok
        · next data id' sentBatch totalNumBatches handle hnext =>
            obtain rfl := Except.ok.inj hok
            obtain ⟨hid, hdata⟩ := SendHandle.sendNext_kept hnext
            obtain rfl : id' = id := hid.trans ((hs.tracked (source, id)).handle_id ht)
            refine ⟨rfl, rfl, fun _ => le_rfl, ?_, fun key => ?_⟩
            · intro source' id t' ht'
              exact Or.inl (origin_update ht ht' rfl hdata.symm)
            · by_cases hkey : key = (source, id')
              · subst hkey
                have hmoves : Transfer.Moves s.maxMsgSize (source, id') (s.transfer (source, id')) _ :=
                  .sendNext t data id' sentBatch totalNumBatches handle ht (Bool.eq_false_of_not_eq_true hfinished)
                    hnext
                have hkey : (⟨source, t.tag + msgOffsetBatched, data, id', sentBatch, totalNumBatches⟩ : Packet).key =
                  (source, id') := rfl
                refine Or.inr ?_
                rw [transfer_isend _ hkey, transfer_sendQueue]
                exact hmoves
              · refine Or.inl ?_
                rw [transfer_isend_of_ne _ hkey, transfer_sendQueue_of_ne s _ hkey]
        · cases hok

theorem advances_cancelSend (s : Transfers) (source : Nat) (id : Int) :
    Advances s (.cancelSend source id) (s.cancelSend source id) := by
  rw [cancelSend]
  split
  · exact .refl s _
  · next t ht =>
      refine ⟨rfl, rfl, fun _ => le_rfl, ?_, fun key => ?_⟩
      · intro source' id' t' ht'
        exact Or.inl (origin_update ht ht' rfl rfl)
      · by_cases hkey : key = (source, id)
        · subst hkey
          refine Or.inr ?_
          rw [transfer_sendQueue]
          exact .cancelSend t ht
        · exact Or.inl (transfer_sendQueue_of_ne s _ hkey)

theorem Sound.flying (hs : s.Sound early) (hp : s.network[n]? = some p)
    (hfirst : ¬((s.network.take n).any fun q => q.source = p.source ∧ q.tag = p.tag) = true) :
    ∃ rest, (s.transfer p.key).flying = p :: rest ∧
      { s with network := s.network.eraseIdx n }.transfer p.key = { s.transfer p.key with flying := rest } := by
  refine transfer_eraseIdx hp fun q hq hkey => hfirst ?_
  obtain ⟨tag, htag⟩ := (hs.tracked p.key).tag
  have hflying : ∀ q ∈ s.network, q.key = p.key → q.tag = tag + msgOffsetBatched := fun q hq hkey =>
    htag q (List.mem_filter.mpr ⟨hq, decide_eq_true hkey⟩)
  have hqtag := hflying q (List.mem_of_mem_take hq) hkey
  have hptag := hflying p (List.mem_of_getElem? hp) rfl
  rw [List.any_eq_true]
  exact ⟨q, hq, decide_eq_true ⟨(Prod.mk.inj hkey).1, hqtag.trans hptag.symm⟩⟩

theorem Sound.receive (hs : s.Sound early) (n : Nat) : ∃ s', s.receive n = .ok s' ∧ Advances s (.receive n) s' := by
  rw [Transfers.receive]
  split
  · exact ⟨s, rfl, .refl s _⟩
  · next p hp =>
      split_ifs with hfirst
      · exact ⟨s, rfl, .refl s _⟩
      · obtain ⟨rest, hflying, hview⟩ := hs.flying hp hfirst
        obtain ⟨f, hf, hkey, -⟩ := (hs.tracked p.key).receive hflying
        have htag : p.tag ≥ msgOffsetBatched := by
          obtain ⟨tag, htag⟩ := (hs.tracked p.key).tag
          have hp' := htag p (by rw [hflying]; exact List.mem_cons_self)
          omega
        refine ⟨_, processReceived_eq_store htag hf hkey, rfl, rfl, fun _ => le_rfl,
          fun _ _ t h => Or.inl ⟨t, h, rfl, rfl⟩, fun key => ?_⟩
        by_cases hne : key = p.key
        · rw [hne, ← hkey, transfer_store, hkey, hview]
          exact Or.inr (.receive p rest f hflying hf)
        · refine Or.inl ?_
          rw [transfer_store_of_ne _ (by rwa [hkey]), transfer_eraseIdx_of_ne hp hne]

theorem filter_assembled (f : FragmentedMessage) (key : Nat × Int) (messages : List (List UInt8)) :
    (messages.map fun data => (⟨f.source, f.tag, f.fragment.id, data⟩ : MessageHandle)).filter (fun m => m.key = key) =
      if f.key = key then messages.map fun data => ⟨f.source, f.tag, f.fragment.id, data⟩ else [] := by
  split
  · next h =>
      refine List.filter_eq_self.mpr fun m hm => ?_
      obtain ⟨data, -, rfl⟩ := List.mem_map.mp hm
      exact decide_eq_true h
  · next h =>
      refine List.filter_eq_nil_iff.mpr fun m hm => ?_
      obtain ⟨data, -, rfl⟩ := List.mem_map.mp hm
      exact fun heq => h (of_decide_eq_true heq)

theorem Sound.assemble (hs : s.Sound early) :
    ∃ s', s.runFragmentedMessageAssembler = .ok s' ∧ Advances s .assemble s' := by
  rw [runFragmentedMessageAssembler]
  split
  · exact ⟨s, rfl, .refl s _⟩
  · next f rest hqueue =>
      have hqueued : (s.transfer f.key).queued = f :: rest.filter fun f' => f'.key = f.key := by
        rw [transfer]
        simp only [hqueue]
        exact List.filter_cons_of_pos (decide_eq_true rfl)
      obtain ⟨messages, hmessages, -⟩ := (hs.tracked f.key).assemble hqueued
      simp only [hmessages]
      refine ⟨_, rfl, rfl, rfl, fun _ => le_rfl, fun _ _ t h => Or.inl ⟨t, h, rfl, rfl⟩, fun key => ?_⟩
      by_cases hkey : key = f.key
      · subst hkey
        have hmoves : Transfer.Moves s.maxMsgSize f.key (s.transfer f.key) _ :=
          .assemble f _ messages hqueued hmessages
        refine Or.inr ?_
        simp only [transfer, ← List.append_assoc, List.filter_append, filter_assembled, if_true] at hmoves ⊢
        exact hmoves
      · have hother : (f :: rest).filter (fun f' => f'.key = key) = rest.filter fun f' => f'.key = key :=
          List.filter_cons_of_neg (by simpa using Ne.symm hkey)
        refine Or.inl ?_
        simp only [transfer, ← List.append_assoc, List.filter_append, filter_assembled, if_neg (Ne.symm hkey),
          List.append_nil, hqueue, hother]

theorem advances_processAssembledReceived (s : Transfers) : Advances s .callback s.processAssembledReceived := by
  rw [processAssembledReceived]
  split
  · exact .refl s _
  · next m rest hqueue =>
      refine ⟨rfl, rfl, fun _ => le_rfl, fun _ _ t h => Or.inl ⟨t, h, rfl, rfl⟩, fun key => Or.inl ?_⟩
      simp only [transfer, hqueue, List.append_assoc, List.singleton_append]

theorem Sound.step (hs : s.Sound early) (hok : s.step a = .ok s') : Advances s a s' := by
  cases a with
  | send source dest tag data => exact hs.send hok
  | sendNext source id => exact hs.sendNext hok
  | cancelSend source id =>
      obtain rfl := Except.ok.inj hok
      exact advances_cancelSend s source id
  | receive n =>
      obtain ⟨s₁, hreceive, hadvances⟩ := hs.receive n
      obtain rfl := Except.ok.inj (hreceive.symm.trans hok)
      exact hadvances
  | assemble =>
      obtain ⟨s₁, hassemble, hadvances⟩ := hs.assemble
      obtain rfl := Except.ok.inj (hassemble.symm.trans hok)
      exact hadvances
  | callback =>
      obtain rfl := Except.ok.inj hok
      exact advances_processAssembledReceived s

theorem Sound.step_error (hs : s.Sound early) {e : TransferFault} (herror : s.step a = .error e) :
    e = .overflow ∨ e = .sendNext := by
  cases a with
  | send source dest tag data =>
      simp only [Transfers.step, Transfers.send] at herror
      split_ifs at herror
      exact Or.inl (Except.error.inj herror).symm
  | sendNext source id =>
      simp only [Transfers.step, Transfers.sendNext] at herror
      split at herror
      · cases herror
      · split_ifs at herror
        split at herror
        · cases herror
        · exact Or.inr (Except.error.inj herror).symm
  | cancelSend source id => cases herror
  | receive n =>
      obtain ⟨s₁, hreceive, -⟩ := hs.receive n
      cases hreceive.symm.trans herror
  | assemble =>
      obtain ⟨s₁, hassemble, -⟩ := hs.assemble
      cases hassemble.symm.trans herror
  | callback => cases herror

end Steps

section Run

variable {maxMsgSize : Int} {rank : Nat} {actions : List Action}

theorem sound_start (hmax : 0 < maxMsgSize) (rank : Nat) : (start maxMsgSize rank).Sound fun _ => False :=
  ⟨hmax, fun _ => Int.one_pos, fun _ _ _ => rfl, fun _ => .unsent not_false⟩

theorem Sound.run (hs : s.Sound early) (hrun : Runs.run Transfers.step s actions = .ok s') :
    s'.Sound early ∧ s'.maxMsgSize = s.maxMsgSize ∧ s'.rank = s.rank := by
  refine run_invariant (P := fun s' => s'.Sound early ∧ s'.maxMsgSize = s.maxMsgSize ∧ s'.rank = s.rank)
    ⟨hs, rfl, rfl⟩ ?_ hrun
  rintro s₁ a s₂ ⟨hs₁, hmax, hrank⟩ hok
  have hadvances := hs₁.step hok
  exact ⟨hs₁.advances hadvances, hadvances.maxMsgSize.trans hmax, hadvances.rank.trans hrank⟩

def SentBy (maxMsgSize : Int) (rank : Nat) (actions : List Action) (source : Nat) (id : Int) (tag : Nat)
    (data : List UInt8) : Prop :=
  ∃ as bs s, actions = as ++ .send source rank tag data :: bs ∧ run step (start maxMsgSize rank) as = .ok s ∧
    s.runningSendId source = id

/-- A call of cancelSend meets a message whose last batch has not been sent. -/
def CancelledEarly (maxMsgSize : Int) (rank : Nat) (actions : List Action) (key : Nat × Int) : Prop :=
  ∃ as bs s t, actions = as ++ .cancelSend key.1 key.2 :: bs ∧ run step (start maxMsgSize rank) as = .ok s ∧
    s.sendQueue key = some t ∧ t.handle.isFinished = false

structure Whole (s : Transfers) (m : MessageHandle) (data : List UInt8) : Prop where
  batched : 1 < (SendHandle.create m.id data s.maxMsgSize).totalNumBatches
  all_sent : s.sent.filter (fun p => p.key = m.key) =
    (List.range (SendHandle.create m.id data s.maxMsgSize).totalNumBatches.toNat).map
      (batchPacket m.source m.tag (SendHandle.create m.id data s.maxMsgSize))
  not_cancelled : ∀ p ∈ s.sent, p.key = m.key → p.isCancellation = false
  data_eq : m.data = ((s.sent.filter fun p => p.key = m.key).map Packet.data).flatten

theorem sentBy_of_run (hmax : 0 < maxMsgSize) (hrun : run step (start maxMsgSize rank) actions = .ok s)
    {t : Sending} (ht : s.sendQueue (source, id) = some t) :
    SentBy maxMsgSize rank actions source id t.tag t.handle.data := by
  induction actions using List.reverseRecOn generalizing s t with
  | nil =>
      obtain rfl := Except.ok.inj hrun
      cases ht
  | append_singleton as a ih =>
      obtain ⟨s₁, hfirst, hlast⟩ := run_concat hrun
      obtain ⟨hs₁, -, hrank⟩ := (sound_start hmax rank).run hfirst
      rcases (hs₁.step hlast).origin source id t ht with ⟨t₁, ht₁, htag, hdata⟩ | ⟨rfl, hid, -⟩
      · obtain ⟨as', bs, s₀, rfl, hrun', hid⟩ := ih hfirst ht₁
        rw [htag, hdata]
        exact ⟨as', bs ++ [a], s₀, by simp, hrun', hid⟩
      · rw [hrank]
        exact ⟨as, [], s₁, rfl, hfirst, hid⟩

theorem Sound.nodup (hs : s.Sound early) : ((s.delivered ++ s.fusedQueue).map MessageHandle.key).Nodup := by
  rw [List.nodup_iff_count_le_one]
  intro key
  have houtput : ((s.delivered ++ s.fusedQueue).map MessageHandle.key).count key = (s.transfer key).output.length := by
    rw [List.count_eq_countP, List.countP_map, List.countP_eq_length_filter]
    exact congrArg List.length (List.filter_congr fun m _ => beq_eq_decide m.key key)
  rw [houtput]
  rcases (hs.tracked key).output with hnil | ⟨t, h, -, -, -, -, -, hone⟩
  · rw [hnil]
    exact Nat.zero_le 1
  · rw [hone]
    exact le_rfl

theorem Sound.whole (hs : s.Sound early) {m : MessageHandle} (hm : m ∈ s.delivered ++ s.fusedQueue) :
    ∃ t, s.sendQueue m.key = some t ∧ ¬early m.key ∧ t.tag = m.tag ∧ s.Whole m t.handle.data := by
  have hmem : m ∈ (s.transfer m.key).output := List.mem_filter.mpr ⟨hm, decide_eq_true rfl⟩
  rcases (hs.tracked m.key).output with hnil | ⟨t, h, ht, hearly, hcreate, hbatched, hsent, hone⟩
  · rw [hnil] at hmem
    cases hmem
  · rw [hone, List.mem_singleton] at hmem
    have htag : m.tag = t.tag := congrArg MessageHandle.tag hmem
    have hdata : m.data = ((List.range h.totalNumBatches.toNat).map h.batch).flatten := congrArg MessageHandle.data hmem
    have hsent' : s.sent.filter (fun p => p.key = m.key) =
        (List.range h.totalNumBatches.toNat).map (batchPacket m.source m.tag h) := by
      rw [htag]
      exact hsent
    refine ⟨t, ht, hearly, htag.symm, ?_⟩
    have hcreate' : SendHandle.create m.id t.handle.data s.maxMsgSize = h := hcreate.symm
    refine ⟨by rwa [hcreate'], by rw [hcreate']; exact hsent', fun p hp hkey => ?_, ?_⟩
    · have hp' : p ∈ s.sent.filter fun p => p.key = m.key := List.mem_filter.mpr ⟨hp, decide_eq_true hkey⟩
      rw [hsent', List.mem_map] at hp'
      obtain ⟨i, -, rfl⟩ := hp'
      have hne : h.totalNumBatches ≠ 0 := by omega
      simp [Packet.isCancellation, batchPacket, hne]
    · rw [hdata, hsent', List.map_map]
      rfl

theorem sound_of_cancelledEarly (hmax : 0 < maxMsgSize) (hcancelled : CancelledEarly maxMsgSize rank actions key)
    (hrun : Runs.run Transfers.step (start maxMsgSize rank) actions = .ok s) :
    s.Sound (fun key' => key' = key) := by
  obtain ⟨as, bs, s₁, t, rfl, hfirst, ht, hopen⟩ := hcancelled
  obtain ⟨hs₁, -, -⟩ := (sound_start hmax rank).run hfirst
  rw [run_append, hfirst] at hrun
  refine (Sound.run (s := s₁.cancelSend key.1 key.2) ?_ hrun).1
  have hkept := hs₁.advances (advances_cancelSend s₁ key.1 key.2)
  have hcancel : s₁.cancelSend key.1 key.2 =
      { s₁ with sendQueue := Function.update s₁.sendQueue key (some { t with handle := t.handle.cancel }) } := by
    rw [cancelSend, ht]
  refine ⟨hkept.positive, hkept.ids, hkept.fresh, fun key' => ?_⟩
  by_cases hkey : key' = key
  · rw [hkey, eq_self, hcancel, transfer_sendQueue]
    exact (hs₁.tracked key).cancelSend ht hopen
  · have htracked := hkept.tracked key'
    rw [← eq_false hkey] at htracked
    exact htracked

theorem processReceived_kept (hok : s.processReceived p = .ok s') :
    s'.network = s.network ∧ s'.sendQueue = s.sendQueue := by
  simp only [processReceived] at hok
  split_ifs at hok
  · split at hok
    · cases hok
    · split at hok
      · obtain rfl := Except.ok.inj hok
        exact ⟨rfl, rfl⟩
      · obtain rfl := Except.ok.inj hok
        exact ⟨rfl, rfl⟩
  · obtain rfl := Except.ok.inj hok
    exact ⟨rfl, rfl⟩

theorem Sound.receive_first (hs : s.Sound early) :
    ∃ s', s.receive 0 = .ok s' ∧ s'.network = s.network.tail ∧ s'.sendQueue = s.sendQueue := by
  obtain ⟨s', hok, -⟩ := hs.receive 0
  refine ⟨s', hok, ?_⟩
  rw [Transfers.receive] at hok
  cases hnetwork : s.network with
  | nil =>
      rw [hnetwork] at hok
      obtain rfl := Except.ok.inj hok
      exact ⟨hnetwork, rfl⟩
  | cons p rest =>
      rw [hnetwork] at hok
      exact processReceived_kept hok

theorem Sound.drain (hs : s.Sound early) :
    ∃ s', Runs.run Transfers.step s (List.replicate s.network.length (.receive 0)) = .ok s' ∧
      s'.network = [] ∧ s'.sendQueue = s.sendQueue := by
  generalize hn : s.network.length = n
  induction n generalizing s with
  | zero => exact ⟨s, rfl, List.eq_nil_of_length_eq_zero hn, rfl⟩
  | succ n ih =>
      obtain ⟨s₁, hreceive, hnetwork, hqueue⟩ := hs.receive_first
      have hstep : s.step (.receive 0) = .ok s₁ := hreceive
      obtain ⟨s', hrun, hempty, hqueue'⟩ := ih (hs.advances (hs.step hstep))
        (by rw [hnetwork, List.length_tail, hn, Nat.add_sub_cancel])
      refine ⟨s', ?_, hempty, hqueue'.trans hqueue⟩
      rw [List.replicate_succ, Runs.run, List.foldlM_cons, hstep]
      exact hrun

/-- The next packet of a message that was cancelled early is its last one. -/
theorem Sound.finish (hs : s.Sound early) (hearly : early (source, id)) : ∃ s', s.sendNext source id = .ok s' ∧
    ∀ t, s'.sendQueue (source, id) = some t → t.handle.isFinished = true := by
  obtain ⟨t, ht, hbatched, hcancelled⟩ := (hs.tracked (source, id)).cancelled hearly
  have ht' : s.sendQueue (source, id) = some t := ht
  rw [Transfers.sendNext]
  simp only [ht']
  by_cases hfinished : t.handle.isFinished = true
  · rw [if_pos hfinished]
    refine ⟨s, rfl, fun t₁ ht₁ => ?_⟩
    obtain rfl := Option.some.inj (ht'.symm.trans ht₁)
    exact hfinished
  · rw [if_neg hfinished, SendHandle.sendNext_cancelled (Bool.eq_false_of_not_eq_true hfinished) hbatched hcancelled]
    refine ⟨_, rfl, fun t₁ ht₁ => ?_⟩
    simp only [isend, Function.update_self] at ht₁
    obtain rfl := Option.some.inj ht₁
    exact decide_eq_true rfl

theorem Sound.entry_eq_none (hs : s.Sound early) (hflying : ∀ p ∈ s.network, p.key ≠ key)
    (hfinished : ∀ t, s.sendQueue key = some t → t.handle.isFinished = true) : s.fragmentedMessages key = none := by
  refine (hs.tracked key).entry_eq_none ?_ hfinished
  refine List.filter_eq_nil_iff.mpr fun p hp hkey => ?_
  exact hflying p hp (of_decide_eq_true hkey)

/-- Once its sender goes on and its packets have arrived, nothing is left of a message that was cancelled early. -/
theorem Sound.removed (hs : s.Sound early) (hearly : early (source, id)) :
    ∃ bs s', Runs.run Transfers.step s bs = .ok s' ∧ s'.fragmentedMessages (source, id) = none := by
  obtain ⟨s₁, hsend, hfinished⟩ := hs.finish hearly
  have hstep : s.step (.sendNext source id) = .ok s₁ := hsend
  have hs₁ := hs.advances (hs.step hstep)
  obtain ⟨s₂, hdrain, hempty, hqueue⟩ := hs₁.drain
  refine ⟨.sendNext source id :: List.replicate s₁.network.length (.receive 0), s₂, ?_, ?_⟩
  · rw [Runs.run, List.foldlM_cons, hstep]
    exact hdrain
  · refine (hs₁.run hdrain).1.entry_eq_none ?_ ?_
    · intro p hp
      rw [hempty] at hp
      cases hp
    · rw [hqueue]
      exact hfinished

theorem run_error (hmax : 0 < maxMsgSize) {e : TransferFault}
    (herror : Runs.run Transfers.step (start maxMsgSize rank) actions = .error e) : e = .overflow ∨ e = .sendNext := by
  induction actions using List.reverseRecOn with
  | nil => cases herror
  | append_singleton as a ih =>
      rcases run_concat_error herror with hfirst | ⟨s, hrun, hstep⟩
      · exact ih hfirst
      · exact ((sound_start hmax rank).run hrun).1.step_error hstep

/-- Whatever the order of batches, cancellations and arrivals, the receiver does not fail. What it delivers is a whole
message, each one once, and a message cancelled early leaves nothing behind. -/
theorem all_or_nothing (hmax : 0 < maxMsgSize) (rank : Nat) (actions : List Action) :
    (∀ e, run step (start maxMsgSize rank) actions = .error e → e = .overflow ∨ e = .sendNext) ∧
    ∀ s, run step (start maxMsgSize rank) actions = .ok s →
      ((s.delivered ++ s.fusedQueue).map MessageHandle.key).Nodup ∧
      (∀ m ∈ s.delivered ++ s.fusedQueue, ∃ data, SentBy maxMsgSize rank actions m.source m.id m.tag data ∧
        s.Whole m data) ∧
      ∀ source id, CancelledEarly maxMsgSize rank actions (source, id) →
        (∀ m ∈ s.delivered ++ s.fusedQueue, m.key ≠ (source, id)) ∧
        ((∀ p ∈ s.network, p.key ≠ (source, id)) →
          (∀ t, s.sendQueue (source, id) = some t → t.handle.isFinished = true) →
          s.fragmentedMessages (source, id) = none) ∧
        ∃ bs s', run step s bs = .ok s' ∧ s'.fragmentedMessages (source, id) = none := by
  refine ⟨fun e => run_error hmax, fun s hrun => ?_⟩
  obtain ⟨hs, -, -⟩ := (sound_start hmax rank).run hrun
  refine ⟨hs.nodup, ?_, ?_⟩
  · intro m hm
    obtain ⟨t, ht, -, htag, hwhole⟩ := hs.whole hm
    rw [← htag]
    exact ⟨_, sentBy_of_run hmax hrun ht, hwhole⟩
  · intro source id hcancelled
    have hs' := sound_of_cancelledEarly hmax hcancelled hrun
    refine ⟨?_, hs'.entry_eq_none, hs'.removed rfl⟩
    intro m hm hkey
    obtain ⟨-, -, hearly, -⟩ := hs'.whole hm
    exact hearly hkey

def twoSenders : List Action :=
  [.send 1 0 7 (List.replicate 21 5), .send 2 0 7 (List.replicate 30 6), .sendNext 2 1, .sendNext 1 1, .receive 1,
    .cancelSend 2 1, .sendNext 2 1, .sendNext 1 1, .receive 0, .sendNext 1 1, .receive 2, .receive 1, .receive 0,
    .receive 0, .assemble, .assemble, .callback]

theorem all_or_nothing_two_senders :
    ((run step (start 8 0) twoSenders).toOption.map fun s => s.delivered.map fun m => (m.key, m.data)) =
      some [((1, 1), List.replicate 21 5)] ∧
    (∀ e, run step (start 8 0) twoSenders = .error e → e = .overflow ∨ e = .sendNext) ∧
    ∀ s, run step (start 8 0) twoSenders = .ok s →
      ((s.delivered ++ s.fusedQueue).map MessageHandle.key).Nodup ∧
      (∀ m ∈ s.delivered ++ s.fusedQueue, ∃ data, SentBy 8 0 twoSenders m.source m.id m.tag data ∧ s.Whole m data) ∧
      ∀ source id, CancelledEarly 8 0 twoSenders (source, id) →
        (∀ m ∈ s.delivered ++ s.fusedQueue, m.key ≠ (source, id)) ∧
        ((∀ p ∈ s.network, p.key ≠ (source, id)) →
          (∀ t, s.sendQueue (source, id) = some t → t.handle.isFinished = true) →
          s.fragmentedMessages (source, id) = none) ∧
        ∃ bs s', run step s bs = .ok s' ∧ s'.fragmentedMessages (source, id) = none := by
  refine ⟨?_, all_or_nothing (by norm_num) 0 twoSenders⟩
  decide +kernel

end Run

end Transfers

end Mallob.MessageQueue
