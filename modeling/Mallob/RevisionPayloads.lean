import Mallob.PayloadSeparation

namespace Mallob.JobDescription

open ByteLayout
open AppConfiguration (equals semicolon)

structure Increment where
  start : JobDescription
  calls : List Call

namespace Increment

def allCalls (inc : Increment) : List Call := inc.calls ++ inc.start.preloaded

def literals (inc : Increment) : List CInt := JobDescription.literals inc.allCalls

def assumptions (inc : Increment) : List CInt := JobDescription.assumptions inc.allCalls

def values (inc : Increment) : List CInt := JobDescription.values inc.allCalls

def configuration (inc : Increment) : List UInt8 := inc.start.appConfig.serialize

end Increment

def serializations (r : Nat) : List Increment → Except Fault (List (List UInt8))
  | [] => .ok []
  | inc :: incs =>
      if hr : r < 2 ^ 31 then do
        let d ← inc.start.initialization ⟨r, hr⟩ inc.calls
        let packed ← d.getRevisionData r
        let others ← serializations (r + 1) incs
        return packed :: others
      else .error .revision

def Serialized (r : Nat) (inc : Increment) (packed : List UInt8) : Prop :=
  ∃ x : Metadata, packed = header x inc.configuration ++ arrayBytes inc.values ∧ x.revision.toNat = r ∧ r < 2 ^ 31 ∧
    x.fSize.toNat = inc.literals.length ∧ x.aSize.toNat = inc.assumptions.length ∧ inc.configuration.length < 2 ^ 31

theorem serializations_cons {r : Nat} {inc : Increment} {incs : List Increment} {packeds : List (List UInt8)}
    (h : serializations r (inc :: incs) = .ok packeds) : ∃ packed others, packeds = packed :: others ∧
      Serialized r inc packed ∧ serializations (r + 1) incs = .ok others := by
  rw [serializations] at h
  split at h
  · next hr =>
      cases hd : inc.start.initialization ⟨r, hr⟩ inc.calls with
      | error e =>
          rw [hd] at h
          cases h
      | ok d =>
          have hc := initialization_complete hd
          rw [hd] at h
          simp only [bind, Except.bind, hc.data] at h
          cases hothers : serializations (r + 1) incs with
          | error e =>
              rw [hothers] at h
              cases h
          | ok others =>
              rw [hothers] at h
              obtain rfl := Except.ok.inj h
              refine ⟨_, others, rfl, ⟨d.toMetadata, ?_, hc.index, hr, hc.fSize, hc.aSize, ?_⟩, rfl⟩
              · rw [hc.config]
                rfl
              · have hsize := hc.size
                rw [getMetadataSize] at hsize
                rw [Increment.configuration, AppConfiguration.length_serialize]
                omega
  · cases h

theorem serialized_of_serializations {r i : Nat} {incs : List Increment} {packeds : List (List UInt8)}
    (h : serializations r incs = .ok packeds) {inc : Increment} (hinc : incs[i]? = some inc) :
    ∃ packed, packeds[i]? = some packed ∧ Serialized (r + i) inc packed := by
  induction incs generalizing r i packeds with
  | nil => cases hinc
  | cons first incs ih =>
      obtain ⟨packed, others, rfl, hfirst, hothers⟩ := serializations_cons h
      cases i with
      | zero =>
          obtain rfl := Option.some.inj hinc
          exact ⟨packed, rfl, hfirst⟩
      | succ i =>
          obtain ⟨packed', hpacked', hserialized⟩ := ih hothers hinc
          refine ⟨packed', hpacked', ?_⟩
          rwa [Nat.add_right_comm, Nat.add_assoc] at hserialized

section Receiver

variable {d d' : JobDescription} {r : Nat} {inc : Increment} {packed : List UInt8}

theorem deserialize_serialized (h : Serialized r inc packed) (hlength : d.dataPerRevision.length = r) :
    (∀ config, AppConfiguration.deserialize inc.configuration = .ok config → ∃ d', d.deserialize packed = .ok d' ∧
      d'.dataPerRevision = d.dataPerRevision ++ [some packed] ∧ d'.appConfig = config) ∧
    ∀ d', d.deserialize packed = .ok d' → ∃ config, AppConfiguration.deserialize inc.configuration = .ok config := by
  obtain ⟨x, hpacked, hrevision, hr, -, -, hconfig⟩ := h
  rw [hpacked]
  have hreceived := @deserialize_header d x inc.configuration (arrayBytes inc.values) (hrevision ▸ hr) hconfig
    (by rw [hlength, hrevision]; exact Nat.le_succ r)
  have hset : ∀ entry : Option (List UInt8), (prepared d.dataPerRevision r).set r entry = d.dataPerRevision ++ [entry] := by
    intro entry
    have hone : r + 1 - d.dataPerRevision.length = 1 := by omega
    rw [prepared, hone, ← hlength, List.set_append_right _ _ le_rfl, Nat.sub_self]
    rfl
  rw [hreceived]
  refine ⟨fun config hok => ?_, fun d' hd' => ?_⟩
  · rw [hok]
    refine ⟨_, rfl, ?_, rfl⟩
    rw [hrevision]
    exact hset _
  · split at hd'
    · next config hok => exact ⟨config, hok⟩
    · cases hd'

theorem receive_iff {incs : List Increment} {packeds : List (List UInt8)} (h : serializations r incs = .ok packeds)
    (hlength : d.dataPerRevision.length = r) : (∃ d', packeds.foldlM deserialize d = .ok d') ↔
      ∀ inc ∈ incs, ∃ config, AppConfiguration.deserialize inc.configuration = .ok config := by
  induction incs generalizing r d packeds with
  | nil =>
      obtain rfl := Except.ok.inj h
      exact ⟨fun _ inc hinc => absurd hinc List.not_mem_nil, fun _ => ⟨d, rfl⟩⟩
  | cons first incs ih =>
      obtain ⟨packed, others, rfl, hfirst, hothers⟩ := serializations_cons h
      obtain ⟨hreceive, hreadable⟩ := deserialize_serialized hfirst hlength
      rw [List.forall_mem_cons]
      constructor
      · rintro ⟨d', hd'⟩
        rw [List.foldlM_cons] at hd'
        cases hd₁ : d.deserialize packed with
        | error e =>
            rw [hd₁] at hd'
            cases hd'
        | ok d₁ =>
            obtain ⟨config, hconfig⟩ := hreadable d₁ hd₁
            obtain ⟨d₂, hd₂, hdata, -⟩ := hreceive config hconfig
            obtain rfl := Except.ok.inj (hd₁.symm.trans hd₂)
            rw [hd₁] at hd'
            exact ⟨⟨config, hconfig⟩, (ih hothers (by rw [hdata, List.length_append, hlength]; rfl)).mp ⟨d', hd'⟩⟩
      · rintro ⟨⟨config, hconfig⟩, hrest⟩
        obtain ⟨d₁, hd₁, hdata, -⟩ := hreceive config hconfig
        obtain ⟨d', hd'⟩ := (ih hothers (d := d₁) (by rw [hdata, List.length_append, hlength]; rfl)).mpr hrest
        refine ⟨d', ?_⟩
        rw [List.foldlM_cons, hd₁]
        exact hd'

/-- The receiver has all serializations, and the configuration of the last one. -/
theorem received {incs : List Increment} {packeds : List (List UInt8)} (h : serializations r incs = .ok packeds)
    (hlength : d.dataPerRevision.length = r) (hd' : packeds.foldlM deserialize d = .ok d') :
    d'.dataPerRevision = d.dataPerRevision ++ packeds.map some ∧
      ∀ last, incs.getLast? = some last → AppConfiguration.deserialize last.configuration = .ok d'.appConfig := by
  induction incs generalizing r d packeds with
  | nil =>
      obtain rfl := Except.ok.inj h
      obtain rfl := Except.ok.inj hd'
      exact ⟨(List.append_nil _).symm, fun last hlast => by cases hlast⟩
  | cons first incs ih =>
      obtain ⟨packed, others, rfl, hfirst, hothers⟩ := serializations_cons h
      obtain ⟨hreceive, hreadable⟩ := deserialize_serialized hfirst hlength
      rw [List.foldlM_cons] at hd'
      cases hd₁ : d.deserialize packed with
      | error e =>
          rw [hd₁] at hd'
          cases hd'
      | ok d₁ =>
          obtain ⟨config, hconfig⟩ := hreadable d₁ hd₁
          obtain ⟨d₂, hd₂, hdata, happ⟩ := hreceive config hconfig
          obtain rfl := Except.ok.inj (hd₁.symm.trans hd₂)
          rw [hd₁] at hd'
          obtain ⟨hdata', hlast'⟩ := ih hothers (by rw [hdata, List.length_append, hlength]; rfl) hd'
          refine ⟨?_, fun last hlast => ?_⟩
          · rw [hdata', hdata, List.append_assoc]
            rfl
          · cases incs with
            | nil =>
                obtain rfl := Option.some.inj hlast
                obtain rfl := Except.ok.inj hothers
                obtain rfl := Except.ok.inj hd'
                rw [happ]
                exact hconfig
            | cons second incs =>
                rw [List.getLast?_cons_cons] at hlast
                exact hlast' last hlast

end Receiver

/-- The payload of a revision is found behind a configuration of some size: it is empty, or the size is that
of its own configuration and its literals came before its assumptions, or the end of its own longer
configuration and its values happen to begin with them. -/
def Found (size : Nat) (inc : Increment) : Prop :=
  inc.literals ++ inc.assumptions = [] ∨
  size = inc.configuration.length ∧ inc.values = inc.literals ++ inc.assumptions ∨
  size < inc.configuration.length ∧
    arrayBytes (inc.literals ++ inc.assumptions) <+: inc.configuration.drop size ++ arrayBytes inc.values

theorem found_iff (size : Nat) (inc : Increment) : Found size inc ↔
    arrayBytes (inc.literals ++ inc.assumptions) <+: (inc.configuration ++ arrayBytes inc.values).drop size := by
  have hlength : (inc.literals ++ inc.assumptions).length = inc.values.length := by
    rw [List.length_append]
    exact (length_values inc.allCalls).symm
  have hbytes : (arrayBytes (inc.literals ++ inc.assumptions)).length = (arrayBytes inc.values).length := by
    rw [length_arrayBytes, length_arrayBytes, hlength]
  have hempty : inc.literals ++ inc.assumptions = [] →
      arrayBytes (inc.literals ++ inc.assumptions) <+: (inc.configuration ++ arrayBytes inc.values).drop size := by
    intro hnil
    rw [hnil]
    exact List.nil_prefix
  rcases lt_trichotomy size inc.configuration.length with hlt | heq | hgt
  · have hne : size ≠ inc.configuration.length := hlt.ne
    rw [List.drop_append_of_le_length hlt.le]
    rw [List.drop_append_of_le_length hlt.le] at hempty
    simp only [Found, hne, hlt, false_and, false_or, true_and]
    exact ⟨fun h => h.elim hempty id, Or.inr⟩
  · have hnlt : ¬ size < inc.configuration.length := heq.not_lt
    subst heq
    rw [List.drop_left]
    rw [List.drop_left] at hempty
    simp only [Found, hnlt, false_and, or_false, true_and]
    constructor
    · rintro (hnil | hvalues)
      · exact hempty hnil
      · rw [hvalues]
    · intro hstarts
      exact Or.inr (arrayBytes_inj hlength (hstarts.eq_of_length hbytes)).symm
  · have hne : size ≠ inc.configuration.length := hgt.ne'
    have hnlt : ¬ size < inc.configuration.length := hgt.not_gt
    simp only [Found, hne, hnlt, false_and, or_false]
    refine ⟨hempty, fun hstarts => ?_⟩
    have hle := hstarts.length_le
    rw [List.length_drop, List.length_append, hbytes, length_arrayBytes] at hle
    have hzero : inc.values.length = 0 := by omega
    rw [hzero] at hlength
    exact List.eq_nil_of_length_eq_zero hlength

/-- Whether the payloads of a received revision are read off depends on the size of the last configuration. -/
theorem payloads_found_iff {incs : List Increment} {packeds : List (List UInt8)} {d : JobDescription} {r : Nat}
    {inc : Increment} (h : serializations 0 incs = .ok packeds) (hd : packeds.foldlM deserialize {} = .ok d)
    (hinc : incs[r]? = some inc) :
    d.getFormulaPayload r = .ok inc.literals ∧ d.getAssumptionsPayload r = .ok inc.assumptions ↔
      Found d.appConfig.getSerializedSize inc := by
  obtain ⟨hdata, -⟩ := received h rfl hd
  obtain ⟨packed, hpacked, x, hheader, -, -, hf, ha, -⟩ := serialized_of_serializations h hinc
  rw [hheader] at hpacked
  have hr : d.getRevisionData r = .ok (header x inc.configuration ++ arrayBytes inc.values) := by
    rw [getRevisionData, hdata, List.nil_append, List.getElem?_map, hpacked]
    rfl
  rw [found_iff]
  exact payloads_header hr hf ha

theorem readable_of_found {incs : List Increment} {packeds : List (List UInt8)}
    (h : serializations 0 incs = .ok packeds)
    (hreadable : ∀ inc ∈ incs, ∃ config, AppConfiguration.deserialize inc.configuration = .ok config)
    (hfound : ∀ last config, incs.getLast? = some last → AppConfiguration.deserialize last.configuration = .ok config →
      ∀ inc ∈ incs, Found config.getSerializedSize inc) :
    ∃ d, packeds.foldlM deserialize {} = .ok d ∧ ∀ (r : Nat) (inc : Increment), incs[r]? = some inc →
      d.getFormulaPayload r = .ok inc.literals ∧ d.getAssumptionsPayload r = .ok inc.assumptions := by
  obtain ⟨d, hd⟩ := (receive_iff (d := {}) h rfl).mpr hreadable
  obtain ⟨-, hlast⟩ := received h rfl hd
  refine ⟨d, hd, fun r inc hr => (payloads_found_iff h hd hr).mpr ?_⟩
  have hmem := List.mem_of_getElem? hr
  obtain ⟨last, hlastMem⟩ : ∃ last, incs.getLast? = some last := by
    cases hget : incs.getLast? with
    | none =>
        rw [List.getLast?_eq_none_iff.mp hget] at hmem
        cases hmem
    | some last => exact ⟨last, rfl⟩
  exact hfound last d.appConfig hlastMem (hlast last hlastMem) inc hmem

/-- Every revision can be read exactly if every configuration can be read back and every payload is found
behind a configuration of the size of the last one. -/
theorem payloads_readable_iff {incs : List Increment} {packeds : List (List UInt8)}
    (h : serializations 0 incs = .ok packeds) :
    (∃ d, packeds.foldlM deserialize {} = .ok d ∧ ∀ (r : Nat) (inc : Increment), incs[r]? = some inc →
      d.getFormulaPayload r = .ok inc.literals ∧ d.getAssumptionsPayload r = .ok inc.assumptions) ↔
    (∀ inc ∈ incs, ∃ config, AppConfiguration.deserialize inc.configuration = .ok config) ∧
      ∀ last config, incs.getLast? = some last → AppConfiguration.deserialize last.configuration = .ok config →
        ∀ inc ∈ incs, Found config.getSerializedSize inc := by
  constructor
  · rintro ⟨d, hd, hpayloads⟩
    obtain ⟨-, hlast⟩ := received h rfl hd
    refine ⟨(receive_iff (d := {}) h rfl).mp ⟨d, hd⟩, fun last config hmem hconfig inc hinc => ?_⟩
    obtain ⟨r, hr⟩ := List.getElem?_of_mem hinc
    obtain rfl := Except.ok.inj ((hlast last hmem).symm.trans hconfig)
    exact (payloads_found_iff h hd hr).mp (hpayloads r inc hr)
  · rintro ⟨hreadable, hfound⟩
    exact readable_of_found h hreadable hfound

/-- Revisions whose plain configurations have one length, and whose literals come first, can all be read. -/
theorem payloads_readable_of_equal_size {incs : List Increment} {packeds : List (List UInt8)} {size : Nat}
    (h : serializations 0 incs = .ok packeds)
    (hincs : ∀ inc ∈ incs, inc.start.appConfig.PlainOptions ∧ inc.configuration.length = size ∧
      inc.values = inc.literals ++ inc.assumptions) :
    ∃ d, packeds.foldlM deserialize {} = .ok d ∧ ∀ (r : Nat) (inc : Increment), incs[r]? = some inc →
      d.getFormulaPayload r = .ok inc.literals ∧ d.getAssumptionsPayload r = .ok inc.assumptions := by
  refine readable_of_found h (fun inc hinc => ?_) fun last config hlast hconfig inc hinc => ?_
  · exact ⟨_, AppConfiguration.deserialize_serialize (hincs inc hinc).1⟩
  · obtain ⟨hplain, hsize, -⟩ := hincs last (List.mem_of_getLast? hlast)
    obtain rfl := Except.ok.inj ((AppConfiguration.deserialize_serialize hplain).symm.trans hconfig)
    obtain ⟨-, hinc', hvalues⟩ := hincs inc hinc
    refine Or.inr (Or.inl ⟨?_, hvalues⟩)
    rw [← AppConfiguration.length_serialize, hinc']
    exact hsize

def option (key value : UInt8) : AppConfiguration where
  map := (∅ : Std.ExtTreeMap (List UInt8) (List UInt8)).insert [key] [value]

def equalSizes : List Increment :=
  [⟨{ appConfig := option 97 98 }, [.addLiteral 3, .addLiteral 0]⟩, ⟨{ appConfig := option 99 100 }, [.addAssumption 5]⟩]

theorem payloads_readable_equal_sizes : ∃ packeds, serializations 0 equalSizes = .ok packeds ∧
    ∃ d, packeds.foldlM deserialize {} = .ok d ∧ ∀ (r : Nat) (inc : Increment), equalSizes[r]? = some inc →
      d.getFormulaPayload r = .ok inc.literals ∧ d.getAssumptionsPayload r = .ok inc.assumptions := by
  have hok : (serializations 0 equalSizes).toOption.isSome = true := by decide +kernel
  cases hpackeds : serializations 0 equalSizes with
  | error e =>
      rw [hpackeds] at hok
      cases hok
  | ok packeds =>
      have hplain : ∀ key value, (option key value).map.toList = [([key], [value])] → equals ≠ key → semicolon ≠ key →
          semicolon ≠ value → (option key value).PlainOptions := by
        intro key value hlist hequals hkey hvalue entry hmem
        rw [hlist] at hmem
        obtain rfl := List.mem_singleton.mp hmem
        exact ⟨by simpa using hequals, by simpa using hkey, by simpa using hvalue⟩
      have hab : AppConfiguration.deserialize (option 97 98).serialize = .ok (option 97 98) :=
        AppConfiguration.deserialize_serialize
          (hplain 97 98 (by decide +kernel) (by decide) (by decide) (by decide))
      have hcd : AppConfiguration.deserialize (option 99 100).serialize = .ok (option 99 100) :=
        AppConfiguration.deserialize_serialize
          (hplain 99 100 (by decide +kernel) (by decide) (by decide) (by decide))
      refine ⟨packeds, rfl, (payloads_readable_iff hpackeds).mpr ⟨?_, ?_⟩⟩
      · intro inc hinc
        rcases List.mem_cons.mp hinc with rfl | hinc
        · exact ⟨_, hab⟩
        · rw [List.mem_singleton.mp hinc]
          exact ⟨_, hcd⟩
      · intro last config hlast hconfig inc hinc
        obtain rfl := Option.some.inj hlast
        obtain rfl := Except.ok.inj (hcd.symm.trans hconfig)
        have hsize : (option 99 100).getSerializedSize = 5 := by decide +kernel
        rw [hsize]
        rcases List.mem_cons.mp hinc with rfl | hinc
        · exact Or.inr (Or.inl ⟨by decide +kernel, rfl⟩)
        · rw [List.mem_singleton.mp hinc]
          exact Or.inr (Or.inl ⟨by decide +kernel, rfl⟩)

/-- The configuration of the second revision is shorter, so that the literals of the first one are read from
the bytes of its own configuration on. -/
theorem payloads_shifted : ∃ packeds d,
    serializations 0 [⟨{ appConfig := option 97 98 }, [.addLiteral 3, .addLiteral 0]⟩, ⟨{}, []⟩] = .ok packeds ∧
      packeds.foldlM deserialize {} = .ok d ∧ d.getFormulaPayload 0 = .ok [0x623d612d, 0x33b] ∧
      d.getFormulaPayload 0 ≠ .ok [3, 0] := by
  refine ⟨_, _, rfl, rfl, ?_, ?_⟩
  · decide +kernel
  · decide +kernel

end Mallob.JobDescription
