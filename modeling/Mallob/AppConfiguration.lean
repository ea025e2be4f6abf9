import Mathlib

namespace Mallob

inductive Application
  | oneshotSat
  | incrementalSat
  | dummy
deriving DecidableEq, Repr

structure AppConfiguration where
  map : Std.ExtTreeMap (List UInt8) (List UInt8) := ∅

namespace AppConfiguration

def dash : UInt8 := 45
def equals : UInt8 := 61
def semicolon : UInt8 := 59

inductive Fault
  | dash
  | fuel
deriving DecidableEq

def item (option : List UInt8 × List UInt8) : List UInt8 :=
  dash :: option.1 ++ equals :: option.2 ++ [semicolon]

def serialize (config : AppConfiguration) : List UInt8 := config.map.toList.flatMap item

def getSerializedSize (config : AppConfiguration) : Nat :=
  (config.map.toList.map fun option => 1 + option.1.length + 1 + option.2.length + 1).sum

def splitAt (delim : UInt8) : List UInt8 → List UInt8 × Option (List UInt8)
  | [] => ([], none)
  | c :: cs => if c = delim then ([], some cs) else ((splitAt delim cs).1.cons c, (splitAt delim cs).2)

/-- The line and the rest of the stream. At the end of the stream the line stays as it was. -/
def getline (stream : Option (List UInt8)) (line : List UInt8) (delim : UInt8) : List UInt8 × Option (List UInt8) :=
  match stream with
  | none => (line, none)
  | some rest => splitAt delim rest

def readItems : Nat → Option (List UInt8) → List UInt8 → Std.ExtTreeMap (List UInt8) (List UInt8) →
    Except Fault (Std.ExtTreeMap (List UInt8) (List UInt8))
  | _, _, [], map => .ok map
  | 0, _, _ :: _, _ => .error .fuel
  | fuel + 1, stream, c :: substr, map =>
      if c = dash then
        let (key, rest) := getline (some substr) [] equals
        let (val, _) := getline rest [] semicolon
        let (next, stream) := getline stream substr semicolon
        readItems fuel stream next (map.insert key val)
      else .error .dash

/-- Every item takes up at least one character. -/
def deserialize (packed : List UInt8) : Except Fault AppConfiguration :=
  let (substr, stream) := getline (some packed) [] semicolon
  (readItems (packed.length + 1) stream substr ∅).map AppConfiguration.mk

theorem length_item (option : List UInt8 × List UInt8) :
    (item option).length = 1 + option.1.length + 1 + option.2.length + 1 := by
  simp only [item, List.length_append, List.length_cons, List.length_nil]
  omega

theorem length_serialize (config : AppConfiguration) : config.serialize.length = config.getSerializedSize := by
  rw [serialize, getSerializedSize, List.length_flatMap]
  congr 1
  exact List.map_congr_left fun option _ => length_item option

def Plain (option : List UInt8 × List UInt8) : Prop :=
  equals ∉ option.1 ∧ semicolon ∉ option.1 ∧ semicolon ∉ option.2

def PlainOptions (config : AppConfiguration) : Prop := ∀ option ∈ config.map.toList, Plain option

theorem splitAt_append {delim : UInt8} {cs : List UInt8} (h : delim ∉ cs) (rest : List UInt8) :
    splitAt delim (cs ++ delim :: rest) = (cs, some rest) := by
  induction cs with
  | nil => rw [List.nil_append, splitAt, if_pos rfl]
  | cons c cs ih =>
      rw [List.mem_cons, not_or] at h
      rw [List.cons_append, splitAt, if_neg (Ne.symm h.1), ih h.2]

theorem splitAt_all {delim : UInt8} {cs : List UInt8} (h : delim ∉ cs) : splitAt delim cs = (cs, none) := by
  induction cs with
  | nil => rfl
  | cons c cs ih =>
      rw [List.mem_cons, not_or] at h
      rw [splitAt, if_neg (Ne.symm h.1), ih h.2]

theorem splitAt_spec (delim : UInt8) (cs : List UInt8) :
    delim ∉ (splitAt delim cs).1 ∧ (∀ c ∈ (splitAt delim cs).1, c ∈ cs) ∧
      match (splitAt delim cs).2 with
      | none => (splitAt delim cs).1 = cs
      | some rest => cs = (splitAt delim cs).1 ++ delim :: rest := by
  induction cs with
  | nil => exact ⟨List.not_mem_nil, fun c hc => hc, rfl⟩
  | cons c cs ih =>
      obtain ⟨hnot, hsub, hrest⟩ := ih
      rw [splitAt]
      split
      · next heq =>
          subst heq
          exact ⟨List.not_mem_nil, fun c hc => absurd hc List.not_mem_nil, rfl⟩
      · next hne =>
          refine ⟨?_, ?_, ?_⟩
          · rw [List.mem_cons, not_or]
            exact ⟨Ne.symm hne, hnot⟩
          · intro d hd
            rcases List.mem_cons.mp hd with rfl | hd
            · exact List.mem_cons_self
            · exact List.mem_cons_of_mem _ (hsub d hd)
          · dsimp only
            split at hrest
            · exact congrArg (List.cons c) hrest
            · exact congrArg (List.cons c) hrest

section Items

variable {map : Std.ExtTreeMap (List UInt8) (List UInt8)}

theorem readItems_items (options : List (List UInt8 × List UInt8)) (hplain : ∀ option ∈ options, Plain option)
    (fuel : Nat) (hfuel : options.length ≤ fuel) (substr : List UInt8) (stream : Option (List UInt8))
    (h : splitAt semicolon (options.flatMap item) = (substr, stream)) :
    readItems fuel stream substr map = .ok (options.foldl (fun map option => map.insert option.1 option.2) map) := by
  induction options generalizing fuel substr stream map with
  | nil =>
      obtain ⟨rfl, rfl⟩ := Prod.mk.inj h
      rw [readItems.eq_def]
      rfl
  | cons option options ih =>
      obtain ⟨hequals, hkey, hval⟩ := hplain option List.mem_cons_self
      have hitem : (option :: options).flatMap item =
          (dash :: (option.1 ++ equals :: option.2)) ++ semicolon :: options.flatMap item := by
        simp [item]
      have hnot : semicolon ∉ dash :: (option.1 ++ equals :: option.2) := by
        have hdash : semicolon ≠ dash := by decide
        have hsign : semicolon ≠ equals := by decide
        simp [hdash, hsign, hkey, hval]
      rw [hitem, splitAt_append hnot] at h
      obtain ⟨rfl, rfl⟩ := Prod.mk.inj h
      cases fuel with
      | zero => cases hfuel
      | succ fuel =>
          rw [readItems, if_pos rfl]
          simp only [getline, splitAt_append hequals, splitAt_all hval]
          rw [List.foldl_cons]
          exact ih (fun option' hmem => hplain option' (List.mem_cons_of_mem _ hmem)) fuel (Nat.le_of_succ_le_succ hfuel)
            _ _ rfl

theorem getElem?_foldl_insert (options : List (List UInt8 × List UInt8))
    (hdistinct : options.Pairwise fun a b => a.1 ≠ b.1) (key : List UInt8) :
    (options.foldl (fun map option => map.insert option.1 option.2) map)[key]? =
      match options.find? (fun option => option.1 = key) with
      | some option => some option.2
      | none => map[key]? := by
  induction options generalizing map with
  | nil => rfl
  | cons option options ih =>
      obtain ⟨hfirst, hrest⟩ := List.pairwise_cons.mp hdistinct
      rw [List.foldl_cons, ih hrest]
      by_cases heq : option.1 = key
      · have hnone : options.find? (fun option => option.1 = key) = none := by
          rw [List.find?_eq_none]
          intro option' hmem hkey
          exact hfirst option' hmem (heq.trans (of_decide_eq_true hkey).symm)
        have hfound : (option :: options).find? (fun option => option.1 = key) = some option := by
          rw [List.find?_cons, decide_eq_true heq]
        rw [hnone, hfound]
        simp [heq]
      · have hskip : (option :: options).find? (fun option => option.1 = key) =
            options.find? (fun option => option.1 = key) := by
          rw [List.find?_cons, decide_eq_false heq]
        rw [hskip]
        cases options.find? (fun option => option.1 = key) with
        | none => simp [Std.ExtTreeMap.getElem?_insert, heq]
        | some option' => rfl

theorem foldl_insert_toList (map : Std.ExtTreeMap (List UInt8) (List UInt8)) :
    map.toList.foldl (fun map option => map.insert option.1 option.2) ∅ = map := by
  have hdistinct : map.toList.Pairwise fun a b => a.1 ≠ b.1 :=
    map.distinct_keys_toList.imp fun hne heq => hne (by rw [heq]; exact Std.ReflCmp.compare_self)
  refine Std.ExtTreeMap.ext_getElem? fun key => ?_
  rw [getElem?_foldl_insert _ hdistinct]
  split
  · next option hfind =>
      have hmem := List.mem_of_find?_eq_some hfind
      have hkey : option.1 = key := by simpa using List.find?_some hfind
      rw [← hkey]
      exact (Std.ExtTreeMap.mem_toList_iff_getElem?_eq_some.mp hmem).symm
  · next hnone =>
      cases hget : map[key]? with
      | none => simp
      | some val =>
          have hmem := Std.ExtTreeMap.mem_toList_iff_getElem?_eq_some.mpr hget
          have hne := List.find?_eq_none.mp hnone _ hmem
          simp at hne

end Items

theorem deserialize_serialize {config : AppConfiguration} (h : config.PlainOptions) :
    deserialize config.serialize = .ok config := by
  have hfuel : config.map.toList.length ≤ config.serialize.length + 1 := by
    rw [serialize, List.length_flatMap]
    have hle : ∀ options : List (List UInt8 × List UInt8),
        options.length ≤ (options.map fun option => (item option).length).sum := by
      intro options
      induction options with
      | nil => exact le_rfl
      | cons option options ih =>
          rw [List.length_cons, List.map_cons, List.sum_cons, length_item]
          omega
    exact (hle _).trans (Nat.le_succ _)
  have hread : readItems (config.serialize.length + 1) (splitAt semicolon config.serialize).2
      (splitAt semicolon config.serialize).1 ∅ = .ok config.map := by
    have hitems := @readItems_items ∅ config.map.toList h _ hfuel _ _ rfl
    rw [foldl_insert_toList] at hitems
    exact hitems
  simp only [deserialize, getline, hread]
  rfl

def left : Option (List UInt8) → List UInt8 → Nat
  | none, substr => substr.length
  | some rest, substr => substr.length + rest.length + 1

theorem left_splitAt (delim : UInt8) (cs : List UInt8) : left (splitAt delim cs).2 (splitAt delim cs).1 = cs.length := by
  obtain ⟨-, -, hrest⟩ := splitAt_spec delim cs
  cases hstream : (splitAt delim cs).2 with
  | none =>
      rw [hstream] at hrest
      rw [left, hrest]
  | some rest =>
      rw [hstream] at hrest
      have hlength := congrArg List.length hrest
      rw [List.length_append, List.length_cons] at hlength
      rw [left, hlength, add_assoc]

theorem readItems_ne_fuel {fuel : Nat} {stream : Option (List UInt8)} {substr : List UInt8}
    {map : Std.ExtTreeMap (List UInt8) (List UInt8)} (hfuel : left stream substr ≤ fuel) :
    readItems fuel stream substr map ≠ .error .fuel := by
  induction fuel generalizing stream substr map with
  | zero =>
      cases substr with
      | nil =>
          rw [readItems.eq_def]
          exact fun h => by cases h
      | cons c substr =>
          cases stream <;> simp [left] at hfuel
  | succ fuel ih =>
      cases substr with
      | nil =>
          rw [readItems.eq_def]
          exact fun h => by cases h
      | cons c substr =>
          rw [readItems]
          split
          · refine ih ?_
            cases stream with
            | none =>
                simp only [left, List.length_cons] at hfuel ⊢
                omega
            | some rest =>
                simp only
                rw [left_splitAt]
                simp only [left, List.length_cons] at hfuel
                omega
          · exact fun h => by cases h

theorem deserialize_ne_fuel (packed : List UInt8) : deserialize packed ≠ .error .fuel := by
  have hfuel : left (splitAt semicolon packed).2 (splitAt semicolon packed).1 ≤ packed.length + 1 := by
    rw [left_splitAt]
    exact Nat.le_succ _
  have hread := @readItems_ne_fuel _ _ _ ∅ hfuel
  simp only [deserialize, getline]
  cases hitems : readItems (packed.length + 1) (splitAt semicolon packed).2 (splitAt semicolon packed).1 ∅ with
  | ok map => exact fun h => by cases h
  | error fault =>
      intro h
      rw [hitems] at hread
      exact hread (congrArg Except.error (Except.error.inj h))

theorem readItems_plain {fuel : Nat} {stream : Option (List UInt8)} {substr : List UInt8}
    {map map' : Std.ExtTreeMap (List UInt8) (List UInt8)} (hsubstr : semicolon ∉ substr)
    (hmap : ∀ key val, map[key]? = some val → Plain (key, val)) (h : readItems fuel stream substr map = .ok map') :
    ∀ key val, map'[key]? = some val → Plain (key, val) := by
  induction fuel generalizing stream substr map with
  | zero =>
      cases substr with
      | nil =>
          rw [readItems.eq_def] at h
          obtain rfl := Except.ok.inj h
          exact hmap
      | cons c substr =>
          rw [readItems.eq_def] at h
          cases h
  | succ fuel ih =>
      cases substr with
      | nil =>
          rw [readItems.eq_def] at h
          obtain rfl := Except.ok.inj h
          exact hmap
      | cons c substr =>
          rw [readItems] at h
          split at h
          · rw [List.mem_cons, not_or] at hsubstr
            obtain ⟨hkey, hsub, hrest⟩ := splitAt_spec equals substr
            refine ih ?_ ?_ h
            · cases stream with
              | none => exact hsubstr.2
              | some rest => exact (splitAt_spec semicolon rest).1
            · intro key val hget
              rw [Std.ExtTreeMap.getElem?_insert] at hget
              split at hget
              · next heq =>
                  obtain rfl := Std.LawfulEqCmp.eq_of_compare heq
                  obtain rfl := Option.some.inj hget
                  refine ⟨hkey, fun hmem => hsubstr.2 (hsub _ hmem), fun hmem => ?_⟩
                  simp only at hmem
                  split at hmem
                  · cases hmem
                  · next hsplit => exact (splitAt_spec semicolon _).1 hmem
              · exact hmap key val hget
          · cases h

theorem deserialize_plain {packed : List UInt8} {config : AppConfiguration} (h : deserialize packed = .ok config) :
    config.PlainOptions := by
  rw [deserialize] at h
  cases hread : readItems (packed.length + 1) (splitAt semicolon packed).2 (splitAt semicolon packed).1 ∅ with
  | error e =>
      simp only [getline, hread] at h
      cases h
  | ok map =>
      simp only [getline, hread] at h
      obtain rfl := Except.ok.inj h
      intro option hmem
      refine readItems_plain (splitAt_spec semicolon packed).1 ?_ hread option.1 option.2 ?_
      · intro key val hget
        simp at hget
      · exact Std.ExtTreeMap.mem_toList_iff_getElem?_eq_some.mp hmem

theorem deserialize_serialize_iff (config : AppConfiguration) :
    deserialize config.serialize = .ok config ↔ config.PlainOptions :=
  ⟨deserialize_plain, deserialize_serialize⟩

end AppConfiguration

end Mallob
