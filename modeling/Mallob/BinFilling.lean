import Mathlib

namespace Mallob.BinFilling

variable {α κ : Type}

inductive Event (α : Type) where
  | asked (x : α) (verdict : Bool)
  | packed (x : α)

def Event.item : Event α → α
  | .asked x _ => x
  | .packed x => x

structure Outcome (α κ : Type) where
  events : List (Event α)
  filter : κ
  left : List α

def Outcome.after (events : List (Event α)) (o : Outcome α κ) : Outcome α κ := { o with events := events ++ o.events }

/-- A bin is offered some items in turn. It is asked for each of them whether it is wanted, and up to the first
wanted item that there is no room for, the wanted items are packed. -/
def fill (ask : κ → α → Bool × κ) : Nat → κ → List α → Outcome α κ
  | _, filter, [] => ⟨[], filter, []⟩
  | room, filter, x :: xs =>
      match ask filter x with
      | (false, filter') => (fill ask room filter' xs).after [.asked x false]
      | (true, filter') =>
          match room with
          | 0 => ⟨[.asked x true], filter', x :: xs⟩
          | room + 1 => (fill ask room filter' xs).after [.asked x true, .packed x]

def fillAll (ask : κ → α → Bool × κ) : List Nat → κ → List α → Outcome α κ
  | [], filter, xs => ⟨[], filter, xs⟩
  | room :: rooms, filter, xs =>
      let first := fill ask room filter xs
      (fillAll ask rooms first.filter first.left).after first.events

/-- An item that a bin has no room for is still wanted when it is offered to the next one. -/
def Reaffirmed (ask : κ → α → Bool × κ) : List Nat → κ → List α → Prop
  | [], _, _ => True
  | room :: rooms, filter, xs =>
      let first := fill ask room filter xs
      (∀ x ∈ first.left.head?, rooms ≠ [] → (ask first.filter x).1 = true) ∧
        Reaffirmed ask rooms first.filter first.left

def packedItems (events : List (Event α)) : List α :=
  events.filterMap fun
    | .packed x => some x
    | .asked _ _ => none

variable {ask : κ → α → Bool × κ} {filter : κ} {room : Nat} {rooms : List Nat} {x : α} {xs : List α}
  {events events' : List (Event α)}

theorem mem_packedItems : x ∈ packedItems events ↔ .packed x ∈ events := by
  rw [packedItems, List.mem_filterMap]
  constructor
  · rintro ⟨e, he, heq⟩
    cases e with
    | asked y verdict => cases heq
    | packed y =>
        obtain rfl := Option.some.inj heq
        exact he
  · exact fun h => ⟨_, h, rfl⟩

@[simp] theorem packedItems_append : packedItems (events ++ events') = packedItems events ++ packedItems events' :=
  List.filterMap_append

structure Fills (room : Nat) (xs : List α) (o : Outcome α κ) : Prop where
  passed : ∃ done, xs = done ++ o.left ∧ (packedItems o.events).Sublist done ∧
    ∀ x ∈ done, ∃ verdict, .asked x verdict ∈ o.events
  item_mem : ∀ e ∈ o.events, e.item ∈ xs
  kept : ∀ x, .asked x true ∈ o.events → x ∈ packedItems o.events ∨ x ∈ o.left.head?
  room_le : (packedItems o.events).length ≤ room
  full : o.left ≠ [] → (packedItems o.events).length = room
  refused : ∀ x ∈ o.left.head?, .asked x true ∈ o.events

theorem Fills.filtered {o : Outcome α κ} (h : Fills room xs o) (x : α) :
    Fills room (x :: xs) (o.after [.asked x false]) where
  passed := by
    obtain ⟨done, hxs, hsub, hasked⟩ := h.passed
    refine ⟨x :: done, by rw [hxs]; rfl, hsub.cons x, ?_⟩
    intro y hy
    rcases List.mem_cons.mp hy with rfl | hy
    · exact ⟨false, List.mem_cons_self ..⟩
    · obtain ⟨verdict, hverdict⟩ := hasked y hy
      exact ⟨verdict, List.mem_cons_of_mem _ hverdict⟩
  item_mem := by
    intro e he
    rcases List.mem_cons.mp he with rfl | he
    · exact List.mem_cons_self ..
    · exact List.mem_cons_of_mem _ (h.item_mem e he)
  kept := by
    intro y hy
    rcases List.mem_cons.mp hy with heq | hy
    · exact absurd (Event.asked.inj heq).2 (by decide)
    · exact h.kept y hy
  room_le := h.room_le
  full := h.full
  refused := fun y hy => List.mem_cons_of_mem _ (h.refused y hy)

theorem Fills.accepted {o : Outcome α κ} (h : Fills room xs o) (x : α) :
    Fills (room + 1) (x :: xs) (o.after [.asked x true, .packed x]) where
  passed := by
    obtain ⟨done, hxs, hsub, hasked⟩ := h.passed
    refine ⟨x :: done, by rw [hxs]; rfl, hsub.cons_cons x, ?_⟩
    intro y hy
    rcases List.mem_cons.mp hy with rfl | hy
    · exact ⟨true, List.mem_cons_self ..⟩
    · obtain ⟨verdict, hverdict⟩ := hasked y hy
      exact ⟨verdict, List.mem_append_right _ hverdict⟩
  item_mem := by
    intro e he
    rcases List.mem_append.mp he with he | he
    · obtain rfl | rfl : e = .asked x true ∨ e = .packed x := by simpa using he
      · exact List.mem_cons_self ..
      · exact List.mem_cons_self ..
    · exact List.mem_cons_of_mem _ (h.item_mem e he)
  kept := by
    intro y hy
    rcases List.mem_append.mp hy with hy | hy
    · obtain rfl : y = x := by simpa using hy
      exact Or.inl (List.mem_cons_self ..)
    · exact (h.kept y hy).imp_left (List.mem_cons_of_mem _)
  room_le := Nat.succ_le_succ h.room_le
  full := fun hne => congrArg Nat.succ (h.full hne)
  refused := fun y hy => List.mem_append_right _ (h.refused y hy)

theorem fills_refused (filter : κ) (x : α) (xs : List α) :
    Fills 0 (x :: xs) (⟨[.asked x true], filter, x :: xs⟩ : Outcome α κ) where
  passed := ⟨[], rfl, List.Sublist.refl [], fun y hy => absurd hy List.not_mem_nil⟩
  item_mem := by
    intro e he
    obtain rfl := List.mem_singleton.mp he
    exact List.mem_cons_self ..
  kept := by
    intro y hy
    obtain ⟨rfl, -⟩ := Event.asked.inj (List.mem_singleton.mp hy)
    exact Or.inr rfl
  room_le := le_rfl
  full := fun _ => rfl
  refused := by
    intro y hy
    obtain rfl := Option.some.inj hy
    exact List.mem_singleton_self _

theorem fill_spec (ask : κ → α → Bool × κ) (room : Nat) (filter : κ) (xs : List α) :
    Fills room xs (fill ask room filter xs) := by
  induction xs generalizing room filter with
  | nil =>
      exact {
        passed := ⟨[], rfl, List.Sublist.refl [], fun y hy => absurd hy List.not_mem_nil⟩
        item_mem := fun e he => absurd he List.not_mem_nil
        kept := fun y hy => absurd hy List.not_mem_nil
        room_le := Nat.zero_le room
        full := fun hne => absurd rfl hne
        refused := fun y hy => nomatch hy }
  | cons x xs ih =>
      rw [fill]
      split
      · next filter' _ => exact (ih room filter').filtered x
      · next filter' _ =>
          cases room with
          | zero => exact fills_refused filter' x xs
          | succ room => exact (ih room filter').accepted x

theorem Fills.left_subset {o : Outcome α κ} (h : Fills room xs o) : o.left ⊆ xs := by
  obtain ⟨done, rfl, -⟩ := h.passed
  exact List.subset_append_right _ _

/-- Items that are offered once are not packed and left at the same time. -/
theorem Fills.not_mem_packed {o : Outcome α κ} (h : Fills room xs o) (hxs : xs.Nodup) (hx : x ∈ o.left) :
    x ∉ packedItems o.events := by
  obtain ⟨done, rfl, hsub, -⟩ := h.passed
  intro hpacked
  exact List.disjoint_of_nodup_append hxs (hsub.subset hpacked) hx

theorem asked_of_packed (h : .packed x ∈ (fill ask room filter xs).events) :
    .asked x true ∈ (fill ask room filter xs).events := by
  induction xs generalizing room filter with
  | nil => exact absurd h List.not_mem_nil
  | cons y ys ih =>
      rw [fill] at h ⊢
      split at h
      · next heq => exact List.mem_cons_of_mem _ (ih (List.mem_of_ne_of_mem (by simp) h))
      · next heq =>
          cases room with
          | zero => exact absurd h (by simp)
          | succ room =>
              rcases List.mem_append.mp h with h | h
              · obtain rfl : x = y := by simpa using h
                exact List.mem_cons_self ..
              · exact List.mem_append_right _ (ih h)

theorem fillAll_nil (ask : κ → α → Bool × κ) (rooms : List Nat) (filter : κ) :
    fillAll ask rooms filter [] = ⟨[], filter, []⟩ := by
  induction rooms generalizing filter with
  | nil => rfl
  | cons room rooms ih => exact congrArg (Outcome.after []) (ih filter)

theorem fillAll_cons (ask : κ → α → Bool × κ) (room : Nat) (rooms : List Nat) (filter : κ) (xs : List α) :
    fillAll ask (room :: rooms) filter xs =
      (fillAll ask rooms (fill ask room filter xs).filter (fill ask room filter xs).left).after
        (fill ask room filter xs).events := rfl

structure FillsAll (rooms : List Nat) (xs : List α) (o : Outcome α κ) : Prop where
  passed : ∃ done, xs = done ++ o.left ∧ (packedItems o.events).Sublist done
  item_mem : ∀ e ∈ o.events, e.item ∈ xs
  room_le : (packedItems o.events).length ≤ rooms.sum
  full : o.left ≠ [] → (packedItems o.events).length = rooms.sum
  refused : rooms ≠ [] → ∀ x ∈ o.left.head?, .asked x true ∈ o.events

theorem FillsAll.left_subset {o : Outcome α κ} (h : FillsAll rooms xs o) : o.left ⊆ xs := by
  obtain ⟨done, rfl, -⟩ := h.passed
  exact List.subset_append_right _ _

theorem fillAll_spec (ask : κ → α → Bool × κ) (rooms : List Nat) (filter : κ) (xs : List α) :
    FillsAll rooms xs (fillAll ask rooms filter xs) := by
  induction rooms generalizing filter xs with
  | nil =>
      exact {
        passed := ⟨[], rfl, List.Sublist.refl []⟩
        item_mem := fun e he => absurd he List.not_mem_nil
        room_le := le_rfl
        full := fun _ => rfl
        refused := fun hne => absurd rfl hne }
  | cons room rooms ih =>
      have hfirst := fill_spec ask room filter xs
      have hrest := ih (fill ask room filter xs).filter (fill ask room filter xs).left
      obtain ⟨done, hxs, hsub, -⟩ := hfirst.passed
      obtain ⟨done', hleft', hsub'⟩ := hrest.passed
      rw [fillAll_cons]
      exact {
        passed := by
          refine ⟨done ++ done', ?_, ?_⟩
          · rw [List.append_assoc]
            exact hxs.trans (congrArg (done ++ ·) hleft')
          · rw [Outcome.after, packedItems_append]
            exact hsub.append hsub'
        item_mem := by
          intro e he
          rcases List.mem_append.mp he with he | he
          · exact hfirst.item_mem e he
          · rw [hxs]
            exact List.mem_append_right _ (hrest.item_mem e he)
        room_le := by
          rw [Outcome.after, packedItems_append, List.length_append, List.sum_cons]
          exact Nat.add_le_add hfirst.room_le hrest.room_le
        full := by
          intro hne
          have hleft : (fill ask room filter xs).left ≠ [] := by
            rw [hleft']
            exact List.append_ne_nil_of_right_ne_nil _ hne
          rw [Outcome.after, packedItems_append, List.length_append, List.sum_cons, hfirst.full hleft, hrest.full hne]
        refused := by
          intro _ y hy
          by_cases hrooms : rooms = []
          · subst hrooms
            exact List.mem_append_left _ (hfirst.refused y hy)
          · exact List.mem_append_right _ (hrest.refused hrooms y hy) }

theorem fillAll_asked_of_packed (h : .packed x ∈ (fillAll ask rooms filter xs).events) :
    .asked x true ∈ (fillAll ask rooms filter xs).events := by
  induction rooms generalizing filter xs with
  | nil => exact absurd h List.not_mem_nil
  | cons room rooms ih =>
      rcases List.mem_append.mp h with h | h
      · exact List.mem_append_left _ (asked_of_packed h)
      · exact List.mem_append_right _ (ih h)

theorem reaffirmed_nil (ask : κ → α → Bool × κ) (rooms : List Nat) (filter : κ) : Reaffirmed ask rooms filter [] := by
  induction rooms generalizing filter with
  | nil => trivial
  | cons room rooms ih => exact ⟨fun x hx => absurd hx (by simp [fill]), ih filter⟩

theorem asked_head (hrooms : rooms ≠ []) (hask : (ask filter x).1 = true) :
    .asked x true ∈ (fillAll ask rooms filter (x :: xs)).events := by
  obtain ⟨room, rooms, rfl⟩ := List.exists_cons_of_ne_nil hrooms
  have hfirst : .asked x true ∈ (fill ask room filter (x :: xs)).events := by
    rw [fill]
    split
    · next heq =>
        rw [heq] at hask
        cases hask
    · cases room with
      | zero => exact List.mem_cons_self ..
      | succ room => exact List.mem_cons_self ..
  exact List.mem_append_left _ hfirst

theorem fillAll_filtered (hrooms : rooms ≠ []) {filter' : κ} (hask : ask filter x = (false, filter')) :
    fillAll ask rooms filter (x :: xs) = (fillAll ask rooms filter' xs).after [.asked x false] := by
  obtain ⟨room, rooms, rfl⟩ := List.exists_cons_of_ne_nil hrooms
  have hfirst : fill ask room filter (x :: xs) = (fill ask room filter' xs).after [.asked x false] := by
    rw [fill, hask]
  rw [fillAll_cons, fillAll_cons, hfirst]
  rfl

theorem exists_asked {verdict : Bool} (h : .asked x verdict ∈ (fill ask room filter xs).events) :
    ∃ filter', (ask filter' x).1 = verdict := by
  induction xs generalizing room filter with
  | nil => exact absurd h List.not_mem_nil
  | cons y ys ih =>
      rw [fill] at h
      split at h
      · next heq =>
          rcases List.mem_cons.mp h with h | h
          · obtain ⟨rfl, rfl⟩ := Event.asked.inj h
            exact ⟨filter, congrArg Prod.fst heq⟩
          · exact ih h
      · next heq =>
          have hfirst : ∀ es : List (Event α), .asked x verdict ∈ .asked y true :: es →
              (∃ filter', (ask filter' x).1 = verdict) ∨ .asked x verdict ∈ es := by
            intro es hes
            rcases List.mem_cons.mp hes with hes | hes
            · obtain ⟨rfl, rfl⟩ := Event.asked.inj hes
              exact Or.inl ⟨filter, congrArg Prod.fst heq⟩
            · exact Or.inr hes
          cases room with
          | zero => exact (hfirst [] h).resolve_right List.not_mem_nil
          | succ room =>
              rcases hfirst _ h with hfound | h
              · exact hfound
              · exact ih (List.mem_of_ne_of_mem (by simp) h)

/-- Where the answers do not depend on what was asked before, nothing is refused on second thought. -/
theorem reaffirmed_of_stateless (hask : ∀ filter filter' x, (ask filter x).1 = (ask filter' x).1) (rooms : List Nat)
    (filter : κ) (xs : List α) : Reaffirmed ask rooms filter xs := by
  induction rooms generalizing filter xs with
  | nil => trivial
  | cons room rooms ih =>
      refine ⟨fun x hx _ => ?_, ih _ _⟩
      obtain ⟨filter', hfilter'⟩ := exists_asked ((fill_spec ask room filter xs).refused x hx)
      exact (hask _ filter' x).trans hfilter'

/-- Where an item that did not fit is wanted again by the next bin, every wanted item is packed, except for one
that the last bin has no room for. -/
theorem kept_of_reaffirmed (h : Reaffirmed ask rooms filter xs)
    (hx : .asked x true ∈ (fillAll ask rooms filter xs).events) :
    x ∈ packedItems (fillAll ask rooms filter xs).events ∨ x ∈ (fillAll ask rooms filter xs).left.head? := by
  induction rooms generalizing filter xs with
  | nil => exact absurd hx List.not_mem_nil
  | cons room rooms ih =>
      have hfirst := fill_spec ask room filter xs
      obtain ⟨hagain, hrest⟩ := h
      have hpacked : x ∈ packedItems (fill ask room filter xs).events ∨
          x ∈ packedItems (fillAll ask rooms (fill ask room filter xs).filter (fill ask room filter xs).left).events ∨
          x ∈ (fillAll ask rooms (fill ask room filter xs).filter (fill ask room filter xs).left).left.head? := by
        rcases List.mem_append.mp hx with hx | hx
        · rcases hfirst.kept x hx with hpacked | hhead
          · exact Or.inl hpacked
          · by_cases hrooms : rooms = []
            · subst hrooms
              exact Or.inr (Or.inr hhead)
            · cases hleft : (fill ask room filter xs).left with
              | nil =>
                  rw [hleft] at hhead
                  cases hhead
              | cons y ys =>
                  have hasked := @asked_head _ _ _ (fill ask room filter xs).filter rooms y ys hrooms
                    (hagain y (by rw [hleft]; rfl) hrooms)
                  rw [hleft] at hhead
                  obtain rfl : y = x := Option.some.inj hhead
                  rw [← hleft] at hasked ⊢
                  exact Or.inr (ih hrest hasked)
        · exact Or.inr (ih hrest hx)
      rw [fillAll_cons, Outcome.after, packedItems_append, List.mem_append, or_assoc]
      exact hpacked

theorem exists_lost (hxs : xs.Nodup) (h : ¬Reaffirmed ask rooms filter xs) :
    ∃ x, .asked x true ∈ (fillAll ask rooms filter xs).events ∧
      x ∉ packedItems (fillAll ask rooms filter xs).events ∧ x ∉ (fillAll ask rooms filter xs).left := by
  induction rooms generalizing filter xs with
  | nil => exact absurd trivial h
  | cons room rooms ih =>
      have hfirst := fill_spec ask room filter xs
      obtain ⟨done, hsplit, hsub, -⟩ := hfirst.passed
      have hleft_nodup : (fill ask room filter xs).left.Nodup := by
        rw [hsplit] at hxs
        exact hxs.of_append_right
      have hleft : (fill ask room filter xs).left ≠ [] := by
        intro hnil
        rw [Reaffirmed, hnil] at h
        exact h ⟨fun x hx => absurd hx (by simp), reaffirmed_nil ask rooms _⟩
      rw [fillAll_cons]
      obtain ⟨y, ys, hys⟩ := List.exists_cons_of_ne_nil hleft
      have hfound : ∃ x ∈ (fill ask room filter xs).left,
          (.asked x true ∈ (fill ask room filter xs).events ∨ .asked x true ∈ (fillAll ask rooms
            (fill ask room filter xs).filter (fill ask room filter xs).left).events) ∧
          x ∉ packedItems (fillAll ask rooms (fill ask room filter xs).filter (fill ask room filter xs).left).events ∧
          x ∉ (fillAll ask rooms (fill ask room filter xs).filter (fill ask room filter xs).left).left := by
        rw [Reaffirmed] at h
        by_cases hrest : Reaffirmed ask rooms (fill ask room filter xs).filter (fill ask room filter xs).left
        · have hrejected : rooms ≠ [] ∧ (ask (fill ask room filter xs).filter y).1 = false := by
            by_contra hnot
            refine h ⟨fun x hx hrooms => ?_, hrest⟩
            rw [hys] at hx
            obtain rfl : y = x := Option.some.inj hx
            simpa [hrooms] using hnot
          obtain ⟨hrooms, hverdict⟩ := hrejected
          have hpair : ask (fill ask room filter xs).filter y =
              (false, (ask (fill ask room filter xs).filter y).2) := by rw [← hverdict]
          have hfilter := @fillAll_filtered _ _ _ _ rooms y ys hrooms _ hpair
          refine ⟨y, by rw [hys]; exact List.mem_cons_self .., Or.inl (hfirst.refused y (by rw [hys]; rfl)), ?_⟩
          have hrestSpec := fillAll_spec ask rooms (ask (fill ask room filter xs).filter y).2 ys
          obtain ⟨done', hys', hsub'⟩ := hrestSpec.passed
          rw [hys] at hleft_nodup
          have hy : y ∉ ys := (List.nodup_cons.mp hleft_nodup).1
          rw [hys, hfilter]
          constructor
          · intro hpacked
            exact hy (hys' ▸ List.mem_append_left _ (hsub'.subset hpacked))
          · intro hmem
            exact hy (hys' ▸ List.mem_append_right _ hmem)
        · obtain ⟨x, hasked, hpacked, hx⟩ := ih hleft_nodup hrest
          have hmem := (fillAll_spec ask rooms _ _).item_mem _ hasked
          exact ⟨x, hmem, Or.inr hasked, hpacked, hx⟩
      obtain ⟨x, hmem, hasked, hpacked, hx⟩ := hfound
      refine ⟨x, List.mem_append.mpr hasked, ?_, hx⟩
      rw [Outcome.after, packedItems_append, List.mem_append, not_or]
      exact ⟨hfirst.not_mem_packed hxs hmem, hpacked⟩

end Mallob.BinFilling
