import Peepbooth.Ring

/-! Slots of the ring that calls write one after the other. While every store
of a call falls into a slot which no other call has opened since, a slot is
either as some call left it or being written by its owner alone. -/

namespace Peepbooth

namespace Ring

structure Owned (r : Ring) : Prop where
  /-- an owned slot holds what its owner has stored so far -/
  owned : ∀ k i, r.owner k = some i →
    ∃ w d, r.pending i = some (w, d) ∧ w ≠ .opening ∧ d.index = k ∧ d.Written (r.slots k) w
  /-- a free slot is untouched or as one call left it -/
  free : ∀ k, r.owner k = none → r.slots k = {} ∨ ∃ d ∈ r.calls, d.index = k ∧ r.slots k = d.slot
  /-- whoever stores has drawn its ticket -/
  drawn : ∀ i w d, r.pending i = some (w, d) → d ∈ r.calls

/-- The tickets of the calls are the numbers of their draws. -/
structure Numbered (r : Ring) : Prop where
  ticket : r.ticket = UInt64.ofNat r.calls.length
  calls : ∀ n d, r.calls[n]? = some d → d.ticket = UInt64.ofNat (n + 1)

variable {r : Ring} {i : Nat} {w : SlotStore} {d : RingWrite} {t : UInt64}

theorem Numbered.draw (h : r.Numbered) (args : BreadcrumbArgs) (now : UInt64) :
    (r.draw i (r.drawn args now)).Numbered := by
  have ht : r.ticket + 1 = UInt64.ofNat (r.calls.length + 1) := by
    rw [h.ticket, UInt64.ofNat_add]
    rfl
  refine ⟨by simpa [Ring.draw, drawn] using ht, fun n d hn => ?_⟩
  rcases Nat.lt_or_ge n r.calls.length with hlt | hge
  · exact h.calls n d (by simpa [Ring.draw, List.getElem?_append_left hlt] using hn)
  · rw [Ring.draw, List.getElem?_append_right hge, List.getElem?_singleton] at hn
    obtain ⟨hz, rfl⟩ : n - r.calls.length = 0 ∧ r.drawn args now = d := by simpa using hn
    have hl : n = r.calls.length := by omega
    simpa [drawn, hl] using ht

theorem Numbered.store (h : r.Numbered) : (r.store i w d).Numbered := ⟨h.ticket, h.calls⟩

theorem Numbered.unique (h : r.Numbered) (hn : r.calls.length < 2 ^ 64) {d d' : RingWrite}
    (hd : d ∈ r.calls) (hd' : d' ∈ r.calls) (ht : d'.ticket = d.ticket) : d' = d := by
  obtain ⟨n, hn'⟩ := List.mem_iff_getElem?.mp hd
  obtain ⟨m, hm⟩ := List.mem_iff_getElem?.mp hd'
  have hlt := (List.getElem?_eq_some_iff.mp hn').1
  have hlt' := (List.getElem?_eq_some_iff.mp hm).1
  rw [h.calls n d hn', h.calls m d' hm] at ht
  have hh := congrArg UInt64.toNat ht
  simp only [UInt64.toNat_ofNat'] at hh
  have he : m = n := by omega
  subst he
  rw [hn'] at hm
  exact (Option.some.inj hm).symm

theorem Owned.draw (h : r.Owned) (hi : r.pending i = none) (d : RingWrite) :
    (r.draw i d).Owned := by
  have hne : ∀ j w d', r.pending j = some (w, d') → j ≠ i := by
    rintro j w d' hj rfl
    simp [hi] at hj
  refine ⟨fun k j hk => ?_, fun k hk => ?_, fun j w d' hj => ?_⟩
  · obtain ⟨w, d', hp, hh⟩ := h.owned k j hk
    exact ⟨w, d', (draw_pending_ne (hne j w d' hp)).trans hp, hh⟩
  · rcases h.free k hk with he | ⟨d', hd, hh⟩
    · exact .inl he
    · exact .inr ⟨d', List.mem_append_left _ hd, hh⟩
  · rcases draw_pending_cases hj with ⟨-, -, rfl⟩ | ⟨-, hj⟩
    · exact List.mem_append_right _ (List.mem_singleton_self _)
    · exact List.mem_append_left _ (h.drawn j w d' hj)

theorem Owned.owner_ne (h : r.Owned) (hi : r.pending i = some (w, d)) {k : Fin breadcrumbCapacity}
    {j : Nat} (hk : r.owner k = some j) (hne : k ≠ d.index) : j ≠ i := by
  rintro rfl
  obtain ⟨w', d', hp, -, hd, -⟩ := h.owned k j hk
  rw [hi] at hp
  cases hp
  exact hne hd.symm

theorem Owned.commit_of_owner (h : r.Owned) (hi : r.pending i = some (w, d))
    (ho : r.owner d.index = some i) :
    w ≠ .opening ∧ d.Written (r.slots d.index) w := by
  obtain ⟨w', d', hp, hw, -, hs⟩ := h.owned _ i ho
  rw [hi] at hp
  cases hp
  exact ⟨hw, hs⟩

theorem Owned.store (h : r.Owned) (hi : r.pending i = some (w, d))
    (ho : w ≠ .opening → r.owner d.index = some i) : (r.store i w d).Owned := by
  have hd := h.drawn i w d hi
  refine ⟨fun k j hk => ?_, fun k hk => ?_, fun j w' d' hj => ?_⟩
  · by_cases hkd : k = d.index
    · subst hkd
      simp only [Ring.store, Function.update_self] at hk ⊢
      by_cases hw : w = .opening
      · subst hw
        obtain rfl : i = j := by simpa using hk
        exact ⟨.ticket, d, by simp [SlotStore.next], by simp, rfl,
          RingWrite.written_next (by simp [RingWrite.Written, SlotStore.position]) rfl⟩
      · obtain ⟨-, hwr⟩ := h.commit_of_owner hi (ho hw)
        by_cases hc : w = .closing
        · simp [hc] at hk
        · obtain rfl : i = j := by simpa [hw, hc, ho hw] using hk
          obtain ⟨w', hn⟩ := SlotStore.exists_next hc
          exact ⟨w', d, by simp [hn], SlotStore.next_ne_opening hn, rfl,
            RingWrite.written_next hwr hn⟩
    · have hk' : r.owner k = some j := by simpa [Ring.store, hkd] using hk
      obtain ⟨w', d', hp, hh⟩ := h.owned k j hk'
      have hji := h.owner_ne hi hk' hkd
      exact ⟨w', d', (store_pending_ne hji).trans hp, by rwa [store_slots_ne hkd]⟩
  · by_cases hkd : k = d.index
    · subst hkd
      refine .inr ⟨d, hd, rfl, ?_⟩
      simp only [Ring.store, Function.update_self] at hk ⊢
      by_cases hw : w = .opening
      · simp [hw] at hk
      · by_cases hc : w = .closing
        · subst hc
          exact RingWrite.apply_closing (h.commit_of_owner hi (ho hw)).2
        · simp [hw, hc, ho hw] at hk
    · rw [store_slots_ne hkd]
      exact h.free k (by simpa [Ring.store, hkd] using hk)
  · rcases store_pending_cases hj with ⟨-, -, rfl⟩ | ⟨-, hj⟩
    · exact hd
    · exact h.drawn j w' d' hj

/-- The slot of ticket `t` no longer shows the commit word of `t`, and its
owner, if any, is not about to store that word either. -/
def Superseded (r : Ring) (t : UInt64) : Prop :=
  (r.slots (slotIndex t)).commit ≠ closedWord t ∧
  ∀ i w d, r.owner (slotIndex t) = some i → r.pending i = some (w, d) →
    closedWord d.ticket ≠ closedWord t

/-- What a reader inside the slot of ticket `t` relies on. -/
def Held (t : UInt64) (r r' : Ring) : Prop :=
  (r.Superseded t → r'.Superseded t) ∧
  ((r.slots (slotIndex t)).commit = closedWord t →
    r'.slots (slotIndex t) = r.slots (slotIndex t) ∨ r'.Superseded t)

theorem Held.refl (r : Ring) : Held t r r := ⟨id, fun _ => .inl rfl⟩

theorem Held.trans {a b c : Ring} (h : Held t a b) (h' : Held t b c) : Held t a c := by
  refine ⟨fun ha => h'.1 (h.1 ha), fun ha => ?_⟩
  rcases h.2 ha with he | hs
  · rcases h'.2 (by rw [he, ha]) with he' | hs
    · exact .inl (he'.trans he)
    · exact .inr hs
  · exact .inr (h'.1 hs)

theorem Owned.held_draw (h : r.Owned) (hi : r.pending i = none) (d : RingWrite) :
    Held t r (r.draw i d) := by
  refine ⟨fun hs => ⟨hs.1, fun j w d' hj hp => ?_⟩, fun _ => .inl rfl⟩
  obtain ⟨w', d'', hp', -⟩ := h.owned _ j hj
  have hji : j ≠ i := by
    rintro rfl
    simp [hi] at hp'
  exact hs.2 j w d' hj (draw_pending_ne hji ▸ hp)

theorem Owned.held_store (h : r.Owned) (hi : r.pending i = some (w, d))
    (ho : w ≠ .opening → r.owner d.index = some i)
    (ht : w = .opening → slotIndex t = d.index → closedWord d.ticket ≠ closedWord t) :
    Held t r (r.store i w d) := by
  by_cases hk : slotIndex t = d.index
  · by_cases hw : w = .opening
    · have hs : (r.store i w d).Superseded t := by
        refine ⟨?_, fun j w' d' hj hp => ?_⟩
        · simpa [Ring.store, hk, hw, SlotStore.apply] using openWord_ne_closedWord d.ticket t
        · obtain rfl : i = j := by simpa [Ring.store, hk, hw] using hj
          obtain rfl : d = d' := by
            simp only [Ring.store, hw, SlotStore.next, Option.map_some, Function.update_self,
              Option.some.injEq, Prod.mk.injEq] at hp
            exact hp.2
          exact ht hw hk
      exact ⟨fun _ => hs, fun _ => .inr hs⟩
    · obtain ⟨-, hwr⟩ := h.commit_of_owner hi (ho hw)
      have hopen := RingWrite.written_commit hwr hw
      refine ⟨fun hs => ?_, fun hc => ?_⟩
      · have hd := hs.2 i w d (by rw [hk, ho hw]) hi
        refine ⟨?_, fun j w' d' hj hp => ?_⟩
        · simp only [Ring.store, hk, Function.update_self]
          cases w <;> simp_all [SlotStore.apply, openWord_ne_closedWord]
        · have hj' : i = j ∧ w ≠ .closing := by
            by_cases hc : w = .closing <;> simp_all [Ring.store]
          obtain ⟨rfl, hc⟩ := hj'
          obtain rfl : d = d' := by
            cases w <;> simp_all [Ring.store, SlotStore.next]
          exact hd
      · rw [hk, hopen] at hc
        exact absurd hc (openWord_ne_closedWord _ _)
  · refine ⟨fun hs => ⟨?_, fun j w' d' hj hp => ?_⟩, fun _ => .inl ?_⟩
    · rw [store_slots_ne hk]
      exact hs.1
    · have hj' : r.owner (slotIndex t) = some j := by simpa [Ring.store, hk] using hj
      have hji := h.owner_ne hi hj' hk
      exact hs.2 j w' d' hj' (store_pending_ne hji ▸ hp)
    · exact store_slots_ne hk

end Ring

end Peepbooth
