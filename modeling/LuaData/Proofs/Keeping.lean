import LuaData.Proofs.Appending
import LuaData.Proofs.Traversal

/-!
# What a table keeps alive

A table keeps the cells of the values that it holds strongly: those of its array part and those
behind the strong handles of its slots (`Table.held`, `Table.mem_kept_iff`). `Keeping` says which
these are. A weak part of a table holds no value with an identity strongly, and a table without weak
parts holds large values for its entries only, so that what was removed is not kept. Every table
that is reached keeps to this: `Reaches.holds_entries_only`.
-/

namespace LuaData

/-- The value that a handle holds strongly. -/
def Handle.strong? : Handle → Option Value
  | .strong v => some v
  | .weak _ => none

/-- The handle on the value in a live slot. -/
def SlotState.value? : SlotState → Option Handle
  | .live _ value => some value
  | _ => none

namespace SlotState

variable {state : SlotState} {handle : Handle}

/-- The key of a slot in use belongs to an entry or to a removed one. -/
theorem key?_cases (h : state.key? = some handle) :
    (∃ value, state = .live handle value) ∨ state = .dead handle := by
  cases state with
  | live key value =>
    cases h
    exact .inl ⟨value, rfl⟩
  | dead key =>
    cases h
    exact .inr rfl
  | free => cases h

/-- Only entries have values. -/
theorem live_of_value? (h : state.value? = some handle) : ∃ key, state = .live key handle := by
  cases state with
  | live key value =>
    cases h
    exact ⟨key, rfl⟩
  | dead key => cases h
  | free => cases h

end SlotState

/-- A value with an identity or a long string. -/
def Value.Large (v : Value) : Prop :=
  v.collectable = true ∨ ∃ s, v = .str s ∧ shortStringLimit < s.bytes.length

namespace Handle

/-- A handle that holds a value strongly is the strong one. -/
theorem eq_strong_of_strong? {h : Handle} {v : Value} (hv : h.strong? = some v) :
    h = .strong v := by
  cases h with
  | strong w => rw [Option.some.inj hv]
  | weak w => cases hv

/-- The cell that a handle keeps is that of the value it holds strongly. -/
theorem kept?_eq (h : Handle) : h.kept? = h.strong?.bind Value.ref? := by
  cases h <;> rfl

/-- A weak handle is made for an entry with an identity. -/
theorem strong?_ofEntry_of_collectable {v : Value} (hv : v.collectable = true) :
    (ofEntry v true).strong? = none := by
  cases v <;> first | rfl | cases hv

end Handle

/-- A dead slot keeps no large key. -/
theorem Arena.strong?_ofValue_of_large {v : Value} (hv : v.Large) :
    (Handle.ofValue v (isLargeKey v)).strong? = none := by
  rcases hv with hcollectable | ⟨s, rfl, hlong⟩
  · cases v <;> first | rfl | cases hcollectable
  · have hlarge : isLargeKey (.str s) = true := decide_eq_true hlong
    rw [hlarge]
    rfl

namespace Arena

/-- The keys that slots, live or dead, hold strongly. -/
def heldKeys (a : Arena) : List Value :=
  a.slots.toList.filterMap fun slot ↦ slot.state.key?.bind Handle.strong?

/-- The values that slots hold strongly. -/
def heldValues (a : Arena) : List Value :=
  a.slots.toList.filterMap fun slot ↦ slot.state.value?.bind Handle.strong?

variable {a : Arena} {v : Value}

/-- What is held in some slot. -/
theorem mem_filterMap_slots_iff (f : SlotState → Option Handle) (hfree : f .free = none) :
    v ∈ a.slots.toList.filterMap (fun slot ↦ (f slot.state).bind Handle.strong?) ↔
      ∃ i, f (a.state i) = some (.strong v) := by
  rw [List.mem_filterMap]
  constructor
  · rintro ⟨slot, hmem, hslot⟩
    obtain ⟨i, hi, rfl⟩ := List.mem_iff_getElem.mp hmem
    have hlt : i < a.slots.size := by simpa using hi
    obtain ⟨handle, hhandle, hstrong⟩ := Option.bind_eq_some_iff.mp hslot
    refine ⟨i, ?_⟩
    rw [← Handle.eq_strong_of_strong? hstrong, ← hhandle]
    simp [state, hlt]
  · rintro ⟨i, hi⟩
    have hlt : i < a.slots.size := by
      refine lt_size_of_state fun hstate ↦ ?_
      rw [hstate, hfree] at hi
      cases hi
    refine ⟨a.slots[i], Array.getElem_mem_toList hlt, ?_⟩
    have hstate : a.slots[i].state = a.state i := by simp [state, hlt]
    rw [hstate, hi]
    rfl

/-- A key is held strongly by some slot. -/
theorem mem_heldKeys_iff : v ∈ a.heldKeys ↔ ∃ i, (a.state i).key? = some (.strong v) :=
  mem_filterMap_slots_iff SlotState.key? rfl

/-- A value is held strongly by some slot. -/
theorem mem_heldValues_iff : v ∈ a.heldValues ↔ ∃ i, (a.state i).value? = some (.strong v) :=
  mem_filterMap_slots_iff SlotState.value? rfl

/-- The cells that one slot keeps. -/
theorem mem_keptBy_iff {r : Ref} (slot : Slot) :
    r ∈ (match slot.state with
      | .live key value => key.kept?.toList ++ value.kept?.toList
      | .dead key => key.kept?.toList
      | .free => []) ↔ (slot.state.key?.bind Handle.kept?) = some r ∨
        (slot.state.value?.bind Handle.kept?) = some r := by
  cases slot.state <;> simp [SlotState.key?, SlotState.value?]

/-- The cells that slots keep are those of the keys and values that they hold strongly. -/
theorem mem_kept_iff {r : Ref} :
    r ∈ a.kept ↔ (∃ v ∈ a.heldKeys, v.ref? = some r) ∨ ∃ v ∈ a.heldValues, v.ref? = some r := by
  have hheld : ∀ f : Slot → Option Handle,
      (∃ v ∈ a.slots.toList.filterMap (fun slot ↦ (f slot).bind Handle.strong?), v.ref? = some r) ↔
        ∃ slot ∈ a.slots.toList, (f slot).bind Handle.kept? = some r := by
    intro f
    have hkept : ∀ h : Option Handle,
        h.bind Handle.kept? = some r ↔ ∃ v, h.bind Handle.strong? = some v ∧ v.ref? = some r := by
      intro h
      rw [← Option.bind_eq_some_iff, Option.bind_assoc]
      simp only [← Handle.kept?_eq]
    simp only [List.mem_filterMap, hkept]
    constructor
    · rintro ⟨v, ⟨slot, hmem, hv⟩, hr⟩
      exact ⟨slot, hmem, v, hv, hr⟩
    · rintro ⟨slot, hmem, v, hv, hr⟩
      exact ⟨v, ⟨slot, hmem, hv⟩, hr⟩
  rw [heldKeys, heldValues, hheld fun slot ↦ slot.state.key?, hheld fun slot ↦ slot.state.value?,
    kept, List.mem_flatMap]
  refine Iff.trans (exists_congr fun slot ↦ and_congr_right fun _ ↦ mem_keptBy_iff slot) ?_
  simp only [and_or_left, exists_or]

end Arena

namespace Table

variable {hash : Value → UInt64} {hint : Nat} {m : Moment} {t : Table} {v : Value}

/-- The values that a table holds strongly in its array part and in its slots. -/
def held (t : Table) : List Value :=
  t.array.toList ++ (t.arena.heldKeys ++ t.arena.heldValues)

/-- The cells that a table keeps are those of the values that it holds strongly, and its
metatable. -/
theorem mem_kept_iff {r : Ref} :
    r ∈ t.kept ↔ (∃ v ∈ t.held, v.ref? = some r) ∨ t.metatable = some r := by
  simp only [kept, held, List.mem_append, List.mem_filterMap, Arena.mem_kept_iff, or_and_right,
    exists_or, Option.mem_toList]

/-- What a table may hold strongly. -/
structure Keeping (hash : Value → UInt64) (m : Moment) (t : Table) : Prop where
  /-- Weak keys hold nothing with an identity. -/
  weak_keys : t.mode.keys = true → ∀ v ∈ t.arena.heldKeys, v.collectable = false
  /-- Weak values hold nothing with an identity. -/
  weak_values : t.mode.values = true →
    (∀ v ∈ t.array, v.collectable = false) ∧ ∀ v ∈ t.arena.heldValues, v.collectable = false
  /-- A large value in a table without weak parts is the key or the value of an entry. -/
  visible : t.mode = .strong → ∀ v ∈ t.held, v.Large →
    ∃ e ∈ t.entries (m.context hash), (e.1 = v ∨ e.2 = v) ∧ e.2 ≠ .nil ∧
      t.get (m.context hash) e.1 = e.2
  /-- Nothing else is kept but the metatable. -/
  kept : ∀ r ∈ t.kept, (∃ v ∈ t.held, v.ref? = some r) ∨ t.metatable = some r
  changeable : t.Changeable hash m

namespace Sound

/-- The key of a dead slot that is held strongly is not large. -/
theorem not_large_of_dead (hs : t.Sound hash m) {i : Nat}
    (h : t.arena.state i = .dead (.strong v)) : ¬ v.Large := by
  intro hlarge
  have hdead : Handle.strong v = .ofValue v (Arena.isLargeKey v) := (hs.fits i).dead _ h
  have hnone := Arena.strong?_ofValue_of_large hlarge
  rw [← hdead] at hnone
  cases hnone

/-- Weak keys are not held strongly if they have an identity. -/
theorem collectable_heldKeys (hs : t.Sound hash m) (hmode : t.mode.keys = true)
    (hv : v ∈ t.arena.heldKeys) : v.collectable = false := by
  by_contra htrue
  have hcollectable : v.collectable = true := by simpa using htrue
  obtain ⟨i, hi⟩ := Arena.mem_heldKeys_iff.mp hv
  rcases SlotState.key?_cases hi with ⟨value, hstate⟩ | hstate
  · have hentry : Handle.strong v = .ofEntry v t.mode.keys := ((hs.fits i).live _ value hstate).1
    have hnone := Handle.strong?_ofEntry_of_collectable hcollectable
    rw [← hmode, ← hentry] at hnone
    cases hnone
  · exact hs.not_large_of_dead hstate (.inl hcollectable)

/-- Weak values are not held strongly if they have an identity. -/
theorem collectable_heldValues (hs : t.Sound hash m) (hmode : t.mode.values = true)
    (hv : v ∈ t.arena.heldValues) : v.collectable = false := by
  by_contra htrue
  have hcollectable : v.collectable = true := by simpa using htrue
  obtain ⟨i, hi⟩ := Arena.mem_heldValues_iff.mp hv
  obtain ⟨key, hstate⟩ := SlotState.live_of_value? hi
  have hentry : Handle.strong v = .ofEntry v t.mode.values := ((hs.fits i).live key _ hstate).2.1
  have hnone := Handle.strong?_ofEntry_of_collectable hcollectable
  rw [← hmode, ← hentry] at hnone
  cases hnone

/-- A live slot of a table without weak parts has an entry. -/
theorem binding?_of_live (hs : t.Sound hash m) (hmode : t.mode = .strong) {i : Nat}
    {key value : Handle} (h : t.arena.state i = .live key value) :
    t.arena.binding? m.alive i = some (key.target, value.target) := by
  obtain ⟨hkey, hvalue, -⟩ := (hs.fits i).live key value h
  rw [hmode] at hkey hvalue
  rw [hkey, hvalue] at h
  rw [binding?_of_entry m.alive .strong h, if_pos (kept_strong m.alive _)]

/-- A large value that a table without weak parts holds belongs to an entry. -/
theorem entry_of_held (hs : t.Sound hash m) (hmode : t.mode = .strong) (hv : v ∈ t.held)
    (hlarge : v.Large) : ∃ e ∈ t.entries (m.context hash), e.1 = v ∨ e.2 = v := by
  have hslot : ∀ {i : Nat} {key value : Handle}, t.arena.state i = .live key value →
      (key.target, value.target) ∈ t.entries (m.context hash) := by
    intro i key value hstate
    exact List.mem_append.mpr
      (.inr (hs.mem_hashEntries_iff.mpr ⟨i, hs.binding?_of_live hmode hstate⟩))
  rcases List.mem_append.mp hv with harray | hslots
  · obtain ⟨i, hi, rfl⟩ := List.mem_iff_getElem.mp harray
    have hlt : i < t.array.size := by simpa using hi
    have hget : t.array.getD i .nil = t.array.toList[i] := by
      simp [Array.getD_eq_getD_getElem?, hlt]
    have hne : t.array.toList[i] ≠ .nil := by
      intro hnil
      rw [hnil] at hlarge
      rcases hlarge with hcollectable | ⟨s, hs, -⟩
      · cases hcollectable
      · cases hs
    exact ⟨_, List.mem_append.mpr (.inl (mem_arrayEntries_iff.mpr ⟨i, hlt, rfl, rfl, hget ▸ hne⟩)),
      .inr hget⟩
  · rcases List.mem_append.mp hslots with hkey | hvalue
    · obtain ⟨i, hi⟩ := Arena.mem_heldKeys_iff.mp hkey
      rcases SlotState.key?_cases hi with ⟨value, hstate⟩ | hstate
      · exact ⟨_, hslot hstate, .inl rfl⟩
      · exact absurd hlarge (hs.not_large_of_dead hstate)
    · obtain ⟨i, hi⟩ := Arena.mem_heldValues_iff.mp hvalue
      obtain ⟨key, hstate⟩ := SlotState.live_of_value? hi
      exact ⟨_, hslot hstate, .inr rfl⟩

end Sound

/-- In every table that is reached the weak parts hold nothing with an identity, and without weak
parts every large value that is held belongs to an entry. -/
theorem Reaches.holds_entries_only (hhash : Value.RespectsEq hash) (h : Reaches hash hint m t) :
    t.Keeping hash m where
  weak_keys hmode _ := (h.sound hhash).1.collectable_heldKeys hmode
  weak_values hmode := by
    have hs := (h.sound hhash).1
    refine ⟨fun v hv ↦ ?_, fun _ ↦ hs.collectable_heldValues hmode⟩
    rw [Array.eq_empty_of_size_eq_zero (hs.weak_values hmode)] at hv
    exact absurd hv (Array.not_mem_empty v)
  visible hmode v hv hlarge := by
    have hs := (h.sound hhash).1
    have hsize : t.array.size < 2 ^ 63 := h.size_lt hhash
    obtain ⟨⟨k, w⟩, hmem, hkv⟩ := hs.entry_of_held hmode hv hlarge
    have hne := (hs.insertable hmem).ne_nil
    exact ⟨(k, w), hmem, hkv, hne,
      (hs.get_eq_iff hhash hsize (hs.insertable hmem).stored hne).mpr ⟨k, hmem, rfl⟩⟩
  kept _ := mem_kept_iff.mp
  changeable := (h.sound hhash).1.changeable hhash

/-- An entry of two tables: once removed, its key is not kept although an enumeration may go on from
it, and in a weak table neither the key nor the value is kept. -/
theorem holds_entries_only_of_removal :
    ∃ m : Moment, (∃ t, Reaches Value.hash 4 m t ∧ t.tombstones = 1 ∧ ∀ v ∈ t.held, ¬ v.Large) ∧
      ∃ u, Reaches Value.hash 4 m u ∧ u.get (m.context Value.hash) (.table 0) = .table 1 ∧
        ∀ v ∈ u.arena.heldKeys ++ u.arena.heldValues, v.collectable = false := by
  let m : Moment := .allAlive 2
  let first := (store Value.hash (.still m) (withHashSize 4) (.table 0) (.table 1)).2
  let removed := (store Value.hash (.still m) { first with anchored := true } (.table 0) .nil).2
  have hnamed : ∀ {r : Ref}, r < 2 → (Value.table r).Named m.fresh := Value.named_of_ref? rfl
  have hfirst : Reaches Value.hash 4 m first :=
    Reaches.store (c := .still m) (.new m) (by decide) (le_refl _) (hnamed (by decide))
      (hnamed (by decide))
  have hsound := (hfirst.sound Value.rawEq_hash).1
  have hnext : first.next (m.context Value.hash) .nil =
      .ok (some (.table 0, .table 1), { first with anchored := true }) := by
    have hfind : (first.stops (m.context Value.hash)).find? filled =
        some (.table 0, .table 1) := by decide +kernel
    rw [hsound.next_nil (by decide +kernel), hfind]
    rfl
  have hremoved : Reaches Value.hash 4 m removed :=
    Reaches.store (c := .still m) (hfirst.next hnext) (by decide +kernel) (le_refl _)
      (hnamed (by decide)) nofun
  refine ⟨m, ⟨removed, hremoved, by decide +kernel, fun v hv hlarge ↦ ?_⟩, ?_⟩
  · obtain ⟨e, he, -⟩ :=
      (hremoved.holds_entries_only Value.rawEq_hash).visible (by decide +kernel) v hv hlarge
    have hnone : removed.entries (m.context Value.hash) = [] := by decide +kernel
    rw [hnone] at he
    cases he
  · have hbare := hsound.withMetatable none
    rcases hbare.setMode_cases Value.rawEq_hash (by decide +kernel) ⟨true, true⟩ with
      ⟨hmode, -⟩ | ⟨-, hlarge⟩ | ⟨u, hu, -, hrebuilt⟩
    · exact absurd hmode (by decide +kernel)
    · exact absurd hlarge (by decide +kernel)
    · have hreaches : Reaches Value.hash 4 m u :=
        hfirst.setMetatable (by decide +kernel) (le_refl _) hu
      have hkeeping := hreaches.holds_entries_only Value.rawEq_hash
      refine ⟨u, hreaches, ?_, fun v hv ↦ ?_⟩
      · rw [hrebuilt.values (.table 0) rfl]
        decide +kernel
      · rcases List.mem_append.mp hv with hkey | hvalue
        · exact hkeeping.weak_keys (by rw [hrebuilt.mode_eq]) v hkey
        · exact (hkeeping.weak_values (by rw [hrebuilt.mode_eq])).2 v hvalue

/-- Tables that were added as values cannot become weak if there are more of them than the hash part
takes. The refused change leaves a table with weak values that holds them strongly in its array
part. -/
theorem refused_mode_keeps_values :
    ∃ m t, Visits Value.hash 0 false m t ∧ t.array.size = 2 ^ maxHashBits + 1 ∧
      t.mode.values = true ∧ .table 0 ∈ t.array ∧ ¬ t.Keeping Value.hash m := by
  let m : Moment := .allAlive 1
  let t := appended 0 (2 ^ maxHashBits + 1) (.table 0)
  have hnamed : (Value.table 0).Named m.fresh := Value.named_of_ref? rfl Nat.one_pos
  have hvisits : Visits Value.hash 0 false m { t with mode := ⟨false, true⟩ } :=
    visits_refused _ 0 (fun h ↦ by cases h) hnamed (Nat.lt_succ_self _) (by decide) rfl
  have hmem : Value.table 0 ∈ t.array := Array.mem_replicate.mpr ⟨by decide, rfl⟩
  refine ⟨m, _, hvisits, size_array_appended 0 _ _, rfl, hmem, fun hkeeping ↦ ?_⟩
  have hweak : (Value.table 0).collectable = false := (hkeeping.weak_values rfl).1 _ hmem
  cases hweak

end Table

end LuaData
