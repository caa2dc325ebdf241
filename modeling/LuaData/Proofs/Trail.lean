import LuaData.Proofs.Enumeration

/-!
# The way of an enumeration

`Table.trail` lists the keys that an enumeration passes, in normal form. What is released and what a
write clears away only takes keys off the trail (`Shrinks`), and while an enumeration may be on the
way it takes off none that lasts: a key that a dead slot keeps, or whose cell is alive. A write then
leaves the trail as it is or adds one key to it (`Placed.trail_cases`). When no enumeration can be
in the hash part, a write still leaves the array part in place (`Placed.arrayTrail_isPrefix`).
-/

namespace LuaData

/-- A dead slot keeps the key, or the cell of the key is alive. -/
def Value.Lasts (alive : Ref → Bool) (k : Value) : Prop :=
  Arena.isLargeKey k = false ∨ k.present alive = true

namespace Value

/-- The value is no string that is too long for a dead slot to keep. -/
def Short (k : Value) : Prop :=
  ∀ s, k = .str s → s.bytes.length ≤ shortStringLimit

/-- Whether a value is short can be decided. -/
instance : DecidablePred Short
  | .str s => decidable_of_iff (s.bytes.length ≤ shortStringLimit)
      ⟨fun h s' hs ↦ by cases hs; exact h, fun h ↦ h s rfl⟩
  | .nil | .bool _ | .num _ | .table _ | .function _ | .userdata _ | .thread _ => isTrue nofun

/-- A key that lasts has lasted. -/
theorem Lasts.of_le {m n : Moment} {k : Value} (h : k.Lasts n.alive) (hle : m ≤ n)
    (hnamed : k.Named m.fresh) : k.Lasts m.alive :=
  h.imp id (present_of_le hle hnamed)

/-- Equal keys that are not too long last together. -/
theorem Lasts.of_content_eq {alive : Ref → Bool} {k l : Value} (h : k.Lasts alive) (hk : k.Short)
    (hcontent : k.content = l.content) : l.Lasts alive := by
  rcases eq_or_bytes_eq_of_content_eq hcontent with rfl | ⟨s, s', rfl, rfl, hbytes⟩
  · exact h
  · have hlength := hk s rfl
    refine .inl ?_
    show decide (shortStringLimit < s'.bytes.length) = false
    rw [← hbytes]
    exact decide_eq_false (Nat.not_lt.mpr hlength)

end Value

namespace Arena

variable {alive : Ref → Bool} {a : Arena} {i j : Nat} {k : Value}

/-- The key at a slot in normal form. -/
def mark? (alive : Ref → Bool) (a : Arena) (i : Nat) : Option Value :=
  (a.key? alive i).map Value.content

/-- A buried key that lasts is still there. -/
theorem key?_bury_of_lasts (h : a.key? alive j = some k) (hk : k.Lasts alive) :
    (a.bury alive i).key? alive j = some k := by
  rcases hk with hsmall | hpresent
  · by_cases hij : i = j
    · subst hij
      cases hstate : a.state i with
      | live key value =>
        rw [key?, hstate] at h
        have hget : key.get alive = some k := h
        rw [key?, state_bury_self hstate]
        show (buriedKey alive key).get alive = some k
        unfold buriedKey
        rw [hget]
        show (Handle.ofValue k (isLargeKey k)).get alive = some k
        rw [hsmall]
        rfl
      | dead key => simpa [bury, hstate] using h
      | free => simpa [bury, hstate] using h
    · rwa [key?_congr (state_bury_of_ne alive a hij)]
  · exact key?_bury h hpresent

end Arena

namespace Table

variable {hash : Value → UInt64} {m n : Moment} {t u w : Table} {key value : Value}

/-- The keys of the array part. -/
def arrayTrail (t : Table) : List Value :=
  (List.range t.array.size).map fun i ↦ .int (Int64.ofNat (i + 1))

/-- The keys of the linked slots in normal form. -/
def hashTrail (alive : Ref → Bool) (t : Table) : List Value :=
  t.linked.filterMap (t.arena.mark? alive)

/-- The keys that an enumeration passes in normal form. -/
def trail (alive : Ref → Bool) (t : Table) : List Value :=
  t.arrayTrail ++ t.hashTrail alive

/-- The trail has the keys of the stops. -/
theorem map_stops (hash : Value → UInt64) (m : Moment) (t : Table) :
    (t.stops (m.context hash)).map (fun e ↦ e.1.content) = t.trail m.alive := by
  rw [stops, List.map_append, trail]
  congr 1
  · rw [arrayStops, List.map_map, arrayTrail]
    apply List.ext_getElem
    · simp
    · intro i hi hi'
      simp [Value.content, Nat.add_comm]
  · rw [hashStops, List.map_filterMap, hashTrail]
    congr 1
    funext i
    rw [Arena.stop?, Arena.mark?, Option.map_map]
    rfl

/-- The keys of the array part are determined by its size. -/
theorem arrayTrail_congr (h : u.array.size = t.array.size) : u.arrayTrail = t.arrayTrail := by
  rw [arrayTrail, arrayTrail, h]

/-- A larger array part has more keys. -/
theorem arrayTrail_isPrefix (h : t.array.size ≤ u.array.size) : t.arrayTrail <+: u.arrayTrail := by
  obtain ⟨d, hd⟩ := Nat.exists_eq_add_of_le h
  rw [arrayTrail, arrayTrail, hd, List.range_add, List.map_append]
  exact List.prefix_append _ _

/-- A key with an index is one of the array part. -/
theorem content_mem_arrayTrail {i : Nat} (hsize : t.array.size < 2 ^ 63)
    (h : t.index? key = some i) : key.content ∈ t.arrayTrail := by
  obtain ⟨k, rfl, hk, hlt⟩ := index?_eq_some_iff.mp h
  refine List.mem_map.mpr ⟨i, List.mem_range.mpr hlt, ?_⟩
  rw [Int64.toInt_inj.mp (hk.trans (toInt_ofNat_succ (by omega)).symm)]
  rfl

namespace Sound

/-- No key is twice on the trail. -/
theorem trail_nodup (hs : t.Sound hash m) (hsize : t.array.size < 2 ^ 63) :
    (t.trail m.alive).Nodup := by
  rw [← map_stops hash, List.Nodup, List.pairwise_map]
  exact hs.stops_pairwise hsize

/-- The keys of the hash part on the trail are those that slots hold. -/
theorem mem_hashTrail_iff (hs : t.Sound hash m) {n : Moment} {x : Value} :
    x ∈ t.hashTrail n.alive ↔ ∃ i k, t.arena.key? n.alive i = some k ∧ k.content = x := by
  unfold hashTrail
  rw [List.mem_filterMap]
  constructor
  · rintro ⟨i, -, hi⟩
    obtain ⟨k, hk, rfl⟩ := Option.map_eq_some_iff.mp hi
    exact ⟨i, k, hk, rfl⟩
  · rintro ⟨i, k, hk, rfl⟩
    exact ⟨i, hs.mem_linked_iff.mpr (Arena.state_ne_free_of_key? hk), by rw [Arena.mark?, hk]; rfl⟩

/-- A key that a slot holds later it has held before. -/
theorem key?_of_le (hs : t.Sound hash m) (hle : m ≤ n) {i : Nat} {k : Value}
    (h : t.arena.key? n.alive i = some k) : t.arena.key? m.alive i = some k := by
  obtain ⟨handle, hhandle, hget⟩ := Option.bind_eq_some_iff.mp h
  refine Option.bind_eq_some_iff.mpr ⟨handle, hhandle, ?_⟩
  exact Handle.get_of_le hle ((hs.fits i).key handle hhandle).2.1 hget

/-- A slot goes on holding a key that lasts. -/
theorem key?_of_lasts (hs : t.Sound hash m) {i : Nat} {k : Value}
    (h : t.arena.key? m.alive i = some k) (hk : k.Lasts n.alive) :
    t.arena.key? n.alive i = some k := by
  obtain ⟨handle, hhandle, hget⟩ := Option.bind_eq_some_iff.mp h
  have htarget := Handle.target_of_get hget
  refine Option.bind_eq_some_iff.mpr ⟨handle, hhandle, ?_⟩
  rcases hk with hsmall | hpresent
  · cases hstate : t.arena.state i with
    | live key value =>
      rw [hstate] at hhandle
      cases hhandle
      rw [((hs.fits i).live _ _ hstate).1, htarget]
      -- Strings are held strongly, and what is neither a string nor large has no cell.
      cases k with
      | str s =>
        show (Handle.ofValue (.str s) (t.mode.keys && false)).get n.alive = _
        rw [Bool.and_false]
        rfl
      | nil => exact Handle.get_ofEntry_inline rfl _
      | bool b => exact Handle.get_ofEntry_inline rfl _
      | num x => exact Handle.get_ofEntry_inline rfl _
      | _ => cases hsmall
    | dead key =>
      rw [hstate] at hhandle
      cases hhandle
      rw [(hs.fits i).dead _ hstate, htarget, hsmall]
      rfl
    | free =>
      rw [hstate] at hhandle
      cases hhandle
  · rw [← htarget] at hpresent ⊢
    exact Handle.get_of_present hpresent

end Sound

/-! ## What takes keys off the trail -/

/-- The linked slots after a chain was replaced. -/
theorem linked_of_chain {b : Nat} {c : List Nat} (hb : b < t.buckets.size)
    (hsize : u.buckets.size = t.buckets.size)
    (hchain : ∀ b', u.chain b' = if b' = b then c else t.chain b') :
    u.linked = (t.buckets.toList.take b).flatten ++
      (c ++ (t.buckets.toList.drop (b + 1)).flatten) := by
  have hbuckets : u.buckets.toList = t.buckets.toList.set b c := by
    apply List.ext_getElem
    · simpa using hsize
    · intro i hi hi'
      have hit : i < t.buckets.toList.length := by simpa using hi'
      rw [← u.chain_eq_getElem hi, hchain, List.getElem_set, ← t.chain_eq_getElem hit]
      exact if_congr eq_comm rfl rfl
  rw [linked, hbuckets, List.set_eq_take_append_cons_drop, if_pos (by simpa using hb),
    List.flatten_append, List.flatten_cons]

/-- The linked slots by one of the chains. -/
theorem linked_eq {b : Nat} (hb : b < t.buckets.size) :
    t.linked = (t.buckets.toList.take b).flatten ++
      (t.chain b ++ (t.buckets.toList.drop (b + 1)).flatten) :=
  linked_of_chain hb rfl fun b' ↦ by
    split
    · rename_i heq
      rw [heq]
    · rfl

/-- Dropping a slot unlinks it. -/
theorem linked_dropped_sublist {b i : Nat} (hi : i ∈ t.chain b) :
    (t.dropped b i).linked.Sublist t.linked := by
  have hb := lt_size_of_mem_chain hi
  rw [linked_of_chain (u := t.dropped b i) hb Array.size_setIfInBounds
    (chain_of_buckets (u := t.dropped b i) hb rfl), linked_eq hb]
  exact (List.erase_sublist.append (List.Sublist.refl _)).append_left _

/-- From a table at one moment to a table at a later one, slots are only dropped and lose their
keys. While an enumeration may be on the way, no slot loses a key that lasts. -/
structure Shrinks (m n : Moment) (t u : Table) : Prop where
  array : u.array = t.array
  anchored : u.anchored = t.anchored
  linked : u.linked.Sublist t.linked
  old : ∀ i k, u.arena.key? n.alive i = some k → t.arena.key? m.alive i = some k
  kept : t.anchored = true → ∀ i k, t.arena.key? m.alive i = some k → k.Lasts n.alive →
    u.arena.key? n.alive i = some k

namespace Shrinks

/-- One after the other. -/
theorem trans {o : Moment} (h : Shrinks m n t w) (h' : Shrinks n o w u) (hs : t.Sound hash m)
    (hmn : m ≤ n) (hno : n ≤ o) : Shrinks m o t u where
  array := h'.array.trans h.array
  anchored := h'.anchored.trans h.anchored
  linked := h'.linked.trans h.linked
  old := fun i k hk ↦ h.old i k (h'.old i k hk)
  kept := fun hanchored i k hk hlasts ↦ by
    have hnamed := (hs.key?_fits hk).2.1.mono (Moment.fresh_le hmn)
    have hkept := h.kept hanchored i k hk (hlasts.of_le hno hnamed)
    exact h'.kept (h.anchored.trans hanchored) i k hkept hlasts

/-- What shrinks leaves a part of the trail. -/
theorem trail_sublist (h : Shrinks m n t u) : (u.trail n.alive).Sublist (t.trail m.alive) := by
  have hmark : ∀ i x, u.arena.mark? n.alive i = some x → t.arena.mark? m.alive i = some x := by
    intro i x hx
    obtain ⟨k, hk, rfl⟩ := Option.map_eq_some_iff.mp hx
    rw [Arena.mark?, h.old i k hk]
    rfl
  have hfilter : ∀ slots : List Nat, (slots.filterMap (u.arena.mark? n.alive)).Sublist
      (slots.filterMap (t.arena.mark? m.alive)) := by
    intro slots
    induction slots with
    | nil => exact List.Sublist.refl _
    | cons i slots ih =>
      rw [List.filterMap_cons, List.filterMap_cons]
      cases hi : u.arena.mark? n.alive i with
      | none =>
        cases t.arena.mark? m.alive i with
        | none => exact ih
        | some x => exact ih.cons x
      | some x =>
        rw [hmark i x hi]
        exact ih.cons_cons x
  rw [trail, trail, arrayTrail_congr (congrArg Array.size h.array)]
  exact (List.Sublist.refl _).append ((h.linked.filterMap _).trans (hfilter _))

/-- A key that lasts stays on the trail, while an enumeration may be on the way. -/
theorem mem_trail (h : Shrinks m n t u) (hs : t.Sound hash m) (hu : u.Sound hash n)
    (hanchored : t.anchored = true) (hshort : key.Short) (hlasts : key.Lasts n.alive)
    (hmem : key.content ∈ t.trail m.alive) : key.content ∈ u.trail n.alive := by
  rcases List.mem_append.mp hmem with harray | hhash
  · refine List.mem_append.mpr (.inl ?_)
    rwa [arrayTrail_congr (congrArg Array.size h.array)]
  · obtain ⟨i, k, hk, hcontent⟩ := hs.mem_hashTrail_iff.mp hhash
    refine List.mem_append.mpr (.inr (hu.mem_hashTrail_iff.mpr ⟨i, k, ?_, hcontent⟩))
    exact h.kept hanchored i k hk (hlasts.of_content_eq hshort hcontent.symm)

end Shrinks

namespace Sound

/-- Time passes. -/
theorem shrinks_of_le (hs : t.Sound hash m) (hle : m ≤ n) : Shrinks m n t t where
  array := rfl
  anchored := rfl
  linked := List.Sublist.refl _
  old := fun _ _ ↦ hs.key?_of_le hle
  kept := fun _ _ _ hk hlasts ↦ hs.key?_of_lasts hk hlasts

end Sound

/-- An entry is buried. -/
theorem shrinks_buried (m : Moment) (t : Table) (i : Nat) : Shrinks m m t (t.buried m.alive i) where
  array := rfl
  anchored := rfl
  linked := List.Sublist.refl _
  old := fun _ _ hk ↦ Arena.key?_of_key?_bury hk
  kept := fun _ _ _ hk hlasts ↦ Arena.key?_bury_of_lasts hk hlasts

/-- A slot is dropped. While the table is anchored, it has lost its key. -/
theorem shrinks_dropped {b i : Nat} (hmem : i ∈ t.chain b)
    (hgone : t.anchored = true → t.arena.key? m.alive i = none) :
    Shrinks m m t (t.dropped b i) := by
  have hfree : (t.dropped b i).arena.state i = .free := Arena.state_release_self _ _
  have hother : ∀ j, j ≠ i → (t.dropped b i).arena.key? m.alive j = t.arena.key? m.alive j :=
    fun j hj ↦ Arena.key?_congr (Arena.state_release_of_ne _ (Ne.symm hj))
  refine ⟨rfl, rfl, linked_dropped_sublist hmem, ?_, ?_⟩
  · intro j k hk
    by_cases hj : j = i
    · subst hj
      exact absurd hfree (Arena.state_ne_free_of_key? hk)
    · rwa [hother j hj] at hk
  · intro hanchored j k hk _
    have hj : j ≠ i := by
      rintro rfl
      rw [hgone hanchored] at hk
      cases hk
    rwa [hother j hj]

/-- The way to a key is cleared. -/
theorem Sound.shrinks_makeReady (hs : t.Sound hash m)
    (hready : t.makeReady (m.context hash) key value = .ok w) : Shrinks m m t w := by
  have hrefl := hs.shrinks_of_le (le_refl m)
  unfold Table.makeReady at hready
  split at hready
  · have hprune := hs.pruneBucket_induction (P := Shrinks m m t) (t.bucketOf (hash key))
      (fun u i _ hu _ _ _ ↦ hu.trans (shrinks_buried m u i) hs (le_refl m) (le_refl m))
      (fun u i _ hu hmem hdisposable ↦ by
        refine hu.trans (shrinks_dropped hmem fun hanchored ↦ ?_) hs (le_refl m) (le_refl m)
        rcases hdisposable with hexpired | ⟨hunanchored, -⟩
        · exact Arena.key?_of_keyExpired hexpired
        · rw [hanchored] at hunanchored
          cases hunanchored) hrefl
    obtain ⟨u, hu, -, hshrinks⟩ := hprune
    exact Except.ok.inj (hready.symm.trans hu) ▸ hshrinks
  · cases hready
    exact hrefl

/-! ## What a write adds to the trail -/

/-- Adding an entry links its slot. -/
theorem Inserted.linked {i : Nat} (h : t.Inserted hash key value i u)
    (hb : t.bucketOf (hash key) < t.buckets.size) :
    ∃ before after, t.linked = before ++ after ∧ u.linked = before ++ i :: after := by
  refine ⟨(t.buckets.toList.take (t.bucketOf (hash key))).flatten ++
      t.chain (t.bucketOf (hash key)),
    (t.buckets.toList.drop (t.bucketOf (hash key) + 1)).flatten, ?_, ?_⟩
  · rw [linked_eq hb, List.append_assoc]
  · have hchain : ∀ b, u.chain b = if b = t.bucketOf (hash key)
        then t.chain (t.bucketOf (hash key)) ++ [i] else t.chain b := by
      intro b
      rw [h.chain]
      split
      · rename_i heq
        rw [heq]
      · rfl
    rw [linked_of_chain hb h.size hchain]
    simp only [List.append_assoc, List.cons_append, List.nil_append]

/-- A trail with one more key on it. -/
def Grows (L L' : List Value) (x : Value) : Prop :=
  ∃ before after, L = before ++ after ∧ L' = before ++ x :: after

/-- The array part has the same size and the slots hold the same keys. -/
theorem trail_congr {alive : Ref → Bool} (hsize : u.array.size = t.array.size)
    (hlinked : u.linked = t.linked) (hmark : ∀ i, u.arena.mark? alive i = t.arena.mark? alive i) :
    u.trail alive = t.trail alive := by
  rw [trail, trail, hashTrail, hashTrail, arrayTrail_congr hsize, hlinked, funext hmark]

/-- A handle on a key that is there gives it back. -/
theorem get_ofEntry_of_present {alive : Ref → Bool} (h : key.present alive = true) (weakly : Bool) :
    (Handle.ofEntry key weakly).get alive = some key := by
  have hget := Handle.get_of_present (h := Handle.ofEntry key weakly)
    (by rwa [Handle.target_ofEntry])
  rwa [Handle.target_ofEntry] at hget

/-- The slot of an entry holds its key if that is there. -/
theorem key?_assigned_self {i : Nat} {l : Value} (value : Value)
    (hl : t.arena.key? m.alive i = some l) (hpresent : key.present m.alive = true) :
    (t.assigned i key value).arena.key? m.alive i = some key := by
  rw [Arena.key?, Table.assigned, Arena.state_assign_self _ _ (Arena.state_ne_free_of_key? hl)]
  exact get_ofEntry_of_present hpresent _

/-- The other slots hold the keys that they held. -/
theorem key?_assigned_of_ne (alive : Ref → Bool) (t : Table) (key value : Value) {i j : Nat}
    (h : i ≠ j) : (t.assigned i key value).arena.key? alive j = t.arena.key? alive j :=
  Arena.key?_congr (Arena.state_assign_of_ne _ _ _ h)

/-- Storing an entry in the slot of its key leaves the trail. -/
theorem Sound.trail_assigned (hs : t.Sound hash m) (hhash : Value.RespectsEq hash)
    (hkey : key.Stored) (hpresent : key.present m.alive = true) {i : Nat}
    (hslot : t.slot? (m.context hash) key = some i) (value : Value) :
    (t.assigned i key value).trail m.alive = t.trail m.alive := by
  obtain ⟨l, hl, hcontent⟩ := (hs.slot?_eq_some_iff hhash hkey).mp hslot
  refine trail_congr rfl rfl fun j ↦ ?_
  by_cases hij : i = j
  · subst hij
    rw [Arena.mark?, Arena.mark?, hl, key?_assigned_self value hl hpresent]
    exact congrArg some hcontent.symm
  · rw [Arena.mark?, Arena.mark?, key?_assigned_of_ne _ _ _ _ hij]

/-- Removing the entry of a key that lasts leaves the trail, since the slot keeps the key. -/
theorem Sound.trail_buried (hs : t.Sound hash m) (hhash : Value.RespectsEq hash)
    (hkey : key.Stored) (hshort : key.Short) (hpresent : key.present m.alive = true) {i : Nat}
    (hslot : t.slot? (m.context hash) key = some i) :
    (t.buried m.alive i).trail m.alive = t.trail m.alive := by
  obtain ⟨l, hl, hcontent⟩ := (hs.slot?_eq_some_iff hhash hkey).mp hslot
  have hlasts : l.Lasts m.alive := Value.Lasts.of_content_eq (.inr hpresent) hshort hcontent.symm
  refine trail_congr rfl rfl fun j ↦ ?_
  by_cases hij : i = j
  · subst hij
    have hl' : (t.buried m.alive i).arena.key? m.alive i = some l :=
      Arena.key?_bury_of_lasts hl hlasts
    rw [Arena.mark?, Arena.mark?, hl, hl']
  · have hstate : (t.buried m.alive i).arena.state j = t.arena.state j :=
      Arena.state_bury_of_ne m.alive t.arena hij
    rw [Arena.mark?, Arena.mark?, Arena.key?_congr hstate]

/-- A longer array part adds the key after its end to the trail. -/
theorem grows_push (alive : Ref → Bool) (t : Table) (value : Value) :
    Grows (t.trail alive) (Table.trail alive { t with array := t.array.push value })
      (.int (Int64.ofNat (t.array.size + 1))) := by
  refine ⟨t.arrayTrail, t.hashTrail alive, rfl, ?_⟩
  show (List.range (t.array.push value).size).map _ ++ t.hashTrail alive = _
  rw [Array.size_push, List.range_succ, List.map_append, List.append_assoc]
  rfl

/-- An entry whose key is there adds it to the trail, where the entry has been linked. -/
theorem Inserted.grows {i : Nat} (h : t.Inserted hash key value i u) (hs : t.Sound hash m)
    (hpresent : key.present m.alive = true) (hb : t.bucketOf (hash key) < t.buckets.size) :
    Grows (t.trail m.alive) (u.trail m.alive) key.content := by
  obtain ⟨before, after, hbefore, hafter⟩ := h.linked hb
  have hnot : ∀ j ∈ before ++ after, j ≠ i := by
    rintro j hj rfl
    exact hs.mem_linked_iff.mp (hbefore ▸ hj) h.added.was_free
  have hmark : ∀ slots : List Nat, (∀ j ∈ slots, j ≠ i) →
      slots.filterMap (u.arena.mark? m.alive) = slots.filterMap (t.arena.mark? m.alive) := by
    intro slots hslots
    refine List.filterMap_congr fun j hj ↦ ?_
    rw [Arena.mark?, Arena.mark?, Arena.key?_congr (h.added.state_of_ne j (hslots j hj))]
  have hself : u.arena.mark? m.alive i = some key.content := by
    rw [Arena.mark?, Arena.key?, h.added.state_self]
    show ((Handle.ofEntry key t.mode.keys).get m.alive).map Value.content = _
    rw [get_ofEntry_of_present hpresent]
    rfl
  refine ⟨t.arrayTrail ++ before.filterMap (t.arena.mark? m.alive),
    after.filterMap (t.arena.mark? m.alive), ?_, ?_⟩
  · rw [trail, hashTrail, hbefore, List.filterMap_append, List.append_assoc]
  · rw [trail, hashTrail, hafter, List.filterMap_append, List.filterMap_cons, hself,
      hmark _ fun j hj ↦ hnot j (List.mem_append.mpr (.inl hj)),
      hmark _ fun j hj ↦ hnot j (List.mem_append.mpr (.inr hj)),
      arrayTrail_congr (congrArg Array.size h.array), List.append_assoc]

namespace Placed

/-- While the table is anchored, a write leaves the trail or adds its key to it. -/
theorem trail_cases (h : Placed hash m t key value u) (hs : t.Sound hash m)
    (hhash : Value.RespectsEq hash) (hkey : key.Stored) (hshort : key.Short)
    (hpresent : key.present m.alive = true) (hvalueNamed : value.Named m.fresh)
    (hsize : t.array.size ≤ 2 ^ 62) (hanchored : t.anchored = true) :
    u.trail m.alive = t.trail m.alive ∨ Grows (t.trail m.alive) (u.trail m.alive) key.content := by
  cases h with
  | inArray => exact .inl (trail_congr Array.size_setIfInBounds rfl fun _ ↦ rfl)
  | @appended k _ hint hk hvalue hmode hslot hpush =>
    subst hint
    obtain ⟨u', hu', -, -, -, -, heq, -⟩ := hs.pushBack hhash hmode hsize hk hvalueNamed hslot
    obtain rfl := Except.ok.inj (hpush.symm.trans hu')
    have hk' : k = Int64.ofNat (t.array.size + 1) :=
      Int64.toInt_inj.mp (hk.trans (toInt_ofNat_succ (by omega)).symm)
    rw [heq hanchored, hk']
    exact .inr (grows_push m.alive t value)
  | unchanged => exact .inl rfl
  | buried _ _ hslot => exact .inl (hs.trail_buried hhash hkey hshort hpresent hslot)
  | dropped _ _ _ hunanchored =>
    rw [hanchored] at hunanchored
    cases hunanchored
  | assigned _ _ hslot => exact .inl (hs.trail_assigned hhash hkey hpresent hslot value)
  | inserted _ _ _ hroom hu =>
    exact .inr (hu.grows hs hpresent (Nat.mod_lt _ (by omega)))

/-- A write leaves the keys of the array part in place. -/
theorem arrayTrail_isPrefix (h : Placed hash m t key value u) (hs : t.Sound hash m)
    (hhash : Value.RespectsEq hash) (hvalueNamed : value.Named m.fresh)
    (hsize : t.array.size ≤ 2 ^ 62) : t.arrayTrail <+: u.arrayTrail := by
  refine Table.arrayTrail_isPrefix ?_
  cases h with
  | inArray => exact Nat.le_of_eq Array.size_setIfInBounds.symm
  | appended hint hk _ hmode hslot hpush =>
    subst hint
    obtain ⟨u', hu', -, -, -, hprefix, -⟩ := hs.pushBack hhash hmode hsize hk hvalueNamed hslot
    obtain rfl := Except.ok.inj (hpush.symm.trans hu')
    have hlength := hprefix.length_le
    simp only [List.length_append, Array.length_toList, List.length_singleton] at hlength
    omega
  | inserted _ _ _ _ hu => exact Nat.le_of_eq (congrArg Array.size hu.array).symm
  | _ => exact Nat.le_refl _

end Placed

end Table

end LuaData
