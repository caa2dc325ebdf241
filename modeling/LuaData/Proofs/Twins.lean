import LuaData.Proofs.Plain

/-!
# Tables under two hashes

Two tables that use different hashes are twins when they are plain, have the same sizes and the same
values. Their buckets, chains and slots may have nothing in common. Every operation leaves twins
behind and gives both the same answer: `Twins.storeKey` for a write, with the rehash in it, and
`Twins.inserts` and `Twins.removes` for the shifts that it is made of.
-/

namespace LuaData.Table

variable {hash hash' : Value → UInt64} {m m' n n' : Moment} {c c' : Course} {t t' u u' : Table}
  {key value : Value}

/-- Plain tables of the same sizes with the same values, each with its own hash and at its own
moment. -/
structure Twins (hash hash' : Value → UInt64) (m m' : Moment) (t t' : Table) : Prop where
  left : t.Plain hash m
  right : t'.Plain hash' m'
  array_size : t'.array.size = t.array.size
  buckets_size : t'.buckets.size = t.buckets.size
  values : ∀ key, t'.valueOf hash' key = t.valueOf hash key

/-- The answers are the same, and the tables that come with them are twins. -/
def Alike {α : Type} (hash hash' : Value → UInt64) (m m' : Moment) (r r' : α × Table) : Prop :=
  r'.1 = r.1 ∧ Twins hash hash' m m' r.2 r'.2

/-- A key in stored form and a value that have been named: what may be written. -/
structure Writable (fresh : Ref) (key value : Value) : Prop where
  stored : key.Stored
  key_named : key.Named fresh
  value_named : value.Named fresh

/-- What may be written may be written later. -/
theorem Writable.later (h : Writable m.fresh key value) (hle : m ≤ n) :
    Writable n.fresh key value :=
  ⟨h.stored, h.key_named.mono (Moment.fresh_le hle), h.value_named.mono (Moment.fresh_le hle)⟩

/-- Plain tables of the same sizes are twins if they have the same values under stored keys. -/
theorem twins_of_get (hu : u.Plain hash m) (hu' : u'.Plain hash' m')
    (harray : u'.array.size = u.array.size) (hbuckets : u'.buckets.size = u.buckets.size)
    (hget : ∀ k : Value, k.Stored →
      u'.get (m'.context hash') k = u.get (m.context hash) k) : Twins hash hash' m m' u u' := by
  refine ⟨hu, hu', harray, hbuckets, fun key ↦ ?_⟩
  rw [← hu.get_eq m, ← hu'.get_eq m']
  cases hkey : key.key? with
  | none => rw [get_of_key?_none _ _ hkey, get_of_key?_none _ _ hkey]
  | some k =>
    rw [get_of_key? _ _ hkey, get_of_key? _ _ hkey]
    exact hget k (Value.stored_of_key? hkey)

namespace Twins

/-- The two can be exchanged. -/
theorem symm (h : Twins hash hash' m m' t t') : Twins hash' hash m' m t' t :=
  ⟨h.right, h.left, h.array_size.symm, h.buckets_size.symm, fun key ↦ (h.values key).symm⟩

/-- Twins stay twins. -/
theorem later (h : Twins hash hash' m m' t t') (hle : m ≤ n) (hle' : m' ≤ n') :
    Twins hash hash' n n' t t' :=
  ⟨h.left.later hle, h.right.later hle', h.array_size, h.buckets_size, h.values⟩

/-- Twins have the same values, whatever is alive. -/
theorem get_eq (h : Twins hash hash' m m' t t') (n n' : Moment) (key : Value) :
    t'.get (n'.context hash') key = t.get (n.context hash) key := by
  rw [h.left.get_eq, h.right.get_eq, h.values]

/-- The array parts of twins are the same. -/
theorem array_eq (h : Twins hash hash' m m' t t') (hsize : t.array.size < 2 ^ 63) :
    t'.array = t.array := by
  have hgetD : ∀ i, i < t.array.size → t'.array.getD i .nil = t.array.getD i .nil := by
    intro i hi
    have hk : (Int64.ofNat (i + 1)).toInt = i + 1 := toInt_ofNat_succ (by omega)
    have hget := h.get_eq m m' (.int (Int64.ofNat (i + 1)))
    rw [get_int, get_int, hk, h.array_size, if_pos (by omega), if_pos (by omega)] at hget
    exact hget
  apply Array.ext h.array_size
  intro i hi' hi
  have := hgetD i hi
  simpa [Array.getD_eq_getD_getElem?, hi, hi'] using this

/-- The hash parts of twins list the same, in some order. -/
theorem hashListing_perm (h : Twins hash hash' m m' t t') (hhash : Value.RespectsEq hash)
    (hhash' : Value.RespectsEq hash') :
    (t'.hashListing (m'.context hash')).Perm (t.hashListing (m.context hash)) := by
  rw [List.perm_ext_iff_of_nodup h.right.hashListing_nodup h.left.hashListing_nodup]
  intro e
  obtain ⟨k, v⟩ := e
  rw [h.left.mem_hashListing_iff hhash, h.right.mem_hashListing_iff hhash',
    index?_congr h.array_size, h.values]

/-- The same room is taken in the hash parts of twins. -/
theorem used_eq (h : Twins hash hash' m m' t t') (hhash : Value.RespectsEq hash)
    (hhash' : Value.RespectsEq hash') : t'.arena.used = t.arena.used := by
  have hlength := (h.hashListing_perm hhash hhash').length_eq
  simpa only [hashListing, List.length_map, ← h.left.used_eq, ← h.right.used_eq] using hlength

/-- The hash parts of twins have the same number of entries. -/
theorem live_eq (h : Twins hash hash' m m' t t') (hhash : Value.RespectsEq hash)
    (hhash' : Value.RespectsEq hash') : t'.arena.live = t.arena.live := by
  rw [← h.left.used_eq_live, ← h.right.used_eq_live, h.used_eq hhash hhash']

/-- Twins have a slot for the same keys. -/
theorem slot?_eq_none_iff (h : Twins hash hash' m m' t t') (hhash : Value.RespectsEq hash)
    (hhash' : Value.RespectsEq hash') (hkey : key.Stored) (hindex : t.index? key = none) :
    t'.slot? (m'.context hash') key = none ↔ t.slot? (m.context hash) key = none := by
  rw [h.left.slot?_eq_none_iff hhash hkey hindex,
    h.right.slot?_eq_none_iff hhash' hkey (by rwa [index?_congr h.array_size]), h.values]

/-- A write goes to the same place of twins. -/
theorem destination_eq (h : Twins hash hash' m m' t t') (hhash : Value.RespectsEq hash)
    (hhash' : Value.RespectsEq hash') (hkey : key.Stored) (value : Value) :
    t'.destination (m'.context hash') key value = t.destination (m.context hash) key value := by
  unfold destination
  split
  · rename_i k
    have hindex : t'.arrayIndex? k = t.arrayIndex? k := index?_congr h.array_size (.int k)
    rw [hindex]
    cases hk : t.arrayIndex? k with
    | some i => rfl
    | none =>
      have hslot := h.slot?_eq_none_iff hhash hhash' hkey hk
      have hholds : t'.hashHolds (m'.context hash') (.int k) =
          t.hashHolds (m.context hash) (.int k) := by
        show (t'.slot? (m'.context hash') (.int k)).isSome =
          (t.slot? (m.context hash) (.int k)).isSome
        rw [Bool.eq_iff_iff, Option.isSome_iff_ne_none, Option.isSome_iff_ne_none]
        exact not_congr hslot
      simp only [hholds, h.array_size, h.left.mode, h.right.mode]
  · rfl

/-- Writes that leave array parts of the same size leave twins. -/
theorem placed (h : Twins hash hash' m m' t t') (hhash : Value.RespectsEq hash)
    (hhash' : Value.RespectsEq hash') (hp : Writable m.fresh key value)
    (hp' : Writable m'.fresh key value) (hsize : t.array.size ≤ 2 ^ 62)
    (hplaced : Placed hash m t key value u) (hplaced' : Placed hash' m' t' key value u')
    (harray : (∀ k : Value, k.Stored → u'.get (m'.context hash') k = u.get (m.context hash) k) →
      u'.array.size = u.array.size) : Twins hash hash' m m' u u' := by
  obtain ⟨hu, hbuckets, hupdated⟩ :=
    h.left.placed hhash hp.stored hp.key_named hp.value_named hsize hplaced
  obtain ⟨hu', hbuckets', hupdated'⟩ :=
    h.right.placed hhash' hp'.stored hp'.key_named hp'.value_named (h.array_size ▸ hsize) hplaced'
  have hget : ∀ k : Value, k.Stored →
      u'.get (m'.context hash') k = u.get (m.context hash) k := by
    intro k hk
    rw [hupdated k hk, hupdated' k hk, h.get_eq m m']
  exact twins_of_get hu hu' (harray hget) (hbuckets'.trans (h.buckets_size.trans hbuckets.symm))
    hget

end Twins

/-- A write to a slot in use leaves the array part. -/
theorem Placed.array_of_slot? {i : Nat} (h : Placed hash m t key value u)
    (hindex : t.index? key = none) (hslot : t.slot? (m.context hash) key = some i) :
    u.array = t.array := by
  cases h with
  | inArray hindex' => exact absurd (hindex.symm.trans hindex') nofun
  | appended _ _ _ _ hslot' => exact absurd (hslot.symm.trans hslot') nofun
  | unchanged => rfl
  | buried => rfl
  | dropped => rfl
  | assigned => rfl
  | inserted _ _ hslot' => exact absurd (hslot.symm.trans hslot') nofun

namespace Twins

/-- A write to the hash parts of twins: both are done, or both are full, or neither has a name for
another slot. -/
theorem placeInHash (h : Twins hash hash' m m' t t') (hhash : Value.RespectsEq hash)
    (hhash' : Value.RespectsEq hash') (hp : Writable m.fresh key value)
    (hp' : Writable m'.fresh key value) (hsize : t.array.size ≤ 2 ^ 62)
    (hindex : t.index? key = none) :
    (∃ u u', t.placeInHash (m.context hash) key value = .ok (.stored u) ∧
      t'.placeInHash (m'.context hash') key value = .ok (.stored u') ∧
      Twins hash hash' m m' u u') ∨
    (t.placeInHash (m.context hash) key value = .ok (.full t) ∧
      t'.placeInHash (m'.context hash') key value = .ok (.full t')) ∨
    (t.placeInHash (m.context hash) key value = .error (.fault .noSlot) ∧
      t'.placeInHash (m'.context hash') key value = .error (.fault .noSlot)) := by
  have hindex' : t'.index? key = none := by rwa [index?_congr h.array_size]
  have hiff := h.slot?_eq_none_iff hhash hhash' hp.stored hindex
  have hused := h.used_eq hhash hhash'
  rw [placeInHash_eq, placeInHash_eq]
  cases hslot : t.slot? (m.context hash) key with
  | some i =>
    cases hslot' : t'.slot? (m'.context hash') key with
    | none => exact absurd (hslot.symm.trans (hiff.mp hslot')) nofun
    | some i' =>
      obtain ⟨u, hu, hplaced⟩ := h.left.sound.writeSlot hhash hp.stored value hindex hslot
      obtain ⟨u', hu', hplaced'⟩ := h.right.sound.writeSlot hhash' hp.stored value hindex' hslot'
      refine .inl ⟨u, u', by simp [hu], by simp [hu'], ?_⟩
      refine h.placed hhash hhash' hp hp' hsize hplaced hplaced' fun _ ↦ ?_
      rw [hplaced.array_of_slot? hindex hslot, hplaced'.array_of_slot? hindex' hslot', h.array_size]
  | none =>
    have hslot' := hiff.mpr hslot
    rw [hslot']
    by_cases hnil : value = .nil
    · exact .inl ⟨t, t', by simp [hnil, Value.isNil], by simp [hnil, Value.isNil], h⟩
    · have hfalse := Value.isNil_eq_false hnil
      by_cases hfull : t.buckets.size ≤ t.arena.used
      · have hfull' : t'.buckets.size ≤ t'.arena.used := by rwa [h.buckets_size, hused]
        exact .inr (.inl ⟨by simp [hfalse, hfull], by simp [hfalse, hfull']⟩)
      · have hfull' : ¬ t'.buckets.size ≤ t'.arena.used := by rwa [h.buckets_size, hused]
        have hroom : t.arena.used < t.buckets.size := Nat.lt_of_not_le hfull
        have hroom' : t'.arena.used < t'.buckets.size := Nat.lt_of_not_le hfull'
        rcases h.left.sound.insertFresh key value hroom with ⟨i, u, hu, hins⟩ | ⟨herr, hnames⟩
        · rcases h.right.sound.insertFresh key value hroom' with
            ⟨i', u', hu', hins'⟩ | ⟨-, hnames'⟩
          · refine .inl ⟨u, u', by simp [hfalse, hfull, hu], by simp [hfalse, hfull', hu'], ?_⟩
            refine h.placed hhash hhash' hp hp' hsize (.inserted hindex hnil hslot hroom hins)
              (.inserted hindex' hnil hslot' hroom' hins') fun _ ↦ ?_
            rw [hins.array, hins'.array, h.array_size]
          · have := hins.used_lt h.left.sound
            omega
        · rcases h.right.sound.insertFresh key value hroom' with
            ⟨i', u', hu', hins'⟩ | ⟨herr', -⟩
          · have := hins'.used_lt h.right.sound
            omega
          · exact .inr (.inr ⟨by simp [hfalse, hfull, herr], by simp [hfalse, hfull', herr']⟩)

end Twins

/-- An attempt to write to a plain table places the value at once. -/
theorem Plain.tryStore_eq (h : t.Plain hash m) (n : Moment) (key value : Value) :
    t.tryStore hash m n key value =
      match t.place (n.context hash) key value with
      | .error e => (.error e, t)
      | .ok (.stored u) => (.ok true, u)
      | .ok (.full u) => (.ok false, u) := by
  unfold tryStore
  exact h.makeReady key value ▸ rfl

namespace Twins

/-- An attempt to write to twins. -/
theorem tryStore (h : Twins hash hash' m m' t t') (hhash : Value.RespectsEq hash)
    (hhash' : Value.RespectsEq hash') (hle : m ≤ n) (hle' : m' ≤ n')
    (hp : Writable n.fresh key value) (hp' : Writable n'.fresh key value)
    (hsize : t.array.size ≤ 2 ^ 62) :
    Alike hash hash' n n' (t.tryStore hash m n key value) (t'.tryStore hash' m' n' key value) := by
  rw [h.left.tryStore_eq, h.right.tryStore_eq]
  replace h := h.later hle hle'
  have hsize' : t'.array.size ≤ 2 ^ 62 := h.array_size ▸ hsize
  have hdestination := h.destination_eq hhash hhash' hp.stored value
  rcases destination_cases hash n t key value with
    ⟨i, hindex, hd⟩ | ⟨k, rfl, hk, hvalue, hmode, hslot, hd⟩ | ⟨hindex, hd⟩
  · have hindex' : t'.index? key = some i := by rwa [index?_congr h.array_size]
    simp only [place, hd, hdestination, pure, Except.pure]
    refine ⟨rfl, h.placed hhash hhash' hp hp' hsize (.inArray hindex) (.inArray hindex') fun _ ↦ ?_⟩
    rw [Array.size_setIfInBounds, Array.size_setIfInBounds, h.array_size]
  · -- Both array parts take the value and then go on to the first key without one.
    have hindex : t.index? (.int k) = none := by
      show t.arrayIndex? k = none
      unfold arrayIndex?
      exact if_neg (by omega)
    have hk' : k.toInt = t'.array.size + 1 := by rw [h.array_size, hk]
    have hmode' : t'.mode.values = false := by rw [h.right.mode]; rfl
    have hslot' := (h.slot?_eq_none_iff hhash hhash' hp.stored hindex).mpr hslot
    obtain ⟨u, hu, -, -, -, -, -, hextent⟩ :=
      h.left.sound.pushBack hhash hmode hsize hk hp.value_named hslot
    obtain ⟨u', hu', -, -, -, -, -, hextent'⟩ :=
      h.right.sound.pushBack hhash' hmode' hsize' hk' hp'.value_named hslot'
    simp only [place, hd, hdestination, hu, hu', bind, Except.bind, pure, Except.pure]
    refine ⟨rfl, h.placed hhash hhash' hp hp' hsize (.appended rfl hk hvalue hmode hslot hu)
      (.appended rfl hk' hvalue hmode' hslot' hu') fun hget ↦ ?_⟩
    have hend := (hextent h.left.anchored).congr fun k ↦ hget _ (Value.stored_int k)
    have hend' := hextent' h.right.anchored
    rw [h.array_size] at hend'
    exact hend'.unique hend
  · simp only [place, hd, hdestination]
    rcases h.placeInHash hhash hhash' hp hp' hsize hindex with
      ⟨u, u', hu, hu', htwins⟩ | ⟨hu, hu'⟩ | ⟨hu, hu'⟩
    · simp only [hu, hu']
      exact ⟨rfl, htwins⟩
    · simp only [hu, hu']
      exact ⟨rfl, h⟩
    · simp only [hu, hu']
      exact ⟨rfl, h⟩

/-! ## Rehashing -/

/-- A rehash counts the same keys of twins. -/
theorem rehashKeys_perm (h : Twins hash hash' m m' t t') (hhash : Value.RespectsEq hash)
    (hhash' : Value.RespectsEq hash') (hsize : t.array.size < 2 ^ 63) (extra : Option Value) :
    ((t'.rehashKeys (m'.context hash') extra).map Value.content).Perm
      ((t.rehashKeys (m.context hash) extra).map Value.content) := by
  have hkeys : ∀ (ctx : Context) (t : Table), (t.rehashKeys ctx extra).map Value.content =
      (t.arrayEntries.map Prod.fst).map Value.content ++
        ((t.hashListing ctx).map Prod.fst ++ extra.toList.map Value.content) := by
    intro ctx t
    simp only [rehashKeys, hashListing, List.map_append, List.map_map]
    rfl
  have harray : t'.arrayEntries = t.arrayEntries := by
    rw [arrayEntries, arrayEntries, h.array_eq hsize]
  rw [hkeys, hkeys, harray]
  exact (((h.hashListing_perm hhash hhash').map _).append_right _).append_left _

end Twins

/-- Whether the array part may hold a key depends on its content. -/
theorem arrayCandidate?_content (key : Value) :
    arrayCandidate? key.content = arrayCandidate? key := by
  cases key <;> rfl

/-- The size of the new array part depends on the contents of the keys. -/
theorem newArraySize_eq (ctx : Context) (t : Table) (extra : Option Value)
    (hmode : t.mode.values = false) :
    t.newArraySize ctx extra = (arraySizeFor
      (((t.rehashKeys ctx extra).map Value.content).filterMap arrayCandidate?)).1 := by
  rw [newArraySize, hmode, List.filterMap_map]
  simp only [Bool.false_eq_true, if_false, Function.comp_def, arrayCandidate?_content]

/-- The number of keys for the new hash part depends on the contents of the keys. -/
theorem newHashCount_eq (ctx : Context) (t : Table) (extra : Option Value) :
    t.newHashCount ctx extra =
      ((t.rehashKeys ctx extra).map Value.content).countP (outside (t.newArraySize ctx extra)) := by
  rw [newHashCount, List.countP_map]
  refine List.countP_congr fun k _ ↦ ?_
  rw [Function.comp_apply, outside, outside, arrayCandidate?_content]

/-- A table that was rebuilt in its mode was not too large. -/
theorem Rebuilt.hashSizeFor_le {extra : Option Value} (h : Rebuilt hash m t t.mode extra u) :
    hashSizeFor (t.newHashCount (m.context hash) extra) ≤ 2 ^ maxHashBits := by
  have hsize : u.buckets.size = hashSizeFor (t.newHashCount (m.context hash) extra) :=
    h.buckets_size
  exact hsize ▸ h.buckets_le

namespace Twins

/-- Twins are given the same sizes. -/
theorem newSizes_eq (h : Twins hash hash' m m' t t') (hhash : Value.RespectsEq hash)
    (hhash' : Value.RespectsEq hash') (hsize : t.array.size < 2 ^ 63) (extra : Option Value) :
    t'.newArraySize (m'.context hash') extra = t.newArraySize (m.context hash) extra ∧
      t'.newHashCount (m'.context hash') extra = t.newHashCount (m.context hash) extra := by
  have hperm := h.rehashKeys_perm hhash hhash' hsize extra
  have harray : t'.newArraySize (m'.context hash') extra =
      t.newArraySize (m.context hash) extra := by
    rw [newArraySize_eq _ _ _ (congrArg WeakMode.values h.right.mode),
      newArraySize_eq _ _ _ (congrArg WeakMode.values h.left.mode),
      arraySizeFor_perm (hperm.filterMap _)]
  exact ⟨harray, by rw [newHashCount_eq, newHashCount_eq, harray, hperm.countP_eq]⟩

/-- A rehash is refused for both twins, or it rebuilds them as twins. -/
theorem rehash (h : Twins hash hash' m m' t t') (hhash : Value.RespectsEq hash)
    (hhash' : Value.RespectsEq hash') (hsize : t.array.size ≤ 2 ^ 31) (key : Value) :
    (t.rehash (m.context hash) (some key) = .error .tableOverflow ∧
      t'.rehash (m'.context hash') (some key) = .error .tableOverflow) ∨
    ∃ u u', t.rehash (m.context hash) (some key) = .ok u ∧
      t'.rehash (m'.context hash') (some key) = .ok u' ∧ u.array.size ≤ 2 ^ 31 ∧
      Twins hash hash' m m' u u' := by
  obtain ⟨harray, hcount⟩ := h.newSizes_eq hhash hhash' (by omega) (some key)
  have hright := h.right.sound.rehash hhash' (h.array_size ▸ hsize) t'.mode (some key)
  -- One count decides for both twins whether the new hash part would be too large.
  rcases h.left.sound.rehash hhash hsize t.mode (some key) with ⟨herr, hover⟩ | ⟨u, hu, hrebuilt⟩
  · rcases hright with ⟨herr', -⟩ | ⟨u', -, hrebuilt'⟩
    · exact .inl ⟨herr, herr'⟩
    · have hle := hrebuilt'.hashSizeFor_le
      rw [hcount] at hle
      exact absurd hover (Nat.not_lt.mpr hle)
  · rcases hright with ⟨-, hover'⟩ | ⟨u', hu', hrebuilt'⟩
    · have hover'' : 2 ^ maxHashBits <
          hashSizeFor (t'.newHashCount (m'.context hash') (some key)) := hover'
      rw [hcount] at hover''
      exact absurd hover'' (Nat.not_lt.mpr hrebuilt.hashSizeFor_le)
    · refine .inr ⟨u, u', hu, hu', hrebuilt.array_le, twins_of_get ?_ ?_ ?_ ?_ ?_⟩
      · exact ⟨hrebuilt.sound, hrebuilt.mode_eq.trans h.left.mode, hrebuilt.anchored⟩
      · exact ⟨hrebuilt'.sound, hrebuilt'.mode_eq.trans h.right.mode, hrebuilt'.anchored⟩
      · rw [hrebuilt.array_size, hrebuilt'.array_size]
        exact harray
      · rw [hrebuilt.buckets_size, hrebuilt'.buckets_size]
        exact congrArg hashSizeFor hcount
      · intro k hk
        rw [hrebuilt.same_of_mode h.left.sound hhash k hk,
          hrebuilt'.same_of_mode h.right.sound hhash' k hk, h.get_eq m m']

/-! ## Writing -/

/-- A write under a stored key has the same outcome for twins. -/
theorem storeKey (h : Twins hash hash' m m' t t') (hhash : Value.RespectsEq hash)
    (hhash' : Value.RespectsEq hash') (hle : m ≤ c.clear) (hle' : m' ≤ c'.clear)
    (hp : Writable m.fresh key value) (hp' : Writable m'.fresh key value)
    (hsize : t.array.size ≤ 2 ^ 31) :
    Alike hash hash' c.last c'.last (t.storeKey hash c key value)
      (t'.storeKey hash' c' key value) := by
  replace h := h.later hle hle'
  replace hp := hp.later hle
  replace hp' := hp'.later hle'
  have hfirst := h.tryStore hhash hhash' c.clear_le c'.clear_le (hp.later c.clear_le)
    (hp'.later c'.clear_le) (by omega)
  have hattempt := h.left.sound.tryStore_cases c.clear_le hhash hp.stored
    (hp.later c.clear_le).value_named (by omega)
  unfold Table.storeKey
  generalize t.tryStore hash c.clear c.place key value = attempt at hfirst hattempt ⊢
  generalize t'.tryStore hash' c'.clear c'.place key value = attempt' at hfirst ⊢
  obtain ⟨r, w⟩ := attempt
  obtain ⟨r', w'⟩ := attempt'
  obtain ⟨rfl, hw⟩ : r' = r ∧ Twins hash hash' c.place c'.place w w' := hfirst
  cases r' with
  | error e => exact ⟨rfl, hw.later c.place_le_last c'.place_le_last⟩
  | ok stored =>
    cases stored with
    | true => exact ⟨rfl, hw.later c.place_le_last c'.place_le_last⟩
    | false =>
      have hwsize : w.array.size ≤ 2 ^ 31 := (hattempt.cleared nofun).2.array ▸ hsize
      rcases hw.rehash hhash hhash' hwsize key with ⟨herr, herr'⟩ | ⟨v, v', hv, hv', hvsize, htwins⟩
      · simp only [herr, herr']
        exact ⟨rfl, hw.later c.place_le_last c'.place_le_last⟩
      · simp only [hv, hv']
        have hsecond := (htwins.later c.place_le c'.place_le).tryStore hhash hhash'
          c.clearAgain_le c'.clearAgain_le (hp.later c.clear_le_last) (hp'.later c'.clear_le_last)
          (by omega)
        generalize v.tryStore hash c.clearAgain c.placeAgain key value = attempt at hsecond ⊢
        generalize v'.tryStore hash' c'.clearAgain c'.placeAgain key value = attempt' at hsecond ⊢
        obtain ⟨r, x⟩ := attempt
        obtain ⟨r', x'⟩ := attempt'
        obtain ⟨rfl, hx⟩ : r' = r ∧ Twins hash hash' c.last c'.last x x' := hsecond
        cases r' with
        | error e => exact ⟨rfl, hx⟩
        | ok stored => cases stored <;> exact ⟨rfl, hx⟩

/-- A write has the same outcome for twins. -/
theorem store (h : Twins hash hash' m m' t t') (hhash : Value.RespectsEq hash)
    (hhash' : Value.RespectsEq hash') (hle : m ≤ c.clear) (hle' : m' ≤ c'.clear)
    (hnamed : key.Named m.fresh) (hnamed' : key.Named m'.fresh)
    (hvalueNamed : value.Named m.fresh) (hvalueNamed' : value.Named m'.fresh)
    (hsize : t.array.size ≤ 2 ^ 31) :
    Alike hash hash' c.last c'.last (t.store hash c key value) (t'.store hash' c' key value) := by
  unfold Table.store storedKey
  cases hkey : key.key? with
  | none => exact ⟨rfl, h.later (hle.trans c.clear_le_last) (hle'.trans c'.clear_le_last)⟩
  | some k =>
    have hstored := Value.stored_of_key? hkey
    exact h.storeKey hhash hhash' hle hle' ⟨hstored, named_of_key? hkey hnamed, hvalueNamed⟩
      ⟨hstored, named_of_key? hkey hnamed', hvalueNamed'⟩ hsize

/-- Copying a value has the same outcome for twins. -/
theorem copy (h : Twins hash hash' m m' t t') (hhash : Value.RespectsEq hash)
    (hhash' : Value.RespectsEq hash') (hle : m ≤ c.clear) (hle' : m' ≤ c'.clear)
    (hsize : t.array.size ≤ 2 ^ 31) (job : Nat × Nat) :
    Alike hash hash' c.last c'.last (t.copy hash m c job) (t'.copy hash' m' c' job) := by
  have hvalue : t'.getInt (m'.context hash') (Int64.ofNat job.1) =
      t.getInt (m.context hash) (Int64.ofNat job.1) := h.get_eq m m' (.int (Int64.ofNat job.1))
  have hnamed := h.left.sound.get_named hhash (.int (Int64.ofNat job.1))
  have hnamed' := h.right.sound.get_named hhash' (.int (Int64.ofNat job.1))
  rw [h.get_eq m m'] at hnamed'
  unfold Table.copy
  rw [hvalue]
  exact h.storeKey hhash hhash' hle hle' ⟨Value.stored_int _, nofun, hnamed⟩
    ⟨Value.stored_int _, nofun, hnamed'⟩ hsize

/-- The same copies leave twins. -/
theorem copies {jobs : List (Nat × Nat)} (h : Twins hash hash' m m' t t')
    (hhash : Value.RespectsEq hash) (hhash' : Value.RespectsEq hash')
    (hcopies : Copies hash jobs m t n u) (hcopies' : Copies hash' jobs m' t' n' u') :
    Twins hash hash' n n' u u' := by
  induction hcopies generalizing m' t' with
  | done m t =>
    cases hcopies'
    exact h
  | @step job _ _ _ _ _ _ _ hle hsize hcopy _ ih =>
    cases hcopies' with
    | step hle' _ hcopy' hrest' =>
      have halike := h.copy hhash hhash' hle hle' hsize job
      rw [hcopy, hcopy'] at halike
      exact ih halike.2 hrest'

/-- Copies in one of the twins can be made in the other at the same moments. -/
theorem exists_copies {jobs : List (Nat × Nat)} (h : Twins hash hash' m m t t')
    (hhash : Value.RespectsEq hash) (hhash' : Value.RespectsEq hash')
    (hcopies : Copies hash jobs m t n u) :
    ∃ u', Copies hash' jobs m t' n u' ∧ Twins hash hash' n n u u' := by
  induction hcopies generalizing t' with
  | done m t => exact ⟨t', .done m t', h⟩
  | @step job _ m _ c _ _ _ hle hsize hcopy _ ih =>
    have halike := h.copy hhash hhash' hle hle hsize job
    rw [hcopy] at halike
    have hcopy' : t'.copy hash' m c job = (.ok (), (t'.copy hash' m c job).2) :=
      Prod.ext halike.1 rfl
    obtain ⟨u', hcopies', htwins⟩ := ih halike.2
    exact ⟨u', .step hle (h.array_size ▸ hsize) hcopy' hcopies', htwins⟩

end Twins

/-- Copies are made one after the other. -/
theorem Copies.split {made rest : List (Nat × Nat)} (h : Copies hash (made ++ rest) m t n u) :
    ∃ o w, Copies hash made m t o w ∧ Copies hash rest o w n u := by
  induction made generalizing m t with
  | nil => exact ⟨m, t, .done m t, h⟩
  | cons job made ih =>
    cases h with
    | step hle hsize hcopy hrest =>
      obtain ⟨o, w, hmade, hrest⟩ := ih hrest
      exact ⟨o, w, .step hle hsize hcopy hmade, hrest⟩

namespace Twins

/-- A copy that fails for one of the twins is not made for the other. -/
theorem not_copied {made rest : List (Nat × Nat)} {job : Nat × Nat} {e : Error} {w : Table}
    (h : Twins hash hash' m m' t t') (hhash : Value.RespectsEq hash)
    (hhash' : Value.RespectsEq hash') (hcopies : Copies hash made m t n u) (hle : n ≤ c.clear)
    (hsize : u.array.size ≤ 2 ^ 31) (hcopy : u.copy hash n c job = (.error e, w))
    (hcopies' : Copies hash' (made ++ job :: rest) m' t' n' u') : False := by
  obtain ⟨o', v', hmade', hrest'⟩ := hcopies'.split
  cases hrest' with
  | step hle' _ hcopy' _ =>
    have halike := (h.copies hhash hhash' hcopies hmade').copy hhash hhash' hle hle' hsize job
    rw [hcopy, hcopy'] at halike
    exact absurd halike.1 nofun

/-- Copies that stop do not go further for the other twin. -/
theorem stopped_of_append {made more rest rest' : List (Nat × Nat)} {job job' : Nat × Nat}
    {e e' : Error} {w w' : Table} (h : Twins hash hash' m m' t t') (hhash : Value.RespectsEq hash)
    (hhash' : Value.RespectsEq hash') (hmore : job :: rest = more ++ job' :: rest')
    (hcopies : Copies hash made m t n u) (hcopies' : Copies hash' (made ++ more) m' t' n' u')
    (hle : n ≤ c.clear) (hle' : n' ≤ c'.clear) (hsize : u.array.size ≤ 2 ^ 31)
    (hcopy : u.copy hash n c job = (.error e, w))
    (hcopy' : u'.copy hash' n' c' job' = (.error e', w')) :
    e' = e ∧ Twins hash hash' c.last c'.last w w' := by
  cases more with
  | nil =>
    obtain ⟨rfl, -⟩ := List.cons.inj (hmore : job :: rest = job' :: rest')
    rw [List.append_nil] at hcopies'
    have halike := (h.copies hhash hhash' hcopies hcopies').copy hhash hhash' hle hle' hsize job
    rw [hcopy, hcopy'] at halike
    exact ⟨Except.error.inj halike.1, halike.2⟩
  | cons job'' more =>
    obtain ⟨rfl, -⟩ := List.cons.inj (hmore : job :: rest = job'' :: (more ++ job' :: rest'))
    exact (h.not_copied hhash hhash' hcopies hle hsize hcopy hcopies').elim

/-- Copies that stop stop at the same one for twins. -/
theorem stopped {made made' rest rest' : List (Nat × Nat)} {job job' : Nat × Nat}
    {e e' : Error} {w w' : Table} (h : Twins hash hash' m m' t t') (hhash : Value.RespectsEq hash)
    (hhash' : Value.RespectsEq hash') (hjobs : made ++ job :: rest = made' ++ job' :: rest')
    (hcopies : Copies hash made m t n u) (hcopies' : Copies hash' made' m' t' n' u')
    (hle : n ≤ c.clear) (hle' : n' ≤ c'.clear) (hsize : u.array.size ≤ 2 ^ 31)
    (hsize' : u'.array.size ≤ 2 ^ 31) (hcopy : u.copy hash n c job = (.error e, w))
    (hcopy' : u'.copy hash' n' c' job' = (.error e', w')) :
    e' = e ∧ Twins hash hash' c.last c'.last w w' := by
  rcases List.append_eq_append_iff.mp hjobs with ⟨more, rfl, hmore⟩ | ⟨more, rfl, hmore⟩
  · exact h.stopped_of_append hhash hhash' hmore hcopies hcopies' hle hle' hsize hcopy hcopy'
  · obtain ⟨he, hw⟩ := h.symm.stopped_of_append hhash' hhash hmore hcopies' hcopies hle' hle hsize'
      hcopy' hcopy
    exact ⟨he.symm, hw.symm⟩

end Twins

end LuaData.Table
