import LuaData.Proofs.Keeping

/-!
# Plain tables

A table is plain while nothing in it is weak and no enumeration is on the way. Every slot in use
then has an entry, so that the hash part can be described without its chains: which keys it has
(`Plain.mem_hashListing_iff`), how much room they take (`Plain.used_eq`) and whether there is a slot
for a key (`Plain.slot?_eq_none_iff`) are read off the values of the keys and the size of the array
part. `Plain.exists_absent` bounds the search for a border in the same terms.
-/

namespace LuaData.Table

variable {hash : Value → UInt64} {m n : Moment} {t u : Table} {key value : Value}

/-- A well-formed table in which nothing is weak and in which no enumeration is on the way. -/
structure Plain (hash : Value → UInt64) (m : Moment) (t : Table) : Prop where
  sound : t.Sound hash m
  mode : t.mode = .strong
  anchored : t.anchored = false

/-- The entries of the hash part with their keys in normal form. -/
def hashListing (ctx : Context) (t : Table) : List (Value × Value) :=
  (t.hashEntries ctx).map fun e ↦ (e.1.content, e.2)

/-- The linked slots are those in use. -/
theorem Sound.length_linked (hs : t.Sound hash m) : t.linked.length = t.arena.used := by
  have hperm := hs.linked_append_free_perm.length_eq
  have hused := hs.arena.used_add_length_free
  rw [List.length_append, List.length_range] at hperm
  omega

/-- Names of slots are left if an entry is added. -/
theorem Inserted.used_lt {i : Nat} (h : t.Inserted hash key value i u) (hs : t.Sound hash m) :
    t.arena.used < 2 ^ 32 := by
  have hnames := h.added.size_le_names
  have hsize := h.added.sound.used_add_length_free
  have hused := h.added.used_eq
  have := hs.size_le_names
  omega

/-- A new table is plain. -/
theorem plain_withHashSize (hash : Value → UInt64) (m : Moment) (hint : Nat) :
    (withHashSize hint).Plain hash m :=
  ⟨sound_withHashSize hash m hint, rfl, rfl⟩

namespace Plain

/-- A plain table stays plain. -/
theorem later (h : t.Plain hash m) (hle : m ≤ n) : t.Plain hash n :=
  ⟨h.sound.later hle, h.mode, h.anchored⟩

/-- What leaves the frame of a plain table leaves a plain table. -/
theorem of_frame (h : t.Plain hash m) (hu : u.Sound hash n) (hframe : Frame t u) :
    u.Plain hash n :=
  ⟨hu, hframe.mode.trans h.mode, hframe.anchored.trans h.anchored⟩

/-- The values do not depend on what is alive. -/
theorem get_eq (h : t.Plain hash m) (n : Moment) (key : Value) :
    t.get (n.context hash) key = t.valueOf hash key :=
  h.sound.get_eq_valueOf h.mode n.alive key

/-- The values of the hash part do not depend on what is alive. -/
theorem getFromHash_eq (h : t.Plain hash m) (hkey : key.Stored) (hindex : t.index? key = none) :
    t.getFromHash (m.context hash) key = t.valueOf hash key := by
  rw [← h.get_eq m, get_of_stored _ _ hkey, hindex]

/-- There are no dead slots. -/
theorem dead_eq_zero (h : t.Plain hash m) : t.arena.dead = 0 :=
  h.sound.unanchored h.anchored

/-- The slots in use are live. -/
theorem used_eq_live (h : t.Plain hash m) : t.arena.used = t.arena.live := by
  rw [Arena.used, h.dead_eq_zero, Nat.add_zero]

/-- A slot in use has an entry. -/
theorem exists_binding? (h : t.Plain hash m) {i : Nat} (hi : t.arena.state i ≠ .free) :
    ∃ e, t.arena.binding? m.alive i = some e := by
  cases hstate : t.arena.state i with
  | live key value => exact ⟨_, h.sound.binding?_of_live h.mode hstate⟩
  | dead key => exact absurd hstate (h.sound.state_ne_dead h.anchored i key)
  | free => exact absurd hstate hi

/-- Every slot in use is listed. -/
theorem used_eq (h : t.Plain hash m) :
    t.arena.used = (t.hashEntries (m.context hash)).length := by
  have hall : ∀ i ∈ t.linked, (t.arena.binding? m.alive i).isSome = true := by
    intro i hi
    obtain ⟨e, he⟩ := h.exists_binding? (h.sound.mem_linked_iff.mp hi)
    rw [he]
    rfl
  rw [hashEntries_eq, List.length_filterMap_eq_countP, Moment.context_alive,
    List.countP_eq_length.mpr hall, h.sound.length_linked]

/-- There is a slot for a key if the key has a value. -/
theorem slot?_eq_none_iff (h : t.Plain hash m) (hhash : Value.RespectsEq hash) (hkey : key.Stored)
    (hindex : t.index? key = none) :
    t.slot? (m.context hash) key = none ↔ t.valueOf hash key = .nil := by
  rw [← h.getFromHash_eq hkey hindex]
  constructor
  · intro hslot
    rw [h.sound.getFromHash_eq hhash hkey, hslot]
    rfl
  · intro hnil
    rw [h.sound.slot?_eq_none_iff hhash hkey]
    intro i k hk hcontent
    -- The slot would have an entry, and entries have values.
    obtain ⟨⟨k', v⟩, hentry⟩ := h.exists_binding? (Arena.state_ne_free_of_key? hk)
    obtain ⟨hk', hv⟩ := Arena.binding?_eq_some_iff.mp hentry
    obtain rfl := Option.some.inj (hk.symm.trans hk')
    rw [h.sound.getFromHash_of_entry hhash hkey hentry hcontent] at hnil
    exact h.sound.value?_ne_nil hv hnil

/-- The hash part lists the keys outside the array part that have a value. -/
theorem mem_hashListing_iff (h : t.Plain hash m) (hhash : Value.RespectsEq hash) :
    (key, value) ∈ t.hashListing (m.context hash) ↔
      key.Stored ∧ key.content = key ∧ t.index? key = none ∧ value ≠ .nil ∧
        t.valueOf hash key = value := by
  unfold hashListing
  rw [List.mem_map]
  constructor
  · intro hmem
    obtain ⟨⟨k, v⟩, hentry, heq⟩ := hmem
    obtain ⟨rfl, rfl⟩ := Prod.mk.inj heq
    obtain ⟨i, hi⟩ := h.sound.mem_hashEntries_iff.mp hentry
    obtain ⟨hstored, -, hne, -, hindex⟩ := h.sound.binding?_fits hi
    have hindex' : t.index? k.content = none := by
      rw [index?_of_content_eq t (Value.content_content k), hindex]
    refine ⟨hstored.content, Value.content_content k, hindex', hne, ?_⟩
    rw [← h.getFromHash_eq hstored.content hindex']
    exact h.sound.getFromHash_of_entry hhash hstored.content hi (Value.content_content k).symm
  · intro hkey
    obtain ⟨hstored, hcontent, hindex, hne, hvalue⟩ := hkey
    rw [← h.getFromHash_eq hstored hindex] at hvalue
    obtain ⟨i, k, hentry, hk⟩ :=
      h.sound.entry_of_getFromHash hhash hstored (hvalue ▸ hne)
    rw [hvalue] at hentry
    refine ⟨(k, value), h.sound.mem_hashEntries_iff.mpr ⟨i, hentry⟩, ?_⟩
    show (k.content, value) = (key, value)
    rw [hk, hcontent]

/-- No key is listed twice. -/
theorem hashListing_nodup (h : t.Plain hash m) : (t.hashListing (m.context hash)).Nodup := by
  rw [hashListing, List.Nodup, List.pairwise_map]
  refine h.sound.hashEntries_pairwise.imp ?_
  intro e f hne heq
  exact hne (congrArg Prod.fst heq)

/-- There is nothing to be cleared before a write. -/
theorem makeReady (h : t.Plain hash m) (key value : Value) :
    t.makeReady (m.context hash) key value = .ok t := by
  have hprune : ∀ b, t.pruneBucket (m.context hash) b = .ok t := by
    intro b
    have hgone : (t.chain b).filter (fun i ↦ t.arena.keyExpired m.alive i ||
        (!t.anchored && t.arena.valueExpired m.alive i)) = [] := by
      rw [List.filter_eq_nil_iff]
      intro i hi hexpired
      obtain ⟨e, he⟩ := h.exists_binding? ((h.sound.mem_chain_iff b i).mp hi).1
      rcases Bool.or_eq_true _ _ ▸ hexpired with hkey | hvalue
      · rw [Arena.binding?_of_keyExpired hkey] at he
        cases he
      · rw [Arena.binding?_of_valueExpired (Bool.and_eq_true _ _ ▸ hvalue).2] at he
        cases he
    have hprune : t.arena.prune m.alive (t.chain b) t.anchored = .ok (t.arena, t.chain b) := by
      unfold Arena.prune
      rw [hgone, if_neg (by simp [h.anchored])]
      rfl
    simp only [pruneBucket, Moment.context_alive, hprune, bind, Except.bind, pure, Except.pure,
      t.setIfInBounds_chain b]
  unfold Table.makeReady
  split
  · exact hprune _
  · rfl

/-- A write to a plain table leaves it plain and gives the key its value. -/
theorem placed (h : t.Plain hash m) (hhash : Value.RespectsEq hash) (hkey : key.Stored)
    (hnamed : key.Named m.fresh) (hvalueNamed : value.Named m.fresh) (hsize : t.array.size ≤ 2 ^ 62)
    (hplaced : Placed hash m t key value u) :
    u.Plain hash m ∧ u.buckets.size = t.buckets.size ∧ Updated hash m t key value u := by
  have hframe := hplaced.frame h.sound hhash hvalueNamed hsize
  have hsound := hplaced.sound h.sound hhash hkey hnamed hvalueNamed hsize
  refine ⟨h.of_frame hsound hframe, hframe.size, ?_⟩
  refine hplaced.updated h.sound hhash hkey hnamed hvalueNamed hsize ?_ ?_
  · rw [h.mode]
    rfl
  · rw [h.mode]
    rfl

/-- Some integer up to the number of places and one has no value. -/
theorem exists_absent (h : t.Plain hash m) (hhash : Value.RespectsEq hash)
    (hsize : t.array.size ≤ 2 ^ 62) :
    ∃ j ≤ t.array.size + t.arena.live, t.hasInt (m.context hash) (1 + j) = false := by
  by_contra hnone
  have hlive := h.sound.live_le
  -- All integers after the array part up to one more than there are slots would be listed.
  let keys := (List.range (t.arena.live + 1)).map fun i ↦
    Value.int (Int64.ofNat (1 + (t.array.size + i)))
  have htoInt : ∀ i ≤ t.arena.live, (Int64.ofNat (1 + (t.array.size + i))).toInt =
      1 + (t.array.size + i) := by
    intro i hi
    rw [Int64.toInt_ofNat_of_lt (by omega)]
    omega
  have hnodup : keys.Nodup := by
    rw [List.nodup_map_iff_inj_on List.nodup_range]
    intro i hi j hj heq
    have heq' : Int64.ofNat (1 + (t.array.size + i)) = Int64.ofNat (1 + (t.array.size + j)) := by
      simpa using heq
    have := congrArg Int64.toInt heq'
    rw [htoInt i (by simpa [Nat.lt_succ_iff] using hi),
      htoInt j (by simpa [Nat.lt_succ_iff] using hj)] at this
    omega
  have hsubset : keys ⊆ (t.hashListing (m.context hash)).map Prod.fst := by
    intro k hk
    obtain ⟨i, hi, rfl⟩ := List.mem_map.mp hk
    have hle : i ≤ t.arena.live := by simpa [Nat.lt_succ_iff] using hi
    have hpresent : t.hasInt (m.context hash) (1 + (t.array.size + i)) ≠ false :=
      fun habsent ↦ hnone ⟨_, Nat.add_le_add_left hle _, habsent⟩
    have hvalue : t.valueOf hash (.int (Int64.ofNat (1 + (t.array.size + i)))) ≠ .nil := by
      intro hnil
      rw [← h.get_eq m] at hnil
      refine hpresent ?_
      show (!(t.get (m.context hash) (.int _)).isNil) = false
      rw [hnil]
      rfl
    refine List.mem_map.mpr ⟨(_, _), (h.mem_hashListing_iff hhash).mpr
      ⟨Value.stored_int _, rfl, ?_, hvalue, rfl⟩, rfl⟩
    show t.arrayIndex? _ = none
    unfold arrayIndex?
    rw [htoInt i hle]
    exact if_neg (by omega)
  have hlength := (List.subperm_of_subset hnodup hsubset).length_le
  simp only [keys, hashListing, List.length_map, List.length_range, ← h.used_eq,
    h.used_eq_live] at hlength
  omega

end Plain

end LuaData.Table
