import LuaData.Proofs.Representation

/-!
# Changes of a single slot

Writes, clearings and rehashes are made of five changes to the hash part: an entry is buried, a slot
is dropped, an entry is stored in a slot in use, an entry is added, and the array part changes. Each
keeps a table well formed. For each the lemmas also say which keys and entries the slots have
afterwards.
-/

namespace LuaData

namespace Arena

variable {alive : Ref → Bool} {a b : Arena} {i j : Nat}

/-- The key of a slot depends on what it holds. -/
theorem key?_congr (h : a.state i = b.state j) : a.key? alive i = b.key? alive j := by
  rw [key?, key?, h]

/-- The entry of a slot depends on what it holds. -/
theorem binding?_congr (h : a.state i = b.state j) : a.binding? alive i = b.binding? alive j := by
  rw [binding?, binding?, h]

/-- Only live slots have entries. -/
theorem binding?_eq_none (h : (a.state i).isLive = false) : a.binding? alive i = none := by
  unfold binding?
  cases hstate : a.state i <;> simp_all [SlotState.isLive]

/-- A slot with an entry is live. -/
theorem isLive_of_binding? {e : Value × Value} (h : a.binding? alive i = some e) :
    (a.state i).isLive = true := by
  by_contra hlive
  rw [binding?_eq_none (by simpa using hlive)] at h
  cases h

/-- The handle of a buried key is on the same key. -/
@[simp]
theorem target_buriedKey (alive : Ref → Bool) (key : Handle) :
    (buriedKey alive key).target = key.target := by
  unfold buriedKey
  split
  · rename_i k hget
    rw [Handle.target_ofValue, Handle.target_of_get hget]
  · rfl

/-- A key that is there after its entry was buried was there before. -/
theorem get_of_get_buriedKey {key : Handle} {k : Value}
    (h : (buriedKey alive key).get alive = some k) : key.get alive = some k := by
  unfold buriedKey at h
  split at h
  · rename_i l hget
    rw [hget, ← Handle.target_of_get h, Handle.target_ofValue]
  · exact h

/-- A key whose cell is alive is there after its entry was buried. -/
theorem get_buriedKey {key : Handle} (h : key.target.present alive = true) :
    (buriedKey alive key).get alive = some key.target := by
  have hburied : (buriedKey alive key).get alive = some (buriedKey alive key).target :=
    Handle.get_of_present (by simpa using h)
  simpa using hburied

/-- Burying an entry uncovers no key. -/
theorem key?_of_key?_bury {k : Value} (h : (a.bury alive i).key? alive j = some k) :
    a.key? alive j = some k := by
  by_cases hij : i = j
  · subst hij
    cases hstate : a.state i with
    | live key value =>
      rw [key?, state_bury_self hstate] at h
      rw [key?, hstate]
      exact get_of_get_buriedKey h
    | dead key => simpa [bury, hstate] using h
    | free => simpa [bury, hstate] using h
  · rwa [key?_congr (state_bury_of_ne alive a hij)] at h

/-- Burying an entry keeps a key whose cell is alive. -/
theorem key?_bury {k : Value} (h : a.key? alive j = some k) (hk : k.present alive = true) :
    (a.bury alive i).key? alive j = some k := by
  by_cases hij : i = j
  · subst hij
    cases hstate : a.state i with
    | live key value =>
      rw [key?, hstate] at h
      rw [key?, state_bury_self hstate]
      have htarget := Handle.target_of_get h
      rw [← htarget] at hk ⊢
      exact get_buriedKey hk
    | dead key => simpa [bury, hstate] using h
    | free => simpa [bury, hstate] using h
  · rwa [key?_congr (state_bury_of_ne alive a hij)]

/-- A buried entry is gone. -/
theorem binding?_bury_self (alive : Ref → Bool) (a : Arena) (i : Nat) :
    (a.bury alive i).binding? alive i = none := by
  cases hstate : a.state i with
  | live key value => exact binding?_eq_none (by rw [state_bury_self hstate]; rfl)
  | dead key => exact binding?_eq_none (by simp [bury, hstate, SlotState.isLive])
  | free => exact binding?_eq_none (by simp [bury, hstate, SlotState.isLive])

/-- The handle of an entry that has expired does not keep its key. -/
theorem ofEntry_eq_of_expired {v : Value} {weakly : Bool}
    (h : (Handle.ofEntry v weakly).get alive = none) :
    Handle.ofEntry v weakly = .ofValue v (isLargeKey v) := by
  cases weakly with
  | false => simp [Handle.ofEntry, Handle.ofValue, Handle.get] at h
  | true =>
    cases v <;>
      simp_all [Handle.ofEntry, Handle.ofValue, Handle.get, Value.isString, Value.ref?, isLargeKey,
        Value.collectable]

/-- A slot in use stays so when an entry is buried. -/
theorem state_bury_ne_free_iff : (a.bury alive i).state j ≠ .free ↔ a.state j ≠ .free := by
  by_cases hij : i = j
  · subst hij
    cases hstate : a.state i with
    | live key value => simp [state_bury_self hstate]
    | dead key => simp [bury, hstate]
    | free => simp [bury, hstate]
  · rw [state_bury_of_ne alive a hij]

end Arena

namespace Table

variable {hash : Value → UInt64} {m : Moment} {t : Table}

/-- The table with the entry in a slot buried. -/
def buried (alive : Ref → Bool) (t : Table) (i : Nat) : Table :=
  { t with arena := t.arena.bury alive i }

/-- The table with a slot taken out of a chain and freed. -/
def dropped (t : Table) (b i : Nat) : Table :=
  { t with arena := t.arena.release i, buckets := t.buckets.setIfInBounds b ((t.chain b).erase i) }

/-- The table with an entry stored in a slot in use. -/
def assigned (t : Table) (i : Nat) (key value : Value) : Table :=
  { t with arena := t.arena.assign i (.ofEntry key t.mode.keys) (.ofEntry value t.mode.values) }

/-- What the writes to a table leave alone. -/
structure Frame (t u : Table) : Prop where
  metatable : u.metatable = t.metatable
  mode : u.mode = t.mode
  anchored : u.anchored = t.anchored
  size : u.buckets.size = t.buckets.size

/-- Nothing is left alone more than by doing nothing. -/
theorem Frame.refl (t : Table) : Frame t t := ⟨rfl, rfl, rfl, rfl⟩

/-- What two changes leave alone, they leave alone together. -/
theorem Frame.trans {s u : Table} (h : Frame s t) (h' : Frame t u) : Frame s u :=
  ⟨h'.metatable.trans h.metatable, h'.mode.trans h.mode, h'.anchored.trans h.anchored,
    h'.size.trans h.size⟩

/-- Burying an entry. -/
theorem frame_buried (alive : Ref → Bool) (t : Table) (i : Nat) : Frame t (t.buried alive i) :=
  ⟨rfl, rfl, rfl, rfl⟩

/-- Dropping a slot. -/
theorem frame_dropped (t : Table) (b i : Nat) : Frame t (t.dropped b i) :=
  ⟨rfl, rfl, rfl, Array.size_setIfInBounds⟩

/-- A bucket with slots is one of the buckets. -/
theorem lt_size_of_mem_chain {b i : Nat} (h : i ∈ t.chain b) : b < t.buckets.size := by
  by_contra hge
  simp [chain, Array.getD_eq_getD_getElem?, Array.getElem?_eq_none (Nat.le_of_not_lt hge)] at h

/-- The chains after one of them was replaced. -/
theorem chain_of_buckets {u : Table} {b : Nat} {c : List Nat} (hb : b < t.buckets.size)
    (hu : u.buckets = t.buckets.setIfInBounds b c) (b' : Nat) :
    u.chain b' = if b' = b then c else t.chain b' := by
  simp only [chain, hu, Array.getD_eq_getD_getElem?]
  split
  · subst_vars
    simp [hb]
  · rename_i hne
    rw [Array.getElem?_setIfInBounds_ne (Ne.symm hne)]

/-- What a buried entry leaves fits. -/
theorem Fits.buried {fresh : Ref} {slotHash : UInt64} {key value : Handle}
    (h : t.Fits hash fresh slotHash (.live key value)) (alive : Ref → Bool) :
    t.Fits hash fresh slotHash (.dead (Arena.buriedKey alive key)) where
  key := by
    rintro _ ⟨rfl⟩
    simpa using h.key key rfl
  live := nofun
  dead := by
    rintro _ ⟨rfl⟩
    rw [Arena.target_buriedKey]
    unfold Arena.buriedKey
    split
    · rename_i k hget
      rw [Handle.target_of_get hget]
    · rename_i hget
      have hentry := (h.live key value rfl).1
      rw [hentry] at hget
      exact hentry.trans (Arena.ofEntry_eq_of_expired hget)
  outside := by
    rintro _ n ⟨rfl⟩
    rw [Arena.target_buriedKey]
    exact h.outside key n rfl

/-- An entry fits if its key is not one of the array part. -/
theorem fits_entry {fresh : Ref} {key value : Value} (hkey : key.Stored)
    (hnamed : key.Named fresh) (houtside : ∀ n, key = .int n → t.arrayIndex? n = none)
    (hvalue : value ≠ .nil) (hvalueNamed : value.Named fresh) :
    t.Fits hash fresh (hash key)
      (.live (.ofEntry key t.mode.keys) (.ofEntry value t.mode.values)) where
  key := by
    rintro _ ⟨rfl⟩
    simpa using ⟨hkey, hnamed⟩
  live := by
    rintro _ _ ⟨rfl, rfl⟩
    simpa using ⟨hvalue, hvalueNamed⟩
  dead := nofun
  outside := by
    rintro _ n ⟨rfl⟩ htarget
    exact houtside n (by simpa using htarget)

namespace Sound

/-- A table that differs from a well-formed one in a single slot is well formed if what that slot
holds fits, its key is held by no other slot, and the chains and counters follow. -/
theorem change (hs : t.Sound hash m) {u : Table} (i : Nat) (harena : u.arena.Sound)
    (harray : u.array = t.array) (hmode : u.mode = t.mode) (hanchored : u.anchored = t.anchored)
    (hsize : u.buckets.size = t.buckets.size) (hnodup : ∀ b, (u.chain b).Nodup)
    (hchain : ∀ b j,
      j ∈ u.chain b ↔ u.arena.state j ≠ .free ∧ u.bucketOf (u.arena.hashOf j) = b)
    (hother : ∀ j, j ≠ i →
      u.arena.state j = t.arena.state j ∧ u.arena.hashOf j = t.arena.hashOf j)
    (hfits : t.Fits hash m.fresh (u.arena.hashOf i) (u.arena.state i))
    (hdistinct : ∀ j k l, j ≠ i → u.arena.key? m.alive i = some k →
      t.arena.key? m.alive j = some l → k.content ≠ l.content)
    (hroom : u.arena.used ≤ u.buckets.size) (hslots : u.arena.slots.size ≤ u.buckets.size)
    (hnames : u.arena.slots.size ≤ 2 ^ 32)
    (hdead : t.anchored = false → u.arena.dead = 0) : u.Sound hash m where
  arena := harena
  buckets := hsize ▸ hs.buckets
  chain_nodup := hnodup
  mem_chain_iff := hchain
  fits := fun j ↦ by
    refine Fits.congr (t := t) ?_ hmode (by rw [harray])
    by_cases hj : j = i
    · rw [hj]
      exact hfits
    · rw [(hother j hj).1, (hother j hj).2]
      exact hs.fits j
  distinct := fun j l k k' hk hk' hcontent ↦ by
    by_cases hj : j = i
    · by_cases hl : l = i
      · rw [hj, hl]
      · rw [Arena.key?_congr (hother l hl).1] at hk'
        exact absurd hcontent (hdistinct l k k' hl (hj ▸ hk) hk')
    · rw [Arena.key?_congr (hother j hj).1] at hk
      by_cases hl : l = i
      · exact absurd hcontent.symm (hdistinct j k' k hj (hl ▸ hk') hk)
      · rw [Arena.key?_congr (hother l hl).1] at hk'
        exact hs.distinct j l k k' hk hk' hcontent
  room := hroom
  size_le_buckets := hslots
  size_le_names := hnames
  unanchored := fun h ↦ hdead (hanchored ▸ h)
  weak_values := fun h ↦ by
    rw [harray]
    exact hs.weak_values (hmode ▸ h)
  array_named := harray ▸ hs.array_named

/-- Burying an entry keeps a table well formed while an enumeration may be on the way. -/
theorem buried (hs : t.Sound hash m) (hanchored : t.anchored = true) (i : Nat) :
    (t.buried m.alive i).Sound hash m := by
  refine hs.change i (hs.arena.bury m.alive i) rfl rfl rfl rfl hs.chain_nodup ?_ ?_ ?_ ?_ ?_ ?_ ?_
    ?_
  · intro b j
    show j ∈ t.chain b ↔ (t.arena.bury m.alive i).state j ≠ .free ∧ _
    rw [hs.mem_chain_iff, Arena.state_bury_ne_free_iff]
    simp [Table.buried, bucketOf]
  · intro j hj
    exact ⟨Arena.state_bury_of_ne _ _ (Ne.symm hj), Arena.hashOf_bury _ _ _ _⟩
  · have hfits := hs.fits i
    show t.Fits hash m.fresh ((t.arena.bury m.alive i).hashOf i) ((t.arena.bury m.alive i).state i)
    rw [Arena.hashOf_bury]
    cases hstate : t.arena.state i with
    | live key value =>
      rw [Arena.state_bury_self hstate]
      exact (hstate ▸ hfits).buried m.alive
    | dead key => simpa [Arena.bury, hstate] using hfits
    | free => simpa [Arena.bury, hstate] using hfits
  · intro j k l hj hk hl hcontent
    exact hj (hs.distinct i j k l (Arena.key?_of_key?_bury hk) hl hcontent).symm
  · show (t.arena.bury m.alive i).used ≤ t.buckets.size
    rw [hs.arena.used_bury]
    exact hs.room
  · simpa [Table.buried] using hs.size_le_buckets
  · simpa [Table.buried] using hs.size_le_names
  · intro h
    exact absurd (h.symm.trans hanchored) (by decide)

/-- Dropping a slot of a chain keeps a table well formed. -/
theorem dropped (hs : t.Sound hash m) {b i : Nat} (hi : i ∈ t.chain b) :
    (t.dropped b i).Sound hash m := by
  obtain ⟨hstate, hbucket⟩ := (hs.mem_chain_iff b i).mp hi
  have hchain := chain_of_buckets (u := t.dropped b i) (lt_size_of_mem_chain hi) rfl
  have hfree : (t.dropped b i).arena.state i = .free := Arena.state_release_self _ _
  have hother : ∀ j, j ≠ i → (t.dropped b i).arena.state j = t.arena.state j :=
    fun j hj ↦ Arena.state_release_of_ne _ (Ne.symm hj)
  have hused := hs.arena.used_release hstate
  refine hs.change i (hs.arena.release hstate) rfl rfl rfl (by simp [Table.dropped]) ?_ ?_ ?_ ?_ ?_
    ?_ ?_ ?_ ?_
  · intro b'
    rw [hchain]
    split
    · exact (hs.chain_nodup b).erase i
    · exact hs.chain_nodup b'
  · intro b' j
    have hmem : j ∈ (t.dropped b i).chain b' ↔ j ≠ i ∧ j ∈ t.chain b' := by
      rw [hchain]
      split
      · subst_vars
        exact (hs.chain_nodup _).mem_erase_iff
      · rename_i hne
        refine ⟨fun h ↦ ⟨?_, h⟩, fun h ↦ h.2⟩
        rintro rfl
        exact hne (((hs.mem_chain_iff b' j).mp h).2.symm.trans hbucket)
    rw [hmem, hs.mem_chain_iff]
    by_cases hj : j = i
    · subst hj
      simp [hfree]
    · rw [hother j hj]
      simp [hj, Table.dropped, bucketOf]
  · intro j hj
    exact ⟨hother j hj, Arena.hashOf_release _ _ _⟩
  · rw [hfree]
    exact fits_free hash m.fresh t _
  · intro j k l hj hk
    rw [Arena.key?, hfree] at hk
    cases hk
  · have := hs.room
    simp only [Table.dropped, Array.size_setIfInBounds]
    omega
  · simpa [Table.dropped] using hs.size_le_buckets
  · simpa [Table.dropped] using hs.size_le_names
  · intro h
    exact Nat.eq_zero_of_le_zero (hs.unanchored h ▸ Arena.dead_release_le t.arena i)

/-- Storing an entry in the slot that holds its key keeps a table well formed. -/
theorem assigned (hs : t.Sound hash m) (hhash : Value.RespectsEq hash) {i : Nat}
    {k key value : Value}
    (hk : t.arena.key? m.alive i = some k) (hcontent : k.content = key.content)
    (hkey : key.Stored) (hnamed : key.Named m.fresh) (hvalue : value ≠ .nil)
    (hvalueNamed : value.Named m.fresh) : (t.assigned i key value).Sound hash m := by
  have hstate := Arena.state_ne_free_of_key? hk
  have hself : (t.assigned i key value).arena.state i = _ := Arena.state_assign_self _ _ hstate
  obtain ⟨hstored, -, hhashOf⟩ := hs.key?_fits hk
  refine hs.change i (hs.arena.assign _ _ hstate) rfl rfl rfl rfl hs.chain_nodup ?_ ?_ ?_ ?_ ?_ ?_
    ?_ ?_
  · intro b j
    show j ∈ t.chain b ↔ _
    rw [hs.mem_chain_iff]
    by_cases hj : j = i
    · subst hj
      rw [hself]
      simp [hstate, Table.assigned, bucketOf]
    · rw [show (t.assigned i key value).arena.state j = _ from
        Arena.state_assign_of_ne _ _ _ (Ne.symm hj)]
      simp [Table.assigned, bucketOf]
  · intro j hj
    exact ⟨Arena.state_assign_of_ne _ _ _ (Ne.symm hj), Arena.hashOf_assign _ _ _ _ _⟩
  · rw [hself, show (t.assigned i key value).arena.hashOf i = _ from Arena.hashOf_assign _ _ _ _ _,
      hhashOf, hhash.of_content_eq hstored hkey hcontent]
    refine fits_entry hkey hnamed (fun n hn ↦ ?_) hvalue hvalueNamed
    obtain ⟨handle, hhandle, hget⟩ := Option.bind_eq_some_iff.mp hk
    refine (hs.fits i).outside handle n hhandle ?_
    rw [Handle.target_of_get hget]
    exact Value.content_eq_int (by rw [hcontent, hn]; rfl)
  · intro j k' l hj hk' hl hcontent'
    rw [Arena.key?, hself] at hk'
    have htarget := Handle.target_of_get hk'
    rw [Handle.target_ofEntry] at htarget
    subst htarget
    exact hj (hs.distinct i j k l hk hl (hcontent.trans hcontent')).symm
  · show (t.arena.assign i _ _).used ≤ t.buckets.size
    rw [hs.arena.used_assign _ _ hstate]
    exact hs.room
  · simpa [Table.assigned] using hs.size_le_buckets
  · simpa [Table.assigned] using hs.size_le_names
  · intro h
    have hdead := hs.unanchored h
    show (t.arena.assign i _ _).dead = 0
    unfold Arena.assign
    split <;> simp [Arena.setState, hdead]

end Sound

/-- `u` is the table `t` with an entry added in slot `i`, at the end of the chain of its key. -/
structure Inserted (hash : Value → UInt64) (t : Table) (key value : Value) (i : Nat) (u : Table) :
    Prop where
  array : u.array = t.array
  metatable : u.metatable = t.metatable
  mode : u.mode = t.mode
  anchored : u.anchored = t.anchored
  size : u.buckets.size = t.buckets.size
  chain : ∀ b, u.chain b = if b = t.bucketOf (hash key) then t.chain b ++ [i] else t.chain b
  added : Arena.Added t.arena i (hash key) (.ofEntry key t.mode.keys) (.ofEntry value t.mode.values)
    u.arena

namespace Sound

/-- An entry whose key no slot holds keeps a table well formed, if there is room for it. -/
theorem inserted (hs : t.Sound hash m) {key value : Value} {i : Nat} {u : Table}
    (hu : t.Inserted hash key value i u) (hkey : key.Stored) (hnamed : key.Named m.fresh)
    (houtside : ∀ n, key = .int n → t.arrayIndex? n = none) (hvalue : value ≠ .nil)
    (hvalueNamed : value.Named m.fresh)
    (habsent : ∀ j l, t.arena.key? m.alive j = some l → l.content ≠ key.content)
    (hroom : t.arena.used < t.buckets.size) : u.Sound hash m := by
  have hfree := hu.added.was_free
  have hnot : ∀ b, i ∉ t.chain b := fun b h ↦ ((hs.mem_chain_iff b i).mp h).1 hfree
  refine hs.change i hu.added.sound hu.array hu.mode hu.anchored hu.size ?_ ?_ ?_ ?_ ?_ ?_ ?_ ?_ ?_
  · intro b
    rw [hu.chain]
    split
    · rw [List.nodup_append_comm]
      exact List.nodup_cons.mpr ⟨by simpa using hnot b, by simpa using hs.chain_nodup b⟩
    · exact hs.chain_nodup b
  · intro b j
    have hmem : j ∈ u.chain b ↔ j ∈ t.chain b ∨ j = i ∧ b = t.bucketOf (hash key) := by
      rw [hu.chain]
      split <;> simp_all
    have hbucketOf : u.bucketOf = t.bucketOf := by
      funext h
      rw [bucketOf, bucketOf, hu.size]
    rw [hmem, hs.mem_chain_iff, hbucketOf]
    by_cases hj : j = i
    · subst hj
      simp [hfree, hu.added.state_self, hu.added.hashOf_self, eq_comm]
    · simp [hj, hu.added.state_of_ne j hj, hu.added.hashOf_of_ne j hj]
  · exact fun j hj ↦ ⟨hu.added.state_of_ne j hj, hu.added.hashOf_of_ne j hj⟩
  · rw [hu.added.state_self, hu.added.hashOf_self]
    exact fits_entry hkey hnamed houtside hvalue hvalueNamed
  · intro j k l _ hk hl hcontent
    rw [Arena.key?, hu.added.state_self] at hk
    have htarget := Handle.target_of_get hk
    rw [Handle.target_ofEntry] at htarget
    subst htarget
    exact habsent j l hl hcontent.symm
  · rw [hu.added.used_eq, hu.size]
    omega
  · rw [hu.size]
    have := hu.added.size_le
    have := hs.size_le_buckets
    omega
  · have := hu.added.size_le_names
    have := hs.size_le_names
    omega
  · intro h
    rw [hu.added.dead_eq]
    exact hs.unanchored h

/-- Adding an entry succeeds if there is room for it, unless all names of slots are taken. -/
theorem insertFresh (hs : t.Sound hash m) (key value : Value)
    (hroom : t.arena.used < t.buckets.size) :
    (∃ i u, t.insertFresh (m.context hash) key value = .ok u ∧ t.Inserted hash key value i u) ∨
      t.insertFresh (m.context hash) key value = .error (.fault .noSlot) ∧
        2 ^ 32 ≤ t.arena.used := by
  have hpos : 0 < t.buckets.size := by omega
  have hempty : t.buckets.isEmpty = false := by
    rw [Bool.eq_false_iff, ne_eq, Array.isEmpty_iff_size_eq_zero]
    omega
  have hlt : t.bucketOf (hash key) < t.buckets.size := Nat.mod_lt _ hpos
  have hchain : ∀ i ∈ t.chain (t.bucketOf (hash key)), t.arena.state i ≠ .free :=
    fun i hi ↦ ((hs.mem_chain_iff _ i).mp hi).1
  rcases hs.arena.append hchain (hash key) (.ofEntry key t.mode.keys) (.ofEntry value t.mode.values)
    with ⟨i, b, happend, hadded⟩ | ⟨happend, hfree, hnames⟩
  · let chain := t.chain (t.bucketOf (hash key)) ++ [i]
    let buckets := t.buckets.setIfInBounds (t.bucketOf (hash key)) chain
    refine .inl ⟨i, { t with arena := b, buckets }, ?_, ?_⟩
    · simp [Table.insertFresh, hempty, happend, bind, Except.bind, pure, Except.pure, buckets,
        chain]
    · refine ⟨rfl, rfl, rfl, rfl, Array.size_setIfInBounds, ?_, hadded⟩
      intro b'
      rw [chain_of_buckets hlt rfl]
      split
      · subst_vars
        rfl
      · rfl
  · refine .inr ⟨?_, ?_⟩
    · simp [Table.insertFresh, hempty, happend, bind, Except.bind]
    · rw [hs.arena.used_eq_size hfree]
      exact hnames

/-- Replacing a value of the array part keeps a table well formed. -/
theorem setArray (hs : t.Sound hash m) (i : Nat) {value : Value} (hnamed : value.Named m.fresh) :
    Sound hash m { t with array := t.array.setIfInBounds i value } where
  arena := hs.arena
  buckets := hs.buckets
  chain_nodup := hs.chain_nodup
  mem_chain_iff := hs.mem_chain_iff
  fits := fun j ↦ (hs.fits j).congr rfl (by simp)
  distinct := hs.distinct
  room := hs.room
  size_le_buckets := hs.size_le_buckets
  size_le_names := hs.size_le_names
  unanchored := hs.unanchored
  weak_values := fun h ↦ by simpa using hs.weak_values h
  array_named := fun v hv ↦ by
    rcases Array.mem_or_eq_of_mem_setIfInBounds hv with hmem | rfl
    · exact hs.array_named v hmem
    · exact hnamed

/-- An array part of another size keeps a table well formed if it passes no key of a slot. -/
theorem withArray (hs : t.Sound hash m) {array : Array Value}
    (hweak : t.mode.values = true → array.size = 0) (hnamed : ∀ v ∈ array, v.Named m.fresh)
    (houtside : ∀ i key n, (t.arena.state i).key? = some key → key.target = .int n →
      ¬ (1 ≤ n.toInt ∧ n.toInt ≤ array.size)) :
    Sound hash m { t with array } where
  arena := hs.arena
  buckets := hs.buckets
  chain_nodup := hs.chain_nodup
  mem_chain_iff := hs.mem_chain_iff
  fits := fun i ↦
    { (hs.fits i) with
      outside := fun key n hkey htarget ↦ if_neg (houtside i key n hkey htarget) }
  distinct := hs.distinct
  room := hs.room
  size_le_buckets := hs.size_le_buckets
  size_le_names := hs.size_le_names
  unanchored := hs.unanchored
  weak_values := hweak
  array_named := hnamed

end Sound

end Table

end LuaData
