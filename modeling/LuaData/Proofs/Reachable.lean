import LuaData.Proofs.Enumeration

/-!
# The tables that are reached

A run is any sequence of operations on a new table, between and during which cells may be released
(`Visits`). A change of the weak mode that is refused for the size of the table leaves the new mode
on the old parts, and beyond the limit of the array part a rehash does not count all entries. Of the
runs in which neither happens every table is well formed (`Reaches`, `Reaches.sound`).
-/

namespace LuaData.Table

variable {hash : Value → UInt64} {hint : Nat} {m n : Moment} {t u : Table} {key value : Value}

/-- Remembering that an enumeration is on the way keeps a table well formed. -/
theorem Sound.anchor (hs : t.Sound hash m) : Sound hash m { t with anchored := true } :=
  { hs with
    fits := fun i ↦ (hs.fits i).congr rfl rfl
    unanchored := nofun }

/-- A scan of the hash part at most remembers that an enumeration is on the way. -/
theorem scanHash_table (ctx : Context) (t : Table) (b : Nat) (chain : List Nat) :
    (t.scanHash ctx b chain).2 = t ∨ (t.scanHash ctx b chain).2 = { t with anchored := true } := by
  unfold scanHash
  split
  · exact .inr rfl
  · exact .inl rfl

/-- A scan of the table at most remembers that an enumeration is on the way. -/
theorem scanArray_table (ctx : Context) (t : Table) (i : Nat) :
    (t.scanArray ctx i).2 = t ∨ (t.scanArray ctx i).2 = { t with anchored := true } := by
  unfold scanArray
  split
  · exact .inl rfl
  · exact scanHash_table ctx t 0 _

/-- An enumeration step leaves the table as it is, but for remembering that it was made. It fails
only on a key that it cannot go on from. -/
theorem next_cases (ctx : Context) (t : Table) (key : Value) :
    t.next ctx key = .error .badCursor ∨
      ∃ e u, t.next ctx key = .ok (e, u) ∧ (u = t ∨ u = { t with anchored := true }) := by
  have hscan : ∀ i, ∃ e u, (Except.ok (t.scanArray ctx i) : Except Error _) = .ok (e, u) ∧
      (u = t ∨ u = { t with anchored := true }) :=
    fun i ↦ ⟨_, _, rfl, scanArray_table ctx t i⟩
  have hhash : ∀ k, t.nextInHash ctx k = .error .badCursor ∨
      ∃ e u, t.nextInHash ctx k = .ok (e, u) ∧ (u = t ∨ u = { t with anchored := true }) := by
    intro k
    rw [nextInHash_eq]
    split
    · exact .inl rfl
    · exact .inr ⟨_, _, rfl, scanHash_table ctx t _ _⟩
  unfold next
  split
  · split
    · exact .inr (hscan 0)
    · exact .inl rfl
  · split
    · split
      · exact .inr (hscan _)
      · exact hhash _
    · exact hhash _

/-- A step that is made at most remembers that an enumeration is on the way. -/
theorem next_table {ctx : Context} {e : Option (Value × Value)} (h : t.next ctx key = .ok (e, u)) :
    u = t ∨ u = { t with anchored := true } := by
  rcases next_cases ctx t key with herror | ⟨e', u', hok, hu⟩
  · rw [h] at herror
    cases herror
  · rw [h] at hok
    cases hok
    exact hu

/-- An enumeration step keeps a table well formed. -/
theorem Sound.next (hs : t.Sound hash m) {e : Option (Value × Value)}
    (h : t.next (m.context hash) key = .ok (e, u)) : Evolved hash m t u := by
  rcases next_table h with rfl | rfl
  · exact (Frame.refl _).evolved hs
  · exact ⟨hs.anchor, rfl, rfl, Nat.le_max_left _ _⟩

/-- The metatable has no part in the form of a table. -/
theorem Sound.withMetatable (hs : t.Sound hash m) (metatable : Option Ref) :
    Sound hash m { t with metatable } :=
  { hs with fits := fun i ↦ (hs.fits i).congr rfl rfl }

/-- The mode stays as it is, or a change of it is refused for the size of the table or rebuilds
the table. -/
theorem Sound.setMode_cases (hs : t.Sound hash m) (hhash : Value.RespectsEq hash)
    (hsize : t.array.size ≤ 2 ^ 31) (mode : WeakMode) :
    (mode = t.mode ∧ t.setMode (m.context hash) mode = .ok t) ∨
    (t.setMode (m.context hash) mode = .error .tableOverflow ∧
      2 ^ maxHashBits < t.keyCount (m.context hash)) ∨
    ∃ u, t.setMode (m.context hash) mode = .ok u ∧ mode ≠ t.mode ∧
      Rebuilt hash m t mode none u := by
  unfold Table.setMode
  by_cases heq : mode = t.mode
  · exact .inl ⟨heq, if_pos heq⟩
  · rw [if_neg heq]
    rcases hs.rehash hhash hsize mode none with ⟨herror, hlarge⟩ | ⟨u, hu, hrebuilt⟩
    · exact .inr (.inl ⟨herror, lt_keyCount_of_lt_newHashCount hlarge⟩)
    · exact .inr (.inr ⟨u, hu, heq, hrebuilt⟩)

/-- The weak mode can be changed at all times, unless there are very many entries. -/
def Changeable (hash : Value → UInt64) (m : Moment) (t : Table) : Prop :=
  t.array.size ≤ 2 ^ 31 → ∀ n, m ≤ n → ∀ metatable mode e,
    Table.setMode (n.context hash) { t with metatable } mode = .error e →
    2 ^ maxHashBits < t.keyCount (n.context hash)

/-- The weak mode of a well-formed table can be changed. -/
theorem Sound.changeable (hs : t.Sound hash m) (hhash : Value.RespectsEq hash) :
    t.Changeable hash m := by
  intro hsize n hle metatable mode e herror
  have hs' := (hs.later hle).withMetatable metatable
  rcases hs'.setMode_cases hhash hsize mode with ⟨-, hok⟩ | ⟨-, hlarge⟩ | ⟨u, hok, -⟩
  · rw [herror] at hok
    cases hok
  · exact hlarge
  · rw [herror] at hok
    cases hok

/-- A change of the weak mode is refused for its size, or it rebuilds the table if there is one. -/
theorem Sound.setMode (hs : t.Sound hash m) (hhash : Value.RespectsEq hash)
    (hsize : t.array.size ≤ 2 ^ 31) (metatable : Option Ref) (mode : WeakMode) :
    Table.setMode (m.context hash) { t with metatable } mode = .error .tableOverflow ∨
      ∃ u, Table.setMode (m.context hash) { t with metatable } mode = .ok u ∧ u.Sound hash m ∧
        u.mode = mode ∧ u.buckets.size ≤ max t.buckets.size (2 ^ 30) ∧
        (mode = t.mode → u = { t with metatable }) := by
  have hs' := hs.withMetatable metatable
  rcases hs'.setMode_cases hhash hsize mode with ⟨heq, hok⟩ | ⟨herror, -⟩ | ⟨u, hok, hne, hrebuilt⟩
  · exact .inr ⟨_, hok, hs', heq.symm, Nat.le_max_left _ _, fun _ ↦ rfl⟩
  · exact .inl herror
  · exact .inr ⟨u, hok, hrebuilt.sound, hrebuilt.mode_eq,
      hrebuilt.buckets_le.trans (Nat.le_max_right _ _), fun h ↦ absurd h hne⟩

/-- A table that some run of operations makes of a new one. Cells may be released between the
operations and, within a write, between its steps. The values that are passed in have been named
before. A regular run changes a table only while its array part is within the limit, and none of its
changes of the weak mode is refused. -/
inductive Visits (hash : Value → UInt64) (hint : Nat) (regular : Bool) : Moment → Table → Prop
  | new (m : Moment) : Visits hash hint regular m (withHashSize hint)
  | wait {m n : Moment} {t : Table} (h : Visits hash hint regular m t) (hle : m ≤ n) :
      Visits hash hint regular n t
  /-- A write that is done or fails. -/
  | store {m : Moment} {t : Table} {c : Course} {key value : Value}
      (h : Visits hash hint regular m t) (hsize : regular = true → t.array.size ≤ 2 ^ 31)
      (hle : m ≤ c.clear) (hnamed : key.Named m.fresh) (hvalueNamed : value.Named m.fresh) :
      Visits hash hint regular c.last (t.store hash c key value).2
  /-- An insertion that is done or fails. -/
  | insert {m n : Moment} {t u : Table} {position : Int64} {value : Value} {made : List (Nat × Nat)}
      {r : Except Error Unit} (h : Visits hash hint regular m t)
      (hsize : regular = true → t.array.size ≤ 2 ^ 31) (hvalueNamed : value.Named m.fresh)
      (hinsert : Inserts hash m t position value made r n u) : Visits hash hint regular n u
  /-- A removal that is done or fails. -/
  | remove {m n : Moment} {t u : Table} {position : Int64} {made : List (Nat × Nat)}
      {r : Except Error Value} (h : Visits hash hint regular m t)
      (hsize : regular = true → t.array.size ≤ 2 ^ 31)
      (hremove : Removes hash m t position made r n u) : Visits hash hint regular n u
  | next {m : Moment} {t u : Table} {key : Value} {e : Option (Value × Value)}
      (h : Visits hash hint regular m t) (hnext : t.next (m.context hash) key = .ok (e, u)) :
      Visits hash hint regular m u
  /-- A new metatable; what only the old one kept is released before the mode is set. -/
  | setMetatable {m n : Moment} {t u : Table} {metatable : Option Ref} {mode : WeakMode}
      (h : Visits hash hint regular m t) (hsize : regular = true → t.array.size ≤ 2 ^ 31)
      (hle : m ≤ n) (hset : Table.setMode (n.context hash) { t with metatable } mode = .ok u) :
      Visits hash hint regular n u
  /-- A new metatable whose mode is refused for the size of the table. The table has the metatable
  and the mode all the same, and its parts are those of the old mode. -/
  | refused {m n : Moment} {t : Table} {metatable : Option Ref} {mode : WeakMode}
      (h : Visits hash hint regular m t) (hregular : regular = false) (hle : m ≤ n)
      (hrefused : Table.setMode (n.context hash) { t with metatable } mode =
        .error .tableOverflow) : Visits hash hint regular n { t with metatable, mode }

/-- A table that is reached by a regular run. -/
def Reaches (hash : Value → UInt64) (hint : Nat) (m : Moment) (t : Table) : Prop :=
  Visits hash hint true m t

namespace Reaches

variable {c : Course} {made : List (Nat × Nat)}

/-- A new table is reached. -/
theorem new (m : Moment) : Reaches hash hint m (withHashSize hint) :=
  Visits.new m

/-- A table that is reached stays so as time passes. -/
theorem wait (h : Reaches hash hint m t) (hle : m ≤ n) : Reaches hash hint n t :=
  Visits.wait h hle

/-- What a write leaves is reached. -/
theorem store (h : Reaches hash hint m t) (hsize : t.array.size ≤ 2 ^ 31) (hle : m ≤ c.clear)
    (hnamed : key.Named m.fresh) (hvalueNamed : value.Named m.fresh) :
    Reaches hash hint c.last (t.store hash c key value).2 :=
  Visits.store h (fun _ ↦ hsize) hle hnamed hvalueNamed

/-- What an insertion leaves is reached. -/
theorem insert {position : Int64} {r : Except Error Unit} (h : Reaches hash hint m t)
    (hsize : t.array.size ≤ 2 ^ 31) (hvalueNamed : value.Named m.fresh)
    (hinsert : Inserts hash m t position value made r n u) : Reaches hash hint n u :=
  Visits.insert h (fun _ ↦ hsize) hvalueNamed hinsert

/-- What a removal leaves is reached. -/
theorem remove {position : Int64} {r : Except Error Value} (h : Reaches hash hint m t)
    (hsize : t.array.size ≤ 2 ^ 31) (hremove : Removes hash m t position made r n u) :
    Reaches hash hint n u :=
  Visits.remove h (fun _ ↦ hsize) hremove

/-- What an enumeration step leaves is reached. -/
theorem next {e : Option (Value × Value)} (h : Reaches hash hint m t)
    (hnext : t.next (m.context hash) key = .ok (e, u)) : Reaches hash hint m u :=
  Visits.next h hnext

/-- What a new metatable makes of a table is reached, unless it is refused. -/
theorem setMetatable {metatable : Option Ref} {mode : WeakMode} (h : Reaches hash hint m t)
    (hsize : t.array.size ≤ 2 ^ 31) (hle : m ≤ n)
    (hset : Table.setMode (n.context hash) { t with metatable } mode = .ok u) :
    Reaches hash hint n u :=
  Visits.setMetatable h (fun _ ↦ hsize) hle hset

end Reaches

/-- A run may be regular. -/
theorem Reaches.visits (h : Reaches hash hint m t) : Visits hash hint false m t := by
  unfold Reaches at h
  have hany : ∀ {t : Table}, false = true → t.array.size ≤ 2 ^ 31 := fun h ↦ by cases h
  induction h with
  | new m => exact .new m
  | wait _ hle ih => exact ih.wait hle
  | store _ _ hle hnamed hvalueNamed ih => exact ih.store hany hle hnamed hvalueNamed
  | insert _ _ hvalueNamed hinsert ih => exact ih.insert hany hvalueNamed hinsert
  | remove _ _ hremove ih => exact ih.remove hany hremove
  | next _ hnext ih => exact ih.next hnext
  | setMetatable _ _ hle hset ih => exact ih.setMetatable hany hle hset
  | refused _ hregular => cases hregular

/-- A write of values without cells, in which nothing is released. -/
theorem Reaches.storeInline (h : Reaches hash hint m t) (hsize : t.array.size ≤ 2 ^ 31)
    (hkey : key.ref? = none) (hvalue : value.ref? = none) :
    Reaches hash hint m (t.store hash (.still m) key value).2 :=
  h.store (c := .still m) hsize (le_refl m) (Value.named_of_inline hkey _)
    (Value.named_of_inline hvalue _)

/-- The most buckets that a table with a hint can come to have. -/
def bucketLimit (hint : Nat) : Nat := max (2 ^ ceilLog2 hint) (2 ^ 30)

/-- All names of slots can be taken only where the hint asked for more slots than there are
names. -/
theorem lt_hint_of_lt_bucketLimit (h : 2 ^ 32 < bucketLimit hint) : 2 ^ 32 < hint := by
  by_contra hle
  have hlog := (ceilLog2_le_iff hint 32).mpr (Nat.le_of_not_lt hle)
  have hpow : 2 ^ ceilLog2 hint ≤ 2 ^ 32 := Nat.pow_le_pow_right (by decide) hlog
  unfold bucketLimit at h
  omega

/-- A table that is reached is well formed. -/
theorem Reaches.sound (h : Reaches hash hint m t) (hhash : Value.RespectsEq hash) :
    t.Sound hash m ∧ t.buckets.size ≤ bucketLimit hint := by
  -- What an operation leaves is within the limit if the table was.
  have hlimit : ∀ {t u : Table}, u.buckets.size ≤ max t.buckets.size (2 ^ 30) →
      t.buckets.size ≤ bucketLimit hint → u.buckets.size ≤ bucketLimit hint := by
    intro t u hu ht
    unfold bucketLimit at ht ⊢
    omega
  induction h with
  | new m =>
    refine ⟨sound_withHashSize hash m hint, ?_⟩
    simp only [withHashSize, Array.size_replicate, bucketLimit]
    split
    · exact Nat.zero_le _
    · exact Nat.le_max_left _ _
  | wait _ hle ih => exact ⟨ih.1.later hle, ih.2⟩
  | store _ hsize hle hnamed hvalueNamed ih =>
    have hevolved := (ih.1.store hle hhash hnamed hvalueNamed (hsize rfl)).1
    exact ⟨hevolved.sound, hlimit hevolved.buckets_le ih.2⟩
  | insert _ hsize hvalueNamed hinsert ih =>
    have hevolved := (hinsert.evolved ih.1 hhash (hsize rfl) hvalueNamed).2.1
    exact ⟨hevolved.sound, hlimit hevolved.buckets_le ih.2⟩
  | remove _ hsize hremove ih =>
    have hevolved := (hremove.evolved ih.1 hhash (hsize rfl)).2.1
    exact ⟨hevolved.sound, hlimit hevolved.buckets_le ih.2⟩
  | next _ hnext ih =>
    have hevolved := ih.1.next hnext
    exact ⟨hevolved.sound, hlimit hevolved.buckets_le ih.2⟩
  | setMetatable _ hsize hle hset ih =>
    rcases (ih.1.later hle).setMode hhash (hsize rfl) _ _ with
      herror | ⟨u, hu, hsound, -, hbuckets, -⟩
    · rw [hset] at herror
      cases herror
    · rw [hset] at hu
      cases hu
      exact ⟨hsound, hlimit hbuckets ih.2⟩
  | refused _ hregular => cases hregular

end LuaData.Table
