import LuaData.Proofs.Moment
import LuaData.Table.Update

/-!
# The representation of a table

`Table.Sound` says when a table represents a mapping of keys to values at a moment: the chains hold
exactly the slots in use, each in the bucket of its hash; no two slots hold keys of the same
content; no slot holds a key of the array part; the counters are right; and every handle is of the
kind that the weak mode of the table asks for. Under it a look-up finds the one slot that holds a
key (`Sound.slot?_eq_some_iff`), and what a table holds under a key is read off its slots
(`Sound.getFromHash_eq`).
-/

namespace LuaData

namespace Table

/-- The slot, live or dead, that holds a key. -/
def slot? (ctx : Context) (t : Table) (key : Value) : Option Nat :=
  t.arena.locate? ctx.alive (t.chain (t.bucketOf (ctx.hash key))) (ctx.hash key) (·.rawEq key)

/-- The index in the array part that belongs to a key in stored form. -/
def index? (t : Table) : Value → Option Nat
  | .int k => t.arrayIndex? k
  | _ => none

/-- A slot with this hash may hold this in the table. Its key is a stored key with that hash and is
none of the array part. The handles of an entry are those of the weak mode, and a dead slot does not
keep a large key. -/
structure Fits (hash : Value → UInt64) (fresh : Ref) (t : Table) (slotHash : UInt64)
    (state : SlotState) : Prop where
  key : ∀ key, state.key? = some key →
    key.target.Stored ∧ key.target.Named fresh ∧ slotHash = hash key.target
  live : ∀ key value, state = .live key value →
    key = .ofEntry key.target t.mode.keys ∧ value = .ofEntry value.target t.mode.values ∧
      value.target ≠ .nil ∧ value.target.Named fresh
  dead : ∀ key, state = .dead key → key = .ofValue key.target (Arena.isLargeKey key.target)
  outside : ∀ key n, state.key? = some key → key.target = .int n → t.arrayIndex? n = none

/-- The table is well formed at a moment. -/
structure Sound (hash : Value → UInt64) (m : Moment) (t : Table) : Prop where
  arena : t.arena.Sound
  buckets : t.buckets.size = 0 ∨ t.buckets.size.isPowerOfTwo
  chain_nodup : ∀ b, (t.chain b).Nodup
  /-- The slots in use are linked in the bucket of their hash, and nowhere else. -/
  mem_chain_iff : ∀ b i,
    i ∈ t.chain b ↔ t.arena.state i ≠ .free ∧ t.bucketOf (t.arena.hashOf i) = b
  fits : ∀ i, t.Fits hash m.fresh (t.arena.hashOf i) (t.arena.state i)
  /-- No two slots hold the same key. -/
  distinct : ∀ i j k l, t.arena.key? m.alive i = some k → t.arena.key? m.alive j = some l →
    k.content = l.content → i = j
  room : t.arena.used ≤ t.buckets.size
  size_le_buckets : t.arena.slots.size ≤ t.buckets.size
  size_le_names : t.arena.slots.size ≤ 2 ^ 32
  unanchored : t.anchored = false → t.arena.dead = 0
  weak_values : t.mode.values = true → t.array.size = 0
  array_named : ∀ v ∈ t.array, v.Named m.fresh

variable {hash : Value → UInt64} {m n : Moment} {t : Table}

/-- Values that are no keys have nothing stored under them. -/
theorem get_of_key?_none {key : Value} (ctx : Context) (t : Table) (h : key.key? = none) :
    t.get ctx key = .nil := by
  rw [get, h]

/-- What a table has under a key is in the array part or in the hash part. -/
theorem get_of_key?_some {key k : Value} (ctx : Context) (t : Table) (h : key.key? = some k) :
    t.get ctx key =
      match t.index? k with
      | some i => t.array.getD i .nil
      | none => t.getFromHash ctx k := by
  rw [get, h]
  cases k with
  | num n => cases n <;> rfl
  | _ => rfl

/-- A key has the value of its stored form. -/
theorem get_of_key? {key k : Value} (ctx : Context) (t : Table) (h : key.key? = some k) :
    t.get ctx key = t.get ctx k := by
  rw [get_of_key?_some _ _ h, get_of_key?_some _ _ (Value.stored_of_key? h)]

/-- The index of a key depends on the size of the array part. -/
theorem index?_congr {u : Table} (h : u.array.size = t.array.size) (key : Value) :
    u.index? key = t.index? key := by
  unfold index?
  split
  · simp only [arrayIndex?, h]
  · rfl

/-- A free slot fits into every table. -/
theorem fits_free (hash : Value → UInt64) (fresh : Ref) (t : Table) (slotHash : UInt64) :
    t.Fits hash fresh slotHash .free :=
  ⟨nofun, nofun, nofun, nofun⟩

/-- What fits depends on the weak mode and the size of the array part. -/
theorem Fits.congr {fresh : Ref} {slotHash : UInt64} {state : SlotState} {u : Table}
    (h : t.Fits hash fresh slotHash state) (hmode : u.mode = t.mode)
    (hsize : u.array.size = t.array.size) : u.Fits hash fresh slotHash state where
  key := h.key
  live := hmode ▸ h.live
  dead := h.dead
  outside := fun key n hkey htarget ↦ by
    have := h.outside key n hkey htarget
    simpa only [arrayIndex?, hsize] using this

/-- What fits still fits when more names are given. -/
theorem Fits.mono {fresh fresh' : Ref} {slotHash : UInt64} {state : SlotState}
    (h : t.Fits hash fresh slotHash state) (hle : fresh ≤ fresh') :
    t.Fits hash fresh' slotHash state where
  key := fun key hkey ↦ ⟨(h.key key hkey).1, (h.key key hkey).2.1.mono hle, (h.key key hkey).2.2⟩
  live := fun key value hstate ↦
    ⟨(h.live key value hstate).1, (h.live key value hstate).2.1, (h.live key value hstate).2.2.1,
      (h.live key value hstate).2.2.2.mono hle⟩
  dead := h.dead
  outside := h.outside

/-- Without slots every state is free. -/
@[simp]
theorem state_empty (i : Nat) : Arena.empty.state i = .free := rfl

/-- A table whose hash part is empty has empty chains. -/
theorem chain_replicate (array : Array Value) (size : Nat) (arena : Arena) (metatable : Option Ref)
    (mode : WeakMode) (anchored : Bool) (b : Nat) :
    chain ⟨array, Array.replicate size [], arena, metatable, mode, anchored⟩ b = [] := by
  simp only [chain, Array.getD_eq_getD_getElem?, Array.getElem?_replicate]
  split <;> rfl

/-- A table with an empty hash part is well formed. -/
theorem sound_bare (hash : Value → UInt64) (m : Moment) {array : Array Value} {size : Nat}
    (metatable : Option Ref) {mode : WeakMode} (hsize : size = 0 ∨ size.isPowerOfTwo)
    (hweak : mode.values = true → array.size = 0) (hnamed : ∀ v ∈ array, v.Named m.fresh) :
    Sound hash m ⟨array, Array.replicate size [], .empty, metatable, mode, false⟩ where
  arena := ⟨List.nodup_nil, fun i ↦ ⟨nofun, fun h ↦ absurd h.1 (Nat.not_lt_zero i)⟩, rfl, rfl⟩
  buckets := by simpa using hsize
  chain_nodup := by simp [chain_replicate]
  mem_chain_iff := by simp [chain_replicate]
  fits := fun i ↦ by
    rw [state_empty]
    exact fits_free hash m.fresh _ _
  distinct := by simp [Arena.key?, SlotState.key?]
  room := Nat.zero_le _
  size_le_buckets := Nat.zero_le _
  size_le_names := Nat.zero_le _
  unanchored := fun _ ↦ rfl
  weak_values := hweak
  array_named := hnamed

/-- A new table is well formed. -/
theorem sound_withHashSize (hash : Value → UInt64) (m : Moment) (hint : Nat) :
    (withHashSize hint).Sound hash m := by
  refine sound_bare hash m none ?_ (fun _ ↦ rfl) fun v hv ↦ absurd hv (Array.not_mem_empty v)
  split
  · exact .inl rfl
  · exact .inr ⟨_, rfl⟩

namespace Sound

/-- A slot in use has a key. -/
theorem key_mem_chain (hs : t.Sound hash m) {i : Nat} {k : Value}
    (hk : t.arena.key? m.alive i = some k) : i ∈ t.chain (t.bucketOf (hash k)) := by
  obtain ⟨key, hkey, hget⟩ := Option.bind_eq_some_iff.mp hk
  rw [hs.mem_chain_iff, ((hs.fits i).key key hkey).2.2, Handle.target_of_get hget]
  exact ⟨Arena.state_ne_free_of_key? hk, rfl⟩

/-- The key of a slot is a stored key, and its hash is stored with the slot. -/
theorem key?_fits (hs : t.Sound hash m) {i : Nat} {k : Value}
    (hk : t.arena.key? m.alive i = some k) :
    k.Stored ∧ k.Named m.fresh ∧ t.arena.hashOf i = hash k := by
  obtain ⟨key, hkey, hget⟩ := Option.bind_eq_some_iff.mp hk
  rw [← Handle.target_of_get hget]
  exact (hs.fits i).key key hkey

/-- A well-formed table stays well formed when cells go. -/
theorem later (hs : t.Sound hash m) (hle : m ≤ n) : t.Sound hash n := by
  have hkey : ∀ i k, t.arena.key? n.alive i = some k → t.arena.key? m.alive i = some k := by
    intro i k hk
    obtain ⟨key, hkey, hget⟩ := Option.bind_eq_some_iff.mp hk
    exact Option.bind_eq_some_iff.mpr
      ⟨key, hkey, Handle.get_of_le hle ((hs.fits i).key key hkey).2.1 hget⟩
  exact
    { hs with
      fits := fun i ↦ (hs.fits i).mono (Moment.fresh_le hle)
      distinct := fun i j k l hk hl ↦ hs.distinct i j k l (hkey i k hk) (hkey j l hl)
      array_named := fun v hv ↦ (hs.array_named v hv).mono (Moment.fresh_le hle) }

end Sound

/-- A search that only one element of a list satisfies finds that element. -/
theorem find?_eq_some_of_unique {l : List Nat} {p : Nat → Bool} {i : Nat} (hmem : i ∈ l)
    (hp : p i = true) (hunique : ∀ j ∈ l, p j = true → j = i) : l.find? p = some i := by
  cases hfind : l.find? p with
  | none =>
    rw [List.find?_eq_none] at hfind
    exact absurd hp (hfind i hmem)
  | some j => rw [hunique j (List.mem_of_find?_eq_some hfind) (List.find?_some hfind)]

namespace Sound

/-- A slot of the chain of a key is stopped at by a look-up if it holds the key. -/
theorem matches_iff (hs : t.Sound hash m) (hhash : Value.RespectsEq hash) {key : Value}
    (hkey : key.Stored) (i : Nat) :
    (t.arena.hasHash (hash key) i && (t.arena.key? m.alive i).any (·.rawEq key)) = true ↔
      ∃ k, t.arena.key? m.alive i = some k ∧ k.content = key.content := by
  simp only [Bool.and_eq_true, Option.any_eq_true]
  constructor
  · rintro ⟨-, k, hk, heq⟩
    exact ⟨k, hk, (Value.rawEq_iff_content_eq (hs.key?_fits hk).1 hkey).mp heq⟩
  · rintro ⟨k, hk, hcontent⟩
    obtain ⟨hstored, -, hhashOf⟩ := hs.key?_fits hk
    refine ⟨?_, k, hk, (Value.rawEq_iff_content_eq hstored hkey).mpr hcontent⟩
    rw [Arena.hasHash_iff (Arena.state_ne_free_of_key? hk), hhashOf]
    exact hhash.of_content_eq hstored hkey hcontent

/-- A slot that holds a key is in the chain that the key selects. -/
theorem mem_chain_of_content (hs : t.Sound hash m) (hhash : Value.RespectsEq hash) {key : Value}
    (hkey : key.Stored) {i : Nat} {k : Value} (hk : t.arena.key? m.alive i = some k)
    (hcontent : k.content = key.content) : i ∈ t.chain (t.bucketOf (hash key)) := by
  rw [← hhash.of_content_eq (hs.key?_fits hk).1 hkey hcontent]
  exact hs.key_mem_chain hk

/-- A look-up finds the slot that holds the key. -/
theorem slot?_eq_some_iff (hs : t.Sound hash m) (hhash : Value.RespectsEq hash) {key : Value}
    (hkey : key.Stored) {i : Nat} :
    t.slot? (m.context hash) key = some i ↔
      ∃ k, t.arena.key? m.alive i = some k ∧ k.content = key.content := by
  rw [slot?, Arena.locate?_eq]
  simp only [Moment.context_hash, Moment.context_alive]
  constructor
  · intro h
    have hfound := List.find?_some h
    exact (hs.matches_iff hhash hkey i).mp hfound
  · rintro ⟨k, hk, hcontent⟩
    refine find?_eq_some_of_unique (hs.mem_chain_of_content hhash hkey hk hcontent)
      ((hs.matches_iff hhash hkey i).mpr ⟨k, hk, hcontent⟩) ?_
    intro j _ hj
    obtain ⟨l, hl, hlcontent⟩ := (hs.matches_iff hhash hkey j).mp hj
    exact hs.distinct j i l k hl hk (hlcontent.trans hcontent.symm)

/-- A look-up finds nothing if no slot holds the key. -/
theorem slot?_eq_none_iff (hs : t.Sound hash m) (hhash : Value.RespectsEq hash) {key : Value}
    (hkey : key.Stored) :
    t.slot? (m.context hash) key = none ↔
      ∀ i k, t.arena.key? m.alive i = some k → k.content ≠ key.content := by
  constructor
  · intro h i k hk hcontent
    have := (hs.slot?_eq_some_iff hhash hkey).mpr ⟨k, hk, hcontent⟩
    rw [h] at this
    cases this
  · intro h
    cases hslot : t.slot? (m.context hash) key with
    | none => rfl
    | some i =>
      obtain ⟨k, hk, hcontent⟩ := (hs.slot?_eq_some_iff hhash hkey).mp hslot
      exact absurd hcontent (h i k hk)

/-- A look-up of an entry finds the slot that holds the key, if that is live. -/
theorem find?_eq_some_iff (hs : t.Sound hash m) (hhash : Value.RespectsEq hash) {key : Value}
    (hkey : key.Stored) {i : Nat} :
    t.arena.find? m.alive (t.chain (t.bucketOf (hash key))) (hash key) (·.rawEq key) = some i ↔
      t.arena.isLive i = true ∧
        ∃ k, t.arena.key? m.alive i = some k ∧ k.content = key.content := by
  have hiff : ∀ j, (t.arena.hasHash (hash key) j && (t.arena.isLive j &&
      (t.arena.key? m.alive j).any (·.rawEq key))) = true ↔
      t.arena.isLive j = true ∧
        ∃ k, t.arena.key? m.alive j = some k ∧ k.content = key.content := by
    intro j
    rw [← hs.matches_iff hhash hkey j]
    simp only [Bool.and_eq_true]
    exact and_left_comm
  rw [Arena.find?_eq]
  constructor
  · intro h
    have hfound := List.find?_some h
    exact (hiff i).mp hfound
  · rintro ⟨hlive, k, hk, hcontent⟩
    refine find?_eq_some_of_unique (hs.mem_chain_of_content hhash hkey hk hcontent)
      ((hiff i).mpr ⟨hlive, k, hk, hcontent⟩) ?_
    intro j _ hj
    obtain ⟨-, l, hl, hlcontent⟩ := (hiff j).mp hj
    exact hs.distinct j i l k hl hk (hlcontent.trans hcontent.symm)

/-- What the hash part has under a key is the value in the slot that holds it. -/
theorem getFromHash_eq (hs : t.Sound hash m) (hhash : Value.RespectsEq hash) {key : Value}
    (hkey : key.Stored) :
    t.getFromHash (m.context hash) key =
      ((t.slot? (m.context hash) key).bind (t.arena.value? m.alive)).getD .nil := by
  -- The two look-ups differ only where the slot is dead, and there it has no value.
  have hvalue : ∀ i v, t.arena.value? m.alive i = some v → t.arena.isLive i = true := by
    intro i v hv
    rw [Arena.isLive_eq]
    unfold Arena.value? at hv
    cases hstate : t.arena.state i <;> simp_all [SlotState.isLive]
  unfold getFromHash
  simp only [Moment.context_hash, Moment.context_alive]
  congr 1
  apply Option.ext
  intro v
  simp only [Option.bind_eq_some_iff, hs.find?_eq_some_iff hhash hkey,
    hs.slot?_eq_some_iff hhash hkey]
  constructor
  · rintro ⟨i, ⟨-, hk⟩, hv⟩
    exact ⟨i, hk, hv⟩
  · rintro ⟨i, hk, hv⟩
    exact ⟨i, ⟨hvalue i v hv, hk⟩, hv⟩

/-- The values of entries are not nil. -/
theorem value?_ne_nil (hs : t.Sound hash m) {i : Nat} {v : Value}
    (hv : t.arena.value? m.alive i = some v) : v ≠ .nil := by
  unfold Arena.value? at hv
  split at hv
  · rename_i key value hstate
    rw [← Handle.target_of_get hv]
    exact ((hs.fits i).live key value hstate).2.2.1
  · cases hv

/-- The hash part has a value under a key if a slot has this entry. -/
theorem getFromHash_of_entry (hs : t.Sound hash m) (hhash : Value.RespectsEq hash) {key : Value}
    (hkey : key.Stored) {i : Nat} {k v : Value} (hentry : t.arena.binding? m.alive i = some (k, v))
    (hcontent : k.content = key.content) : t.getFromHash (m.context hash) key = v := by
  obtain ⟨hk, hv⟩ := Arena.binding?_eq_some_iff.mp hentry
  rw [hs.getFromHash_eq hhash hkey, (hs.slot?_eq_some_iff hhash hkey).mpr ⟨k, hk, hcontent⟩]
  simp [hv]

/-- The hash part has nothing under a key if no slot has an entry for it. -/
theorem getFromHash_eq_nil (hs : t.Sound hash m) (hhash : Value.RespectsEq hash) {key : Value}
    (hkey : key.Stored)
    (h : ∀ i k v, t.arena.binding? m.alive i = some (k, v) → k.content ≠ key.content) :
    t.getFromHash (m.context hash) key = .nil := by
  rw [hs.getFromHash_eq hhash hkey]
  cases hslot : t.slot? (m.context hash) key with
  | none => rfl
  | some i =>
    obtain ⟨k, hk, hcontent⟩ := (hs.slot?_eq_some_iff hhash hkey).mp hslot
    cases hv : t.arena.value? m.alive i with
    | none => simp [hv]
    | some v => exact absurd hcontent (h i k v (Arena.binding?_eq_some_iff.mpr ⟨hk, hv⟩))

/-- There are dead slots only while an enumeration may be on the way. -/
theorem state_ne_dead (hs : t.Sound hash m) (hanchored : t.anchored = false) (i : Nat)
    (key : Handle) : t.arena.state i ≠ .dead key := by
  intro hstate
  have hlt : i < t.arena.slots.size := Arena.lt_size_of_state (by simp [hstate])
  have hpos := Arena.countOf_pos (p := SlotState.isDead) hlt (by rw [hstate]; rfl)
  rw [← hs.arena.dead_eq, hs.unanchored hanchored] at hpos
  exact Nat.lt_irrefl 0 hpos

/-- A table without live slots has nothing in its hash part. -/
theorem getFromHash_of_live_eq_zero (hs : t.Sound hash m) (hlive : t.arena.live = 0) (ctx : Context)
    (key : Value) : t.getFromHash ctx key = .nil := by
  have hnone : ∀ i, t.arena.isLive i = false := by
    intro i
    rw [Arena.isLive_eq]
    by_contra hne
    have htrue : (t.arena.state i).isLive = true := by simpa using hne
    have hstate : t.arena.state i ≠ .free := by
      intro hfree
      rw [hfree] at htrue
      cases htrue
    have := Arena.countOf_pos (Arena.lt_size_of_state hstate) htrue
    rw [← hs.arena.live_eq] at this
    omega
  have hfind : ∀ chain slotHash p, t.arena.find? ctx.alive chain slotHash p = none := by
    intro chain slotHash p
    rw [Arena.find?_eq, List.find?_eq_none]
    simp [hnone]
  simp [getFromHash, hfind]

/-- A value of the hash part is that of a slot. -/
theorem entry_of_getFromHash (hs : t.Sound hash m) (hhash : Value.RespectsEq hash) {key : Value}
    (hkey : key.Stored) (hne : t.getFromHash (m.context hash) key ≠ .nil) :
    ∃ i k, t.arena.binding? m.alive i = some (k, t.getFromHash (m.context hash) key) ∧
      k.content = key.content := by
  by_contra hnone
  refine hne (hs.getFromHash_eq_nil hhash hkey fun i k v hentry hcontent ↦ ?_)
  refine hnone ⟨i, k, ?_, hcontent⟩
  rwa [hs.getFromHash_of_entry hhash hkey hentry hcontent]

/-- Tables whose slots have the same entries under a key have the same value there. -/
theorem getFromHash_congr (hs : t.Sound hash m) {u : Table} (hu : u.Sound hash m)
    (hhash : Value.RespectsEq hash) {key : Value} (hkey : key.Stored)
    (h : ∀ v, (∃ i k, t.arena.binding? m.alive i = some (k, v) ∧ k.content = key.content) ↔
      ∃ i k, u.arena.binding? m.alive i = some (k, v) ∧ k.content = key.content) :
    t.getFromHash (m.context hash) key = u.getFromHash (m.context hash) key := by
  by_cases hne : u.getFromHash (m.context hash) key = .nil
  · rw [hne]
    refine hs.getFromHash_eq_nil hhash hkey fun i k v hentry hcontent ↦ ?_
    obtain ⟨j, l, hentry', hcontent'⟩ := (h v).mp ⟨i, k, hentry, hcontent⟩
    have hv := hs.value?_ne_nil (Arena.binding?_eq_some_iff.mp hentry).2
    exact hv ((hu.getFromHash_of_entry hhash hkey hentry' hcontent').symm.trans hne)
  · obtain ⟨i, k, hentry, hcontent⟩ := (h _).mpr (hu.entry_of_getFromHash hhash hkey hne)
    exact hs.getFromHash_of_entry hhash hkey hentry hcontent

/-- When a slot loses its entry, its key has no value any more and the others have the same. -/
theorem getFromHash_clear (hs : t.Sound hash m) {u : Table} (hu : u.Sound hash m)
    (hhash : Value.RespectsEq hash) {i : Nat} {k : Value} (hk : t.arena.key? m.alive i = some k)
    (hnone : u.arena.binding? m.alive i = none)
    (hother : ∀ j, j ≠ i → u.arena.binding? m.alive j = t.arena.binding? m.alive j) {key : Value}
    (hkey : key.Stored) :
    u.getFromHash (m.context hash) key =
      if key.content = k.content then .nil else t.getFromHash (m.context hash) key := by
  split
  · rename_i hcontent
    refine hu.getFromHash_eq_nil hhash hkey fun j l v hentry hlcontent ↦ ?_
    by_cases hj : j = i
    · rw [hj, hnone] at hentry
      cases hentry
    · rw [hother j hj] at hentry
      exact hj (hs.distinct j i l k (Arena.binding?_eq_some_iff.mp hentry).1 hk
        (hlcontent.trans hcontent))
  · rename_i hcontent
    refine hu.getFromHash_congr hs hhash hkey fun v ↦ ?_
    constructor
    · rintro ⟨j, l, hentry, hlcontent⟩
      by_cases hj : j = i
      · rw [hj, hnone] at hentry
        cases hentry
      · exact ⟨j, l, hother j hj ▸ hentry, hlcontent⟩
    · rintro ⟨j, l, hentry, hlcontent⟩
      refine ⟨j, l, ?_, hlcontent⟩
      rw [hother j ?_]
      · exact hentry
      · rintro rfl
        have := (Arena.binding?_eq_some_iff.mp hentry).1.symm.trans hk
        exact hcontent (hlcontent.symm.trans (congrArg Value.content (Option.some.inj this)))

/-- When a slot gets an entry, its key has that value and the others have the same as before. -/
theorem getFromHash_put (hs : t.Sound hash m) {u : Table} (hu : u.Sound hash m)
    (hhash : Value.RespectsEq hash) {i : Nat} {k v : Value}
    (hentry : u.arena.binding? m.alive i = some (k, v))
    (hother : ∀ j, j ≠ i → u.arena.binding? m.alive j = t.arena.binding? m.alive j)
    (hsame : ∀ l, t.arena.key? m.alive i = some l → l.content = k.content) {key : Value}
    (hkey : key.Stored) :
    u.getFromHash (m.context hash) key =
      if key.content = k.content then v else t.getFromHash (m.context hash) key := by
  split
  · rename_i hcontent
    exact hu.getFromHash_of_entry hhash hkey hentry hcontent.symm
  · rename_i hcontent
    refine hu.getFromHash_congr hs hhash hkey fun w ↦ ?_
    constructor
    · rintro ⟨j, l, hj, hlcontent⟩
      refine ⟨j, l, ?_, hlcontent⟩
      rw [← hother j ?_]
      · exact hj
      · rintro rfl
        rw [hentry] at hj
        cases hj
        exact hcontent hlcontent.symm
    · rintro ⟨j, l, hj, hlcontent⟩
      refine ⟨j, l, ?_, hlcontent⟩
      rw [hother j ?_]
      · exact hj
      · rintro rfl
        have := hsame l (Arena.binding?_eq_some_iff.mp hj).1
        exact hcontent (hlcontent.symm.trans this)

/-- Tables with the same array part and the same entries in their slots have the same values. -/
theorem get_congr (hs : t.Sound hash m) {u : Table} (hu : u.Sound hash m)
    (hhash : Value.RespectsEq hash) (harray : u.array = t.array)
    (hentry : ∀ i, u.arena.binding? m.alive i = t.arena.binding? m.alive i) (key : Value) :
    u.get (m.context hash) key = t.get (m.context hash) key := by
  cases hkey : key.key? with
  | none => rw [get_of_key?_none _ _ hkey, get_of_key?_none _ _ hkey]
  | some k =>
    rw [get_of_key?_some _ _ hkey, get_of_key?_some _ _ hkey,
      index?_congr (congrArg Array.size harray), harray,
      hu.getFromHash_congr hs hhash (Value.stored_of_key? hkey)
      (by simp only [hentry, implies_true])]

end Sound

end Table

end LuaData
