import LuaData.Proofs.Appending

/-!
# The invariant of a table

`Consistent` spells out how the buckets, chains, slots and counters of a table fit together,
whatever its weak mode is. With weak values there is no array part either (`Invariant`). A table
that is reached has the whole invariant, and no operation on it finds it broken
(`Reaches.keeps_invariant`). A change of the weak mode that is refused leaves a consistent table;
but if its new values are weak, it has the invariant only without an array part
(`refused_mode_breaks_invariant`).
-/

namespace LuaData.Table

variable {hash : Value → UInt64} {hint : Nat} {m n : Moment} {t : Table} {key value : Value}

/-- How the parts of a table fit together at every moment. -/
structure Consistent (hash : Value → UInt64) (m : Moment) (t : Table) : Prop where
  buckets : t.buckets.size = 0 ∨ ∃ e, t.buckets.size = 2 ^ e
  /-- The chains and the free list have no slot in common or twice, and together they have all. -/
  partition : (t.buckets.toList.flatten ++ t.arena.free).Perm (List.range t.arena.slots.size)
  /-- The slots of a chain are in use, and their hash selects the bucket. -/
  linked : ∀ b i, i ∈ t.chain b → t.arena.state i ≠ .free ∧ t.bucketOf (t.arena.hashOf i) = b
  /-- The hash of a slot is that of its key while the key is there. -/
  hashed : ∀ b i key, i ∈ t.chain b → t.arena.key? m.alive i = some key →
    t.arena.hashOf i = hash key
  /-- No two slots hold equal keys. -/
  distinct : ∀ b b' i j k l, i ∈ t.chain b → j ∈ t.chain b' → t.arena.key? m.alive i = some k →
    t.arena.key? m.alive j = some l → k.rawEq l = true → i = j
  /-- No slot, live or dead, holds a key of the array part. -/
  outside : ∀ b i key n, i ∈ t.chain b → (t.arena.state i).key? = some key →
    key.target = .int n → ¬ (1 ≤ n.toInt ∧ n.toInt ≤ t.array.size)
  live : t.arena.live = t.arena.slots.countP fun slot ↦ slot.state.isLive
  dead : t.arena.dead = t.arena.slots.countP fun slot ↦ slot.state.isDead
  room : t.arena.live + t.arena.dead ≤ t.buckets.size
  /-- There are dead slots only while an enumeration may be on the way. -/
  tombstones : t.anchored = false → ∀ i key, t.arena.state i ≠ .dead key
  /-- No chain is longer than the arena. -/
  budget : ∀ b, (t.chain b).length ≤ t.arena.slots.size

/-- What a table keeps to at every moment. -/
structure Invariant (hash : Value → UInt64) (m : Moment) (t : Table) : Prop
    extends Consistent hash m t where
  weak_values : t.mode.values = true → t.array.size = 0

/-- Well-formed tables are consistent. -/
theorem Sound.consistent (hs : t.Sound hash m) : t.Consistent hash m where
  buckets := hs.buckets
  partition := hs.linked_append_free_perm
  linked := fun b i hi ↦ (hs.mem_chain_iff b i).mp hi
  hashed := fun _ _ _ _ hkey ↦ (hs.key?_fits hkey).2.2
  distinct := fun _ _ i j k l _ _ hk hl heq ↦ hs.distinct i j k l hk hl
    ((Value.rawEq_iff_content_eq (hs.key?_fits hk).1 (hs.key?_fits hl).1).mp heq)
  outside := fun _ i key n _ hkey htarget hin ↦ by
    have houtside := (hs.fits i).outside key n hkey htarget
    unfold arrayIndex? at houtside
    rw [if_pos hin] at houtside
    cases houtside
  live := hs.arena.live_eq
  dead := hs.arena.dead_eq
  room := hs.room
  tombstones := hs.state_ne_dead
  budget := fun b ↦ by
    have hsubset : ∀ i ∈ t.chain b, i ∈ List.range t.arena.slots.size := fun i hi ↦
      List.mem_range.mpr (Arena.lt_size_of_state ((hs.mem_chain_iff b i).mp hi).1)
    have hlength := (List.subperm_of_subset (hs.chain_nodup b) hsubset).length_le
    simpa using hlength

/-- Well-formed tables keep to the invariant. -/
theorem Sound.invariant (hs : t.Sound hash m) : t.Invariant hash m :=
  ⟨hs.consistent, hs.weak_values⟩

/-- How the parts fit together does not depend on the metatable or the weak mode. -/
theorem Consistent.withMode (h : t.Consistent hash m) (metatable : Option Ref) (mode : WeakMode) :
    Consistent hash m { t with metatable, mode } :=
  { h with }

/-- The answer of an operation is not a broken invariant. It can only be that all names of slots are
taken, in a table that was made for more entries than there are names. -/
def Faultless {α : Type} (hint : Nat) (r : Except Error α) : Prop :=
  ∀ e, r = .error e → e.kind = .internal → e = .fault .noSlot ∧ 2 ^ 32 < hint

/-- A refusal is no broken invariant. -/
theorem faultless_of_refusal {α : Type} {r : Except Error α}
    (hlimit : t.buckets.size ≤ bucketLimit hint) (h : ∀ e, r = .error e → t.Refusal e) :
    Faultless hint r := by
  intro e he hinternal
  rcases h e he with hkind | ⟨rfl, hnames⟩
  · rw [hkind] at hinternal
    cases hinternal
  · exact ⟨rfl, lt_hint_of_lt_bucketLimit (hnames.trans_le hlimit)⟩

/-- The operations on a table that are not refused run to their end. -/
structure Safe (hash : Value → UInt64) (hint : Nat) (m : Moment) (t : Table) : Prop where
  store : ∀ (c : Course) (key value : Value), m ≤ c.clear → key.Named m.fresh →
    value.Named m.fresh → Faultless hint (t.store hash c key value).1
  insert : ∀ (position : Int64) (value : Value) (made : List (Nat × Nat)) (r : Except Error Unit)
    (n : Moment) (u : Table), value.Named m.fresh → Inserts hash m t position value made r n u →
    Faultless hint r
  remove : ∀ (position : Int64) (made : List (Nat × Nat)) (r : Except Error Value) (n : Moment)
    (u : Table), Removes hash m t position made r n u → Faultless hint r
  next : ∀ key, Faultless hint (t.next (m.context hash) key)
  setMetatable : ∀ (n : Moment) (metatable : Option Ref) (mode : WeakMode), m ≤ n →
    Faultless hint (Table.setMode (n.context hash) { t with metatable } mode)

/-- Every table that is reached keeps to the invariant, and no operation on it finds it broken. A
change of the weak mode that is refused leaves the table consistent, and it keeps the invariant
unless it asks for weak values while there is an array part. -/
theorem Reaches.keeps_invariant (hhash : Value.RespectsEq hash) (h : Reaches hash hint m t) :
    t.Invariant hash m ∧ (t.array.size ≤ 2 ^ 31 → t.Safe hash hint m) ∧
      ∀ n, m ≤ n → ∀ metatable mode,
        Table.setMode (n.context hash) { t with metatable } mode = .error .tableOverflow →
        Consistent hash n { t with metatable, mode } ∧
          (Invariant hash n { t with metatable, mode } ↔
            (mode.values = true → t.array.size = 0)) := by
  obtain ⟨hs, hlimit⟩ := h.sound hhash
  refine ⟨hs.invariant, fun hsize ↦ ⟨?_, ?_, ?_, ?_, ?_⟩, ?_⟩
  · intro c key value hle hnamed hvalueNamed
    exact faultless_of_refusal hlimit (hs.store hle hhash hnamed hvalueNamed hsize).2
  · intro position value made r n u hvalueNamed hinsert
    exact faultless_of_refusal hlimit (hinsert.evolved hs hhash hsize hvalueNamed).2.2
  · intro position made r n u hremove
    exact faultless_of_refusal hlimit (hremove.evolved hs hhash hsize).2.2
  · intro key e he hinternal
    rcases next_cases (m.context hash) t key with herror | ⟨found, u, hok, -⟩
    · rw [he] at herror
      cases herror
      cases hinternal
    · rw [he] at hok
      cases hok
  · intro n metatable mode hle e he hinternal
    rcases (hs.later hle).setMode hhash hsize metatable mode with herror | ⟨u, hok, -⟩
    · rw [he] at herror
      cases herror
      cases hinternal
    · rw [he] at hok
      cases hok
  · intro n hle metatable mode _
    have hconsistent := (hs.later hle).consistent.withMode metatable mode
    exact ⟨hconsistent, fun hinvariant ↦ hinvariant.weak_values, fun hempty ↦ ⟨hconsistent, hempty⟩⟩

/-- A table with an entry in its hash part and one in its array part. -/
theorem keeps_invariant_of_two_writes :
    ∃ t, Reaches Value.hash 4 .origin t ∧ t.array.size = 1 ∧ t.arena.live = 1 ∧
      t.Invariant Value.hash .origin ∧ t.Safe Value.hash 4 .origin := by
  let first := (store Value.hash (.still .origin) (withHashSize 4) (.int 7) (.bool true)).2
  let second := (store Value.hash (.still .origin) first (.int 1) (.bool false)).2
  have hfirst : Reaches Value.hash 4 .origin first :=
    (Reaches.new .origin).storeInline (by decide) rfl rfl
  have hsecond : Reaches Value.hash 4 .origin second :=
    hfirst.storeInline (by decide +kernel) rfl rfl
  obtain ⟨hinvariant, hsafe, -⟩ := hsecond.keeps_invariant Value.rawEq_hash
  exact ⟨second, hsecond, by decide +kernel, by decide +kernel, hinvariant,
    hsafe (by decide +kernel)⟩

/-- The values that were added cannot be made weak if there are more than the hash part takes. The
refused change leaves weak values in the array part, and the invariant is broken. -/
theorem refused_mode_breaks_invariant :
    ∃ t, Visits Value.hash 0 false .origin t ∧ t.array.size = 2 ^ maxHashBits + 1 ∧
      t.mode.values = true ∧ ¬ t.Invariant Value.hash .origin := by
  let t := appended 0 (2 ^ maxHashBits + 1) (.bool true)
  have hvisits : Visits Value.hash 0 false .origin { t with mode := ⟨false, true⟩ } :=
    visits_refused _ 0 (fun h ↦ by cases h) (Value.named_of_inline rfl _) (Nat.lt_succ_self _)
      (by decide) rfl
  have hsize : t.array.size = 2 ^ maxHashBits + 1 := size_array_appended _ _ _
  refine ⟨_, hvisits, hsize, rfl, fun hinvariant ↦ ?_⟩
  have hempty : t.array.size = 0 := hinvariant.weak_values rfl
  rw [hsize] at hempty
  cases hempty

end LuaData.Table
