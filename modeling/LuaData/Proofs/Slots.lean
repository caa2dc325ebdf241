import Mathlib.Data.List.Nodup
import Mathlib.Data.List.Perm.Basic
import LuaData.Table.Slots

/-!
# What the operations on slots change

Every operation on an arena changes one slot: the lemmas below say what that slot holds afterwards
and that the others stay as they are. `Arena.Sound` is the part of the representation of a table
that the arena answers for alone: the free list holds exactly the free slots, each once, and the
counters count the live and the dead ones.
-/

namespace LuaData

/-- The value that a handle was made for, also when it has lost its cell. -/
def Handle.target : Handle → Value
  | .strong v => v
  | .weak v => v

namespace SlotState

/-- The slot has an entry. -/
def isLive : SlotState → Bool
  | .live _ _ => true
  | _ => false

/-- The slot had an entry and keeps its key. -/
def isDead : SlotState → Bool
  | .dead _ => true
  | _ => false

/-- The handle on the key of a slot in use. -/
def key? : SlotState → Option Handle
  | .live key _ => some key
  | .dead key => some key
  | .free => none

end SlotState

namespace Arena

/-- The hash stored with a slot. -/
def hashOf (a : Arena) (i : Nat) : UInt64 :=
  (a.slots[i]?.map Slot.hash).getD 0

/-- The key of a slot in use, unless it has expired. -/
def key? (alive : Ref → Bool) (a : Arena) (i : Nat) : Option Value :=
  (a.state i).key?.bind (Handle.get alive)

/-- The number of slots whose state satisfies a predicate. -/
def countOf (a : Arena) (p : SlotState → Bool) : Nat :=
  a.slots.countP fun slot ↦ p slot.state

/-- The free list and the counters tell what the slots hold. -/
structure Sound (a : Arena) : Prop where
  free_nodup : a.free.Nodup
  mem_free_iff : ∀ i, i ∈ a.free ↔ i < a.slots.size ∧ a.state i = .free
  live_eq : a.live = a.countOf SlotState.isLive
  dead_eq : a.dead = a.countOf SlotState.isDead

/-- A slot in use is one of the slots. -/
theorem lt_size_of_state {a : Arena} {i : Nat} (h : a.state i ≠ .free) : i < a.slots.size := by
  by_contra hge
  exact h (by simp [state, Array.getElem?_eq_none (Nat.le_of_not_lt hge)])

/-- Whether a slot in use has a given hash is read off the hash stored with it. -/
theorem hasHash_iff {a : Arena} {i : Nat} (h : a.state i ≠ .free) (hash : UInt64) :
    a.hasHash hash i = true ↔ a.hashOf i = hash := by
  have hlt := lt_size_of_state h
  simp [hasHash, hashOf, hlt]

/-- A slot without a key is free. -/
theorem state_ne_free_iff {a : Arena} {i : Nat} :
    a.state i ≠ .free ↔ ∃ key, (a.state i).key? = some key := by
  cases a.state i <;> simp [SlotState.key?]

/-- A slot with a key that is still there is in use. -/
theorem state_ne_free_of_key? {alive : Ref → Bool} {a : Arena} {i : Nat} {k : Value}
    (h : a.key? alive i = some k) : a.state i ≠ .free := by
  obtain ⟨key, hkey, -⟩ := Option.bind_eq_some_iff.mp h
  exact state_ne_free_iff.mpr ⟨key, hkey⟩

/-- The slot is live. -/
theorem isLive_eq (a : Arena) (i : Nat) : a.isLive i = (a.state i).isLive := by
  unfold isLive
  cases a.state i <;> rfl

/-- The slots in use at which a look-up stops have a key that satisfies the predicate. -/
theorem locate?_eq (alive : Ref → Bool) (a : Arena) (chain : List Nat) (hash : UInt64)
    (p : Value → Bool) :
    a.locate? alive chain hash p =
      chain.find? fun i ↦ a.hasHash hash i && (a.key? alive i).any p := by
  unfold locate?
  congr 1
  funext i
  simp only [key?]
  cases a.state i <;> simp [SlotState.key?, Handle.holds]

/-- The slots at which a look-up of an entry stops are live besides. -/
theorem find?_eq (alive : Ref → Bool) (a : Arena) (chain : List Nat) (hash : UInt64)
    (p : Value → Bool) :
    a.find? alive chain hash p =
      chain.find? fun i ↦ a.hasHash hash i && (a.isLive i && (a.key? alive i).any p) := by
  unfold find?
  congr 1
  funext i
  simp only [key?, isLive]
  cases a.state i <;> simp [SlotState.key?, Handle.holds]

/-- The entry of a slot is its key and its value. -/
theorem binding?_eq_some_iff {alive : Ref → Bool} {a : Arena} {i : Nat} {k v : Value} :
    a.binding? alive i = some (k, v) ↔ a.key? alive i = some k ∧ a.value? alive i = some v := by
  unfold binding? key? value?
  cases a.state i with
  | live key value =>
    simp only [SlotState.key?, Option.bind_some]
    cases key.get alive <;> cases value.get alive <;> simp
  | dead key => simp [SlotState.key?]
  | free => simp [SlotState.key?]

/-! ## Replacing what a slot holds -/

@[simp]
theorem size_setState (a : Arena) (i : Nat) (state : SlotState) :
    (a.setState i state).slots.size = a.slots.size := by
  simp [setState]

@[simp]
theorem hashOf_setState (a : Arena) (i j : Nat) (state : SlotState) :
    (a.setState i state).hashOf j = a.hashOf j := by
  simp only [hashOf, setState, Array.getElem?_modify]
  split
  · cases a.slots[j]? <;> rfl
  · rfl

/-- A counter changes by what the slot held before and holds now. -/
theorem countOf_setState (a : Arena) {i : Nat} (state : SlotState) (p : SlotState → Bool)
    (hi : i < a.slots.size) :
    (a.setState i state).countOf p =
      a.countOf p - (if p (a.state i) then 1 else 0) + (if p state then 1 else 0) := by
  have hset : a.slots.modify i (fun slot ↦ { slot with state }) =
      a.slots.set i { a.slots[i] with state } hi := by
    apply Array.ext
    · simp
    · intro j hj hj'
      simp only [Array.getElem_modify, Array.getElem_set]
      split
      · subst_vars
        rfl
      · rfl
  simp only [countOf, setState, hset, Array.countP_set, Arena.state, Array.getElem?_eq_getElem hi,
    Option.map_some, Option.getD_some]

/-- A slot that satisfies a predicate is counted. -/
theorem countOf_pos {a : Arena} {i : Nat} {p : SlotState → Bool} (hi : i < a.slots.size)
    (hp : p (a.state i) = true) : 0 < a.countOf p := by
  rw [countOf, Array.countP_pos_iff]
  refine ⟨a.slots[i], Array.getElem_mem hi, ?_⟩
  simpa [Arena.state, hi] using hp

/-- What an arena holds depends on its slots alone. -/
theorem state_congr {a b : Arena} (h : a.slots = b.slots) (i : Nat) : a.state i = b.state i := by
  rw [state, state, h]

/-- The stored hashes depend on the slots alone. -/
theorem hashOf_congr {a b : Arena} (h : a.slots = b.slots) (i : Nat) : a.hashOf i = b.hashOf i := by
  rw [hashOf, hashOf, h]

/-- The counts depend on the slots alone. -/
theorem countOf_congr {a b : Arena} (h : a.slots = b.slots) (p : SlotState → Bool) :
    a.countOf p = b.countOf p := by
  rw [countOf, countOf, h]

/-! ## Storing an entry in a slot in use -/

theorem slots_assign (a : Arena) (i : Nat) (key value : Handle) :
    (a.assign i key value).slots = (a.setState i (.live key value)).slots := by
  unfold assign
  split <;> rfl

@[simp]
theorem hashOf_assign (a : Arena) (i j : Nat) (key value : Handle) :
    (a.assign i key value).hashOf j = a.hashOf j := by
  rw [hashOf_congr (slots_assign a i key value), hashOf_setState]

theorem state_assign_self {a : Arena} {i : Nat} (key value : Handle) (h : a.state i ≠ .free) :
    (a.assign i key value).state i = .live key value := by
  rw [state_congr (slots_assign a i key value), state_setState_self _ _ (lt_size_of_state h)]

theorem state_assign_of_ne (a : Arena) {i j : Nat} (key value : Handle) (h : i ≠ j) :
    (a.assign i key value).state j = a.state j := by
  rw [state_congr (slots_assign a i key value), state_setState_of_ne _ _ h]

@[simp]
theorem size_assign (a : Arena) (i : Nat) (key value : Handle) :
    (a.assign i key value).slots.size = a.slots.size := by
  rw [slots_assign, size_setState]

@[simp]
theorem free_assign (a : Arena) (i : Nat) (key value : Handle) :
    (a.assign i key value).free = a.free := by
  unfold assign
  split <;> rfl

/-- Storing an entry keeps the free list and the counters right. -/
theorem Sound.assign {a : Arena} (ha : a.Sound) {i : Nat} (key value : Handle)
    (h : a.state i ≠ .free) : (a.assign i key value).Sound := by
  have hlt := lt_size_of_state h
  refine ⟨by simpa using ha.free_nodup, ?_, ?_, ?_⟩
  · intro j
    rw [free_assign, size_assign, ha.mem_free_iff]
    by_cases hij : i = j
    · subst hij
      simp [state_assign_self key value h, h]
    · rw [state_assign_of_ne a key value hij]
  · rw [countOf_congr (slots_assign a i key value), countOf_setState a _ _ hlt, ← ha.live_eq]
    have hpos := countOf_pos (p := SlotState.isLive) hlt
    rw [← ha.live_eq] at hpos
    unfold Arena.assign
    cases hstate : a.state i <;> simp_all [SlotState.isLive, setState]
    omega
  · rw [countOf_congr (slots_assign a i key value), countOf_setState a _ _ hlt, ← ha.dead_eq]
    unfold Arena.assign
    cases hstate : a.state i <;> simp_all [SlotState.isDead, setState]

/-- Storing an entry takes no more room. -/
theorem Sound.used_assign {a : Arena} (ha : a.Sound) {i : Nat} (key value : Handle)
    (h : a.state i ≠ .free) : (a.assign i key value).used = a.used := by
  have hpos := countOf_pos (p := SlotState.isDead) (lt_size_of_state h)
  rw [← ha.dead_eq] at hpos
  unfold Arena.assign
  cases hstate : a.state i <;> simp_all [SlotState.isDead, setState, used]
  omega

/-! ## Burying an entry -/

/-- The handle on the key of a slot once its entry is buried. -/
def buriedKey (alive : Ref → Bool) (key : Handle) : Handle :=
  match key.get alive with
  | some k => .ofValue k (isLargeKey k)
  | none => key

theorem bury_eq {alive : Ref → Bool} {a : Arena} {i : Nat} {key value : Handle}
    (h : a.state i = .live key value) :
    a.bury alive i = { a.setState i (.dead (buriedKey alive key)) with
      live := a.live - 1
      dead := a.dead + 1 } := by
  unfold bury
  rw [h]
  rfl

theorem state_bury_self {alive : Ref → Bool} {a : Arena} {i : Nat} {key value : Handle}
    (h : a.state i = .live key value) :
    (a.bury alive i).state i = .dead (buriedKey alive key) := by
  rw [bury_eq h]
  exact state_setState_self a _ (lt_size_of_state (by simp [h]))

theorem state_bury_of_ne (alive : Ref → Bool) (a : Arena) {i j : Nat} (h : i ≠ j) :
    (a.bury alive i).state j = a.state j := by
  unfold bury
  split
  · exact state_setState_of_ne a _ h
  · rfl

@[simp]
theorem hashOf_bury (alive : Ref → Bool) (a : Arena) (i j : Nat) :
    (a.bury alive i).hashOf j = a.hashOf j := by
  unfold bury
  split
  · exact hashOf_setState a i j _
  · rfl

@[simp]
theorem size_bury (alive : Ref → Bool) (a : Arena) (i : Nat) :
    (a.bury alive i).slots.size = a.slots.size := by
  unfold bury
  split <;> simp

/-- Burying an entry keeps the free list and the counters right. -/
theorem Sound.bury {a : Arena} (ha : a.Sound) (alive : Ref → Bool) (i : Nat) :
    (a.bury alive i).Sound := by
  cases hstate : a.state i with
  | live key value =>
    have hlt := lt_size_of_state (a := a) (i := i) (by simp [hstate])
    have hpos := countOf_pos (p := SlotState.isLive) hlt (by rw [hstate]; rfl)
    rw [bury_eq hstate]
    refine ⟨ha.free_nodup, ?_, ?_, ?_⟩
    · intro j
      show j ∈ a.free ↔ j < (a.setState i _).slots.size ∧ (a.setState i _).state j = .free
      rw [size_setState, ha.mem_free_iff]
      by_cases hij : i = j
      · subst hij
        simp [state_setState_self a _ hlt, hstate]
      · rw [state_setState_of_ne a _ hij]
    · show a.live - 1 = (a.setState i _).countOf _
      rw [countOf_setState a _ _ hlt, ha.live_eq]
      simp [hstate, SlotState.isLive]
    · show a.dead + 1 = (a.setState i _).countOf _
      rw [countOf_setState a _ _ hlt, ha.dead_eq]
      simp [hstate, SlotState.isDead]
  | dead key => simpa [Arena.bury, hstate] using ha
  | free => simpa [Arena.bury, hstate] using ha

/-- Burying an entry frees no room. -/
theorem Sound.used_bury {a : Arena} (ha : a.Sound) (alive : Ref → Bool) (i : Nat) :
    (a.bury alive i).used = a.used := by
  cases hstate : a.state i with
  | live key value =>
    have hpos := countOf_pos (p := SlotState.isLive)
      (lt_size_of_state (a := a) (i := i) (by simp [hstate])) (by rw [hstate]; rfl)
    rw [← ha.live_eq] at hpos
    rw [bury_eq hstate]
    simp only [used]
    omega
  | dead key => simp [Arena.bury, hstate]
  | free => simp [Arena.bury, hstate]

/-! ## Freeing a slot -/

theorem slots_release {a : Arena} {i : Nat} (h : a.state i ≠ .free) :
    (a.release i).slots = (a.setState i .free).slots := by
  unfold release
  cases hstate : a.state i <;> simp_all

theorem free_release {a : Arena} {i : Nat} (h : a.state i ≠ .free) :
    (a.release i).free = i :: a.free := by
  unfold release
  cases hstate : a.state i <;> simp_all

@[simp]
theorem hashOf_release (a : Arena) (i j : Nat) : (a.release i).hashOf j = a.hashOf j := by
  by_cases h : a.state i = .free
  · simp [release, h]
  · rw [hashOf_congr (slots_release h), hashOf_setState]

@[simp]
theorem size_release (a : Arena) (i : Nat) : (a.release i).slots.size = a.slots.size := by
  by_cases h : a.state i = .free
  · simp [release, h]
  · rw [slots_release h, size_setState]

@[simp]
theorem state_release_self (a : Arena) (i : Nat) : (a.release i).state i = .free := by
  by_cases h : a.state i = .free
  · simp [release, h]
  · rw [state_congr (slots_release h), state_setState_self _ _ (lt_size_of_state h)]

theorem state_release_of_ne (a : Arena) {i j : Nat} (h : i ≠ j) :
    (a.release i).state j = a.state j := by
  by_cases hfree : a.state i = .free
  · simp [release, hfree]
  · rw [state_congr (slots_release hfree), state_setState_of_ne _ _ h]

/-- Freeing a slot keeps the free list and the counters right. -/
theorem Sound.release {a : Arena} (ha : a.Sound) {i : Nat} (h : a.state i ≠ .free) :
    (a.release i).Sound := by
  have hlt := lt_size_of_state h
  refine ⟨?_, ?_, ?_, ?_⟩
  · rw [free_release h, List.nodup_cons]
    exact ⟨fun hmem ↦ h ((ha.mem_free_iff i).mp hmem).2, ha.free_nodup⟩
  · intro j
    rw [free_release h, List.mem_cons, size_release, ha.mem_free_iff]
    by_cases hij : i = j
    · subst hij
      simp [hlt]
    · simp [state_release_of_ne a hij, Ne.symm hij]
  · rw [countOf_congr (slots_release h), countOf_setState a _ _ hlt, ← ha.live_eq]
    unfold Arena.release
    cases hstate : a.state i <;> simp_all [SlotState.isLive, setState]
  · rw [countOf_congr (slots_release h), countOf_setState a _ _ hlt, ← ha.dead_eq]
    unfold Arena.release
    cases hstate : a.state i <;> simp_all [SlotState.isDead, setState]

/-- Freeing a slot makes room for one. -/
theorem Sound.used_release {a : Arena} (ha : a.Sound) {i : Nat} (h : a.state i ≠ .free) :
    (a.release i).used + 1 = a.used := by
  have hlive := countOf_pos (p := SlotState.isLive) (lt_size_of_state h)
  have hdead := countOf_pos (p := SlotState.isDead) (lt_size_of_state h)
  rw [← ha.live_eq] at hlive
  rw [← ha.dead_eq] at hdead
  unfold Arena.release
  cases hstate : a.state i <;> simp_all [SlotState.isLive, SlotState.isDead, setState, used] <;>
    omega

/-- Freeing a live slot leaves one less. -/
theorem live_release {a : Arena} {i : Nat} (h : (a.state i).isLive = true) :
    (a.release i).live = a.live - 1 := by
  unfold release
  cases hstate : a.state i <;> simp_all [SlotState.isLive]

/-- Freeing a slot that is not dead leaves no more dead ones. -/
theorem dead_release_le (a : Arena) (i : Nat) : (a.release i).dead ≤ a.dead := by
  unfold release
  split
  · exact Nat.le_refl _
  · exact Nat.sub_le _ _
  · exact Nat.le_refl _

/-! ## Taking a slot into use -/

/-- The states of the slots, by their numbers. -/
theorem map_state_toList (a : Arena) :
    a.slots.toList.map Slot.state = (List.range a.slots.size).map a.state := by
  apply List.ext_getElem
  · simp
  · intro i hi _
    have hlt : i < a.slots.size := by simpa using hi
    simp [state, hlt]

/-- Every slot is live, dead or free. -/
theorem Sound.used_add_length_free {a : Arena} (ha : a.Sound) :
    a.used + a.free.length = a.slots.size := by
  have hfree : a.free.length =
      (List.range a.slots.size).countP fun i ↦ (a.state i).key?.isNone := by
    rw [List.countP_eq_length_filter]
    refine ((List.perm_ext_iff_of_nodup ha.free_nodup
      (List.nodup_range.filter _)).mpr fun i ↦ ?_).length_eq
    rw [ha.mem_free_iff, List.mem_filter, List.mem_range]
    cases a.state i <;> simp [SlotState.key?]
  have hcount : ∀ p, a.countOf p = (List.range a.slots.size).countP fun i ↦ p (a.state i) := by
    intro p
    rw [countOf, ← Array.countP_toList]
    exact (List.countP_map ..).symm.trans (a.map_state_toList ▸ List.countP_map ..)
  have hone : ∀ state : SlotState, (if state.isLive then 1 else 0) +
      (if state.isDead then 1 else 0) + (if state.key?.isNone then 1 else 0) = 1 := by
    intro state
    cases state <;> rfl
  have hsplit : ∀ is : List Nat, (is.countP fun i ↦ (a.state i).isLive) +
      (is.countP fun i ↦ (a.state i).isDead) + (is.countP fun i ↦ (a.state i).key?.isNone) =
      is.length := by
    intro is
    induction is with
    | nil => rfl
    | cons i is ih =>
      have := hone (a.state i)
      simp only [List.countP_cons, List.length_cons]
      omega
  rw [used, ha.live_eq, ha.dead_eq, hcount, hcount, hfree, hsplit, List.length_range]

/-- Without free slots all slots are live or dead. -/
theorem Sound.used_eq_size {a : Arena} (ha : a.Sound) (h : a.free = []) :
    a.used = a.slots.size := by
  simpa [h] using ha.used_add_length_free

/-- `b` is the arena `a` with an entry added in slot `i`, which was not in use. -/
structure Added (a : Arena) (i : Nat) (hash : UInt64) (key value : Handle) (b : Arena) : Prop where
  sound : b.Sound
  was_free : a.state i = .free
  state_self : b.state i = .live key value
  hashOf_self : b.hashOf i = hash
  state_of_ne : ∀ j, j ≠ i → b.state j = a.state j
  hashOf_of_ne : ∀ j, j ≠ i → b.hashOf j = a.hashOf j
  used_eq : b.used = a.used + 1
  dead_eq : b.dead = a.dead
  size_le : b.slots.size ≤ max a.slots.size (a.used + 1)
  size_le_names : b.slots.size ≤ max a.slots.size (2 ^ 32)

/-- An entry in the first free slot. -/
theorem Sound.added_reused {a : Arena} (ha : a.Sound) {i : Nat} {rest : List Nat}
    (hfree : a.free = i :: rest) (hash : UInt64) (key value : Handle) :
    Added a i hash key value
      { a with
        slots := a.slots.setIfInBounds i ⟨hash, .live key value⟩
        free := rest
        live := a.live + 1 } := by
  obtain ⟨hlt, hstate⟩ := (ha.mem_free_iff i).mp (by simp [hfree])
  have hget : a.slots[i].state = .free := by simpa [state, hlt] using hstate
  have hnodup := ha.free_nodup
  rw [hfree, List.nodup_cons] at hnodup
  have hslots : a.slots.setIfInBounds i ⟨hash, .live key value⟩ =
      a.slots.set i ⟨hash, .live key value⟩ hlt := by
    simp [Array.setIfInBounds, hlt]
  have hother : ∀ j, j ≠ i →
      (a.slots.setIfInBounds i ⟨hash, .live key value⟩)[j]? = a.slots[j]? := by
    intro j hj
    rw [Array.getElem?_setIfInBounds_ne (Ne.symm hj)]
  refine ⟨⟨hnodup.2, ?_, ?_, ?_⟩, hstate, ?_, ?_, ?_, ?_, ?_, rfl, ?_, ?_⟩
  · intro j
    by_cases hj : j = i
    · subst hj
      simp [hnodup.1, state, hlt]
    · have hmem := ha.mem_free_iff j
      rw [hfree, List.mem_cons, or_iff_right hj] at hmem
      simp only [state, hother j hj, Array.size_setIfInBounds]
      exact hmem
  · simp [countOf, hslots, Array.countP_set, hget, ha.live_eq, SlotState.isLive]
  · simp [countOf, hslots, Array.countP_set, hget, ha.dead_eq, SlotState.isDead]
  · simp [state, hlt]
  · simp [hashOf, hlt]
  · intro j hj
    simp only [state, hother j hj]
  · intro j hj
    simp only [hashOf, hother j hj]
  · simp only [used]
    omega
  · simp only [Array.size_setIfInBounds]
    omega
  · simp only [Array.size_setIfInBounds]
    omega

/-- An entry in a new slot. -/
theorem Sound.added_new {a : Arena} (ha : a.Sound) (hfree : a.free = [])
    (hsize : a.slots.size < 2 ^ 32) (hash : UInt64) (key value : Handle) :
    Added a a.slots.size hash key value
      { a with slots := a.slots.push ⟨hash, .live key value⟩, live := a.live + 1 } := by
  have hused := ha.used_eq_size hfree
  have hother : ∀ j, j ≠ a.slots.size →
      (a.slots.push ⟨hash, .live key value⟩)[j]? = a.slots[j]? := by
    intro j hj
    simp [Array.getElem?_push, hj]
  refine ⟨⟨ha.free_nodup, ?_, ?_, ?_⟩, ?_, ?_, ?_, ?_, ?_, ?_, rfl, ?_, ?_⟩
  · intro j
    have hmem := ha.mem_free_iff j
    by_cases hj : j = a.slots.size
    · subst hj
      simp [hfree, state]
    · simp only [state, hother j hj, Array.size_push]
      rw [hmem]
      constructor
      · rintro ⟨hlt, hstate⟩
        exact ⟨by omega, hstate⟩
      · rintro ⟨hlt, hstate⟩
        exact ⟨by omega, hstate⟩
  · simp [countOf, ha.live_eq, SlotState.isLive]
  · simp [countOf, ha.dead_eq, SlotState.isDead]
  · simp [state]
  · simp [state]
  · simp [hashOf]
  · intro j hj
    simp only [state, hother j hj]
  · intro j hj
    simp only [hashOf, hother j hj]
  · simp only [used]
    omega
  · simp [hused]
  · simp only [Array.size_push]
    omega

/-- Adding an entry to a chain of slots in use succeeds unless all names of slots are taken. The
slot is one that was not in use, so it is not the end of the chain. -/
theorem Sound.append {a : Arena} (ha : a.Sound) {chain : List Nat}
    (hchain : ∀ i ∈ chain, a.state i ≠ .free) (hash : UInt64) (key value : Handle) :
    (∃ i b, a.append chain hash key value = .ok (b, chain ++ [i]) ∧ Added a i hash key value b) ∨
      a.append chain hash key value = .error (.fault .noSlot) ∧ a.free = [] ∧
        2 ^ 32 ≤ a.slots.size := by
  have hlast : ∀ i, a.state i = .free → chain.getLast? ≠ some i := by
    intro i hstate hget
    exact hchain i (List.mem_of_getLast? hget) hstate
  cases hfree : a.free with
  | cons i rest =>
    have hadded := ha.added_reused hfree hash key value
    refine .inl ⟨i, _, ?_, hadded⟩
    have := hlast i hadded.was_free
    simp [Arena.append, Arena.allocate, hfree, this, bind, Except.bind]
  | nil =>
    have hallocate : ∀ slot, a.allocate slot = if a.slots.size < 2 ^ 32
        then .ok (a.slots.size, { a with slots := a.slots.push slot })
        else .error (.fault .noSlot) := by
      intro slot
      unfold allocate
      rw [hfree]
    by_cases hsize : a.slots.size < 2 ^ 32
    · have hadded := ha.added_new hfree hsize hash key value
      refine .inl ⟨a.slots.size, _, ?_, hadded⟩
      have hne := hlast _ hadded.was_free
      rw [Arena.append, hallocate, if_pos hsize]
      exact if_neg hne
    · refine .inr ⟨?_, rfl, by omega⟩
      rw [Arena.append, hallocate, if_neg hsize]
      rfl

end Arena

end LuaData
