import LuaData.Proofs.Changes

/-!
# Clearing a chain

Before a write to the hash part its chain is cleared of what has expired. This is a sequence of
burials and drops of slots without an entry; `Sound.pruneBucket_induction` proves of the cleared
table whatever each of them keeps. `Cleared` is the first use: clearing leaves every entry as it is,
and so it changes no value (`Sound.get_cleared`).
-/

namespace LuaData

namespace Arena

variable {alive : Ref → Bool} {a : Arena} {i : Nat}

/-- A slot that has lost its value has no entry. -/
theorem binding?_of_valueExpired (h : a.valueExpired alive i = true) :
    a.binding? alive i = none := by
  unfold valueExpired at h
  unfold binding?
  split at h
  · rename_i key value hstate
    simp_all [Handle.expired]
  · cases h

/-- A slot that has lost its key has none. -/
theorem key?_of_keyExpired (h : a.keyExpired alive i = true) : a.key? alive i = none := by
  unfold keyExpired at h
  unfold key?
  split at h <;> simp_all [SlotState.key?, Handle.expired]

/-- A slot that has lost its key has no entry. -/
theorem binding?_of_keyExpired (h : a.keyExpired alive i = true) : a.binding? alive i = none := by
  cases hentry : a.binding? alive i with
  | none => rfl
  | some entry =>
    have := (binding?_eq_some_iff.mp hentry).1
    rw [key?_of_keyExpired h] at this
    cases this

/-- Burials leave the other slots as they are. -/
theorem state_foldl_bury (alive : Ref → Bool) (is : List Nat) (a : Arena) {j : Nat} (hj : j ∉ is) :
    (is.foldl (bury alive) a).state j = a.state j := by
  induction is generalizing a with
  | nil => rfl
  | cons i is ih =>
    have hne : i ≠ j := fun h ↦ hj (h ▸ List.mem_cons_self)
    rw [List.foldl_cons, ih _ (fun h ↦ hj (List.mem_cons_of_mem _ h)), state_bury_of_ne alive a hne]

/-- Whether a slot has lost its key depends on what it holds. -/
theorem keyExpired_congr {b : Arena} (h : a.state i = b.state i) :
    a.keyExpired alive i = b.keyExpired alive i := by
  rw [keyExpired, keyExpired, h]

/-- Whether a slot has lost its value depends on what it holds. -/
theorem valueExpired_congr {b : Arena} (h : a.state i = b.state i) :
    a.valueExpired alive i = b.valueExpired alive i := by
  rw [valueExpired, valueExpired, h]

/-- A slot with its value gone still has its key. -/
theorem keyExpired_of_valueExpired (h : a.valueExpired alive i = true) :
    a.keyExpired alive i = false := by
  unfold valueExpired at h
  unfold keyExpired
  split at h <;> simp_all

end Arena

namespace Table

variable {hash : Value → UInt64} {m : Moment} {t : Table} {b : Nat} {P : Table → Prop}

/-- The slot may be dropped from a chain: its key is gone, or its value is and no enumeration can
be on the way. -/
def Disposable (alive : Ref → Bool) (t : Table) (i : Nat) : Prop :=
  t.arena.keyExpired alive i = true ∨ t.anchored = false ∧ t.arena.valueExpired alive i = true

/-- A slot that may be dropped has no entry. -/
theorem Disposable.binding? {alive : Ref → Bool} {i : Nat} (h : t.Disposable alive i) :
    t.arena.binding? alive i = none := by
  rcases h with hkey | ⟨-, hvalue⟩
  · exact Arena.binding?_of_keyExpired hkey
  · exact Arena.binding?_of_valueExpired hvalue

/-- `u` is the table `t` cleared of slots without an entry. -/
structure Cleared (alive : Ref → Bool) (t u : Table) : Prop where
  frame : Frame t u
  array : u.array = t.array
  /-- A slot with an entry stays as it is. -/
  state : ∀ i, t.arena.binding? alive i ≠ none → u.arena.state i = t.arena.state i
  binding?_of_none : ∀ i, t.arena.binding? alive i = none → u.arena.binding? alive i = none
  used_le : u.arena.used ≤ t.arena.used

/-- Clearing leaves the entries. -/
theorem Cleared.binding?_eq {alive : Ref → Bool} {u : Table} (h : Cleared alive t u) (i : Nat) :
    u.arena.binding? alive i = t.arena.binding? alive i := by
  by_cases hnone : t.arena.binding? alive i = none
  · rw [hnone, h.binding?_of_none i hnone]
  · exact Arena.binding?_congr (h.state i hnone)

/-- Nothing is cleared. -/
theorem Cleared.refl (alive : Ref → Bool) (t : Table) : Cleared alive t t :=
  ⟨.refl t, rfl, fun _ _ ↦ rfl, fun _ h ↦ h, Nat.le_refl _⟩

/-- One thing is cleared after the other. -/
theorem Cleared.trans {alive : Ref → Bool} {s u : Table} (h : Cleared alive s t)
    (h' : Cleared alive t u) : Cleared alive s u where
  frame := h.frame.trans h'.frame
  array := h'.array.trans h.array
  state := fun i hi ↦ by
    rw [h'.state i (by rwa [h.binding?_eq]), h.state i hi]
  binding?_of_none := fun i hi ↦ h'.binding?_of_none i (h.binding?_of_none i hi)
  used_le := h'.used_le.trans h.used_le

/-- A slot without an entry is buried. -/
theorem cleared_buried {alive : Ref → Bool} {i : Nat} (hi : t.arena.binding? alive i = none)
    (hused : (t.buried alive i).arena.used ≤ t.arena.used) :
    Cleared alive t (t.buried alive i) where
  frame := frame_buried alive t i
  array := rfl
  state := fun j hj ↦ Arena.state_bury_of_ne alive t.arena fun h ↦ hj (h ▸ hi)
  binding?_of_none := fun j hj ↦ by
    by_cases hij : i = j
    · exact hij ▸ Arena.binding?_bury_self alive t.arena i
    · rw [← hj]
      exact Arena.binding?_congr (Arena.state_bury_of_ne alive t.arena hij)
  used_le := hused

/-- A slot without an entry is dropped. -/
theorem cleared_dropped {alive : Ref → Bool} {i : Nat} (b : Nat)
    (hi : t.arena.binding? alive i = none) (hused : (t.dropped b i).arena.used ≤ t.arena.used) :
    Cleared alive t (t.dropped b i) where
  frame := frame_dropped t b i
  array := rfl
  state := fun j hj ↦ Arena.state_release_of_ne t.arena fun h ↦ hj (h ▸ hi)
  binding?_of_none := fun j hj ↦ by
    by_cases hij : i = j
    · refine Arena.binding?_eq_none ?_
      rw [← hij, show (t.dropped b i).arena.state i = .free from Arena.state_release_self t.arena i]
      rfl
    · rw [← hj]
      exact Arena.binding?_congr (Arena.state_release_of_ne t.arena hij)
  used_le := hused

/-- Putting a chain back changes nothing. -/
theorem setIfInBounds_chain (t : Table) (b : Nat) :
    t.buckets.setIfInBounds b (t.chain b) = t.buckets := by
  apply Array.ext_getElem?
  intro b'
  rw [Array.getElem?_setIfInBounds]
  split
  · subst_vars
    split
    · simp_all [chain, Array.getD_eq_getD_getElem?]
    · simp_all
  · rfl

/-- Dropping a slot of a chain succeeds. -/
theorem drop_eq {i : Nat} (hi : i ∈ t.chain b) :
    t.arena.drop (t.chain b) i = .ok ((t.dropped b i).arena, (t.dropped b i).chain b) := by
  rw [chain_of_buckets (u := t.dropped b i) (lt_size_of_mem_chain hi) rfl]
  simp [Arena.drop, Arena.unlink, hi, bind, Except.bind, Table.dropped]

namespace Sound

/-- What each burial keeps, several keep. -/
theorem buryAll_induction (is : List Nat) (hs : t.Sound hash m) (hanchored : t.anchored = true)
    (hnodup : is.Nodup) (hchain : ∀ i ∈ is, i ∈ t.chain b)
    (hexpired : ∀ i ∈ is, t.arena.valueExpired m.alive i = true)
    (hbury : ∀ u i, u.Sound hash m → P u → u.anchored = true → i ∈ u.chain b →
      u.arena.valueExpired m.alive i = true → P (u.buried m.alive i)) (hP : P t) :
    Sound hash m { t with arena := is.foldl (Arena.bury m.alive) t.arena } ∧
      P { t with arena := is.foldl (Arena.bury m.alive) t.arena } := by
  induction is generalizing t with
  | nil => exact ⟨hs, hP⟩
  | cons i is ih =>
    obtain ⟨hi, hnodup⟩ := List.nodup_cons.mp hnodup
    have hP' := hbury t i hs hP hanchored (hchain i List.mem_cons_self)
      (hexpired i List.mem_cons_self)
    refine ih (t := t.buried m.alive i) (hs.buried hanchored i) hanchored hnodup
      (fun j hj ↦ hchain j (List.mem_cons_of_mem _ hj)) (fun j hj ↦ ?_) hP'
    have hne : i ≠ j := fun h ↦ hi (h ▸ hj)
    have hstate : (t.buried m.alive i).arena.state j = t.arena.state j :=
      Arena.state_bury_of_ne m.alive t.arena hne
    rw [Arena.valueExpired_congr hstate]
    exact hexpired j (List.mem_cons_of_mem _ hj)

/-- What each drop of a slot keeps, several keep. -/
theorem dropAll_induction (is : List Nat) (hs : t.Sound hash m) (hnodup : is.Nodup)
    (hchain : ∀ i ∈ is, i ∈ t.chain b) (hdisposable : ∀ i ∈ is, t.Disposable m.alive i)
    (hdrop : ∀ u i, u.Sound hash m → P u → i ∈ u.chain b → u.Disposable m.alive i →
      P (u.dropped b i)) (hP : P t) :
    ∃ a c, t.arena.dropAll (t.chain b) is = .ok (a, c) ∧
      Sound hash m { t with arena := a, buckets := t.buckets.setIfInBounds b c } ∧
      P { t with arena := a, buckets := t.buckets.setIfInBounds b c } := by
  induction is generalizing t with
  | nil =>
    refine ⟨t.arena, t.chain b, rfl, ?_, ?_⟩
    · rwa [t.setIfInBounds_chain b]
    · rwa [t.setIfInBounds_chain b]
  | cons i is ih =>
    obtain ⟨hi, hnodup⟩ := List.nodup_cons.mp hnodup
    have himem := hchain i List.mem_cons_self
    have hlt := lt_size_of_mem_chain himem
    have hne : ∀ j ∈ is, i ≠ j := fun j hj h ↦ hi (h ▸ hj)
    obtain ⟨a, c, heq, hsound, hPu⟩ := ih (t := t.dropped b i) (hs.dropped himem) hnodup
      (fun j hj ↦ by
        rw [chain_of_buckets (u := t.dropped b i) hlt rfl, if_pos rfl,
          (hs.chain_nodup b).mem_erase_iff]
        exact ⟨(hne j hj).symm, hchain j (List.mem_cons_of_mem _ hj)⟩)
      (fun j hj ↦ by
        have := hdisposable j (List.mem_cons_of_mem _ hj)
        have hstate : (t.dropped b i).arena.state j = t.arena.state j :=
          Arena.state_release_of_ne t.arena (hne j hj)
        unfold Disposable at this ⊢
        rwa [Arena.keyExpired_congr hstate, Arena.valueExpired_congr hstate])
      (hdrop t i hs hP himem (hdisposable i List.mem_cons_self))
    have hset : (t.dropped b i).buckets.setIfInBounds b c = t.buckets.setIfInBounds b c := by
      simp [Table.dropped]
    rw [hset] at hsound hPu
    exact ⟨a, c, by simp [Arena.dropAll, drop_eq himem, bind, Except.bind, heq], hsound, hPu⟩

/-- Clearing a chain succeeds, and the cleared table has what every burial of an expired entry and
every drop of a slot without an entry keeps. -/
theorem pruneBucket_induction (hs : t.Sound hash m) (b : Nat)
    (hbury : ∀ u i, u.Sound hash m → P u → u.anchored = true → i ∈ u.chain b →
      u.arena.valueExpired m.alive i = true → P (u.buried m.alive i))
    (hdrop : ∀ u i, u.Sound hash m → P u → i ∈ u.chain b → u.Disposable m.alive i →
      P (u.dropped b i)) (hP : P t) :
    ∃ u, t.pruneBucket (m.context hash) b = .ok u ∧ u.Sound hash m ∧ P u := by
  let gone := (t.chain b).filter fun i ↦
    t.arena.keyExpired m.alive i || (!t.anchored && t.arena.valueExpired m.alive i)
  let bury := if t.anchored then (t.chain b).filter (t.arena.valueExpired m.alive) else []
  let arena := bury.foldl (Arena.bury m.alive) t.arena
  obtain ⟨hsound, hPt⟩ : Sound hash m { t with arena } ∧ P { t with arena } := by
    by_cases hanchored : t.anchored = true
    · have hbury' : bury = (t.chain b).filter (t.arena.valueExpired m.alive) := if_pos hanchored
      refine buryAll_induction bury hs hanchored ?_ ?_ ?_ hbury hP
      · rw [hbury']
        exact (hs.chain_nodup b).filter _
      · intro i hi
        rw [hbury'] at hi
        exact (List.mem_filter.mp hi).1
      · intro i hi
        rw [hbury'] at hi
        exact (List.mem_filter.mp hi).2
    · have : bury = [] := if_neg hanchored
      simp only [arena, this, List.foldl_nil]
      exact ⟨hs, hP⟩
  have hdisposable : ∀ i ∈ gone, Disposable m.alive { t with arena } i := by
    intro i hi
    have hcond := (List.mem_filter.mp hi).2
    -- A slot to be dropped was not buried: a burial needs an anchored table and a key.
    have hnot : i ∉ bury := by
      intro hmem
      by_cases hanchored : t.anchored = true
      · simp only [bury, hanchored, if_true, List.mem_filter] at hmem
        simp [hanchored, Arena.keyExpired_of_valueExpired hmem.2] at hcond
      · simp [bury, hanchored] at hmem
    have hstate : arena.state i = t.arena.state i :=
      Arena.state_foldl_bury m.alive bury t.arena hnot
    unfold Disposable
    rw [Arena.keyExpired_congr hstate, Arena.valueExpired_congr hstate]
    simpa using hcond
  obtain ⟨a, c, heq, hsound', hPu⟩ := dropAll_induction (b := b) gone hsound
    ((hs.chain_nodup b).filter _) (fun i hi ↦ (List.mem_filter.mp hi).1) hdisposable hdrop hPt
  refine ⟨_, ?_, hsound', hPu⟩
  have hprune : t.arena.prune m.alive (t.chain b) t.anchored = .ok (a, c) := heq
  simp [pruneBucket, hprune, bind, Except.bind, pure, Except.pure]

/-- Clearing a chain succeeds. -/
theorem pruneBucket (hs : t.Sound hash m) (b : Nat) :
    ∃ u, t.pruneBucket (m.context hash) b = .ok u ∧ u.Sound hash m ∧ Cleared m.alive t u := by
  refine hs.pruneBucket_induction b ?_ ?_ (.refl m.alive t)
  · intro u i hsound hu _ _ hexpired
    exact hu.trans (cleared_buried (Arena.binding?_of_valueExpired hexpired)
      (hsound.arena.used_bury m.alive i).le)
  · intro u i hsound hu hmem hdisposable
    have hused := hsound.arena.used_release ((hsound.mem_chain_iff b i).mp hmem).1
    refine hu.trans (cleared_dropped b hdisposable.binding? ?_)
    show (u.arena.release i).used ≤ u.arena.used
    omega

/-- Clearing a chain changes no value. -/
theorem get_cleared (hs : t.Sound hash m) (hhash : Value.RespectsEq hash) {u : Table}
    (hu : u.Sound hash m) (h : Cleared m.alive t u) (key : Value) :
    u.get (m.context hash) key = t.get (m.context hash) key :=
  hs.get_congr hu hhash h.array h.binding?_eq key

end Sound

end Table

end LuaData
