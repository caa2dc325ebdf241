import Mathlib.Data.List.Dedup
import Mathlib.Data.List.Perm.Basic
import LuaData.Proofs.Instance

/-!
# Strings that are shared

An interner is asked for strings, its users release them, and it is swept, in any order
(`Interner.Runs`). It keeps its strings in groups by their hash and forgets them late, so that a
group may still have strings whose cells are gone. What counts is `Interner.living`: no two strings
there have the same bytes, and every short string that was given out is there as long as its cell is
(`Interner.Sound`). `Interner.Runs.shares_strings` says what the users can rely on.
-/

namespace LuaData

/-- The moment after a cell was made. -/
def Moment.allocate (m : Moment) : Moment where
  alive r := r == m.fresh || m.alive r
  fresh := m.fresh + 1
  lt_fresh r hr := by
    simp only [Bool.or_eq_true, beq_iff_eq] at hr
    rcases hr with rfl | hr
    · exact Nat.lt_succ_self _
    · exact Nat.lt_succ_of_lt (m.lt_fresh r hr)

/-- Nothing comes back when a cell is made. -/
theorem Moment.le_allocate (m : Moment) : m ≤ m.allocate := by
  refine ⟨Nat.le_succ _, fun r hr halive ↦ ?_⟩
  simpa [allocate, Nat.ne_of_lt hr] using halive

/-- The cells that have a name stay as they are when another one is made. -/
theorem Moment.alive_allocate {m : Moment} {r : Ref} (hr : r < m.fresh) :
    m.allocate.alive r = m.alive r := by
  simp [allocate, Nat.ne_of_lt hr]

/-- The moment after a string was handed out. A string that is in the next cell has been made for
it. -/
def Moment.handOut (m : Moment) (s : Str) : Moment :=
  if s.cell = m.fresh then m.allocate else m

namespace Interner

variable {hash : Bytes → UInt64} {limit : Nat} {m n : Moment} {i : Interner} {given : List Str}
  {s : Str} {bytes : Bytes} {key : UInt64} {groups : List (UInt64 × List Str)} {strs : List Str}

/-! ## Groups -/

/-- The strings that the interner has in its groups, those that are gone included. -/
def remembered (i : Interner) : List Str :=
  i.groups.flatMap Prod.snd

/-- The living strings are those remembered ones whose cells are alive. -/
theorem living_eq (alive : Ref → Bool) (i : Interner) :
    i.living alive = i.remembered.filter fun s ↦ alive s.cell := by
  rw [living, remembered, List.filter_flatMap]

theorem mem_living {alive : Ref → Bool} :
    s ∈ i.living alive ↔ s ∈ i.remembered ∧ alive s.cell = true := by
  rw [living_eq, List.mem_filter]

/-- The groups are as before but for the one that was set. -/
theorem mem_setGroup {g : UInt64 × List Str} (h : g ∈ setGroup key strs groups) :
    g ∈ groups ∨ g = (key, strs) := by
  induction groups with
  | nil => exact .inr (List.mem_singleton.mp h)
  | cons g' groups ih =>
    obtain ⟨key', old⟩ := g'
    unfold setGroup at h
    split at h
    · rename_i heq
      rcases List.mem_cons.mp h with rfl | hmem
      · exact .inr (by rw [beq_iff_eq.mp heq])
      · exact .inl (List.mem_cons_of_mem _ hmem)
    · rcases List.mem_cons.mp h with rfl | hmem
      · exact .inl List.mem_cons_self
      · exact (ih hmem).imp_left (List.mem_cons_of_mem _)

/-- A group is set in its place, or at the end if it is new. -/
theorem map_fst_setGroup (key : UInt64) (strs : List Str) (groups : List (UInt64 × List Str)) :
    (setGroup key strs groups).map Prod.fst =
      if key ∈ groups.map Prod.fst then groups.map Prod.fst else groups.map Prod.fst ++ [key] := by
  induction groups with
  | nil => rfl
  | cons g groups ih =>
    obtain ⟨key', old⟩ := g
    unfold setGroup
    by_cases heq : key' = key
    · simp [heq]
    · simp only [beq_iff_eq, heq, if_false, List.map_cons, ih, List.mem_cons, Ne.symm heq, false_or]
      split <;> rfl

/-- Setting a group takes its old strings out and puts the new ones in. -/
theorem flatMap_setGroup (key : UInt64) (strs : List Str) (groups : List (UInt64 × List Str)) :
    ((setGroup key strs groups).flatMap Prod.snd ++ (groups.lookup key).getD []).Perm
      (groups.flatMap Prod.snd ++ strs) := by
  induction groups with
  | nil => simp [setGroup]
  | cons g groups ih =>
    obtain ⟨key', old⟩ := g
    unfold setGroup
    by_cases heq : key' = key
    · subst heq
      simp only [beq_self_eq_true, if_true, List.flatMap_cons, List.lookup_cons_self,
        Option.getD_some, List.append_assoc]
      rw [← List.append_assoc old]
      exact List.perm_append_comm.trans (List.perm_append_comm.append_right strs)
    · have hlookup : ((key', old) :: groups).lookup key = groups.lookup key := by
        rw [List.lookup_cons, beq_eq_false_iff_ne.mpr (Ne.symm heq)]
      simp only [beq_iff_eq, heq, if_false, List.flatMap_cons, hlookup, List.append_assoc]
      exact ih.append_left old

/-- The group of a key has the strings that stand under it. -/
theorem lookup_of_mem {g : UInt64 × List Str} (hnodup : (groups.map Prod.fst).Nodup)
    (hg : g ∈ groups) : groups.lookup g.1 = some g.2 := by
  obtain ⟨before, after, rfl⟩ := List.append_of_mem hg
  refine List.lookup_eq_some_iff.mpr ⟨before, after, rfl, fun other hother ↦ ?_⟩
  rw [List.map_append, List.map_cons, List.nodup_append] at hnodup
  exact bne_iff_ne.mpr (hnodup.2.2 _ (List.mem_map_of_mem hother) _ List.mem_cons_self).symm

/-- The strings of a group stand under its key. -/
theorem exists_of_mem_group (h : s ∈ i.group key) : ∃ strs, (key, strs) ∈ i.groups ∧ s ∈ strs := by
  unfold group at h
  cases hlookup : i.groups.lookup key with
  | none => simp [hlookup] at h
  | some strs =>
    obtain ⟨before, after, hgroups, -⟩ := List.lookup_eq_some_iff.mp hlookup
    rw [hlookup] at h
    exact ⟨strs, by simp [hgroups], h⟩

/-- The strings of a group are remembered. -/
theorem mem_remembered_of_group (h : s ∈ i.group key) : s ∈ i.remembered := by
  obtain ⟨strs, hmem, hs⟩ := exists_of_mem_group h
  exact List.mem_flatMap.mpr ⟨(key, strs), hmem, hs⟩

/-! ## The operations -/

/-- What a sweep leaves is what is alive. -/
theorem remembered_sweep (alive : Ref → Bool) (i : Interner) :
    (i.sweep alive).remembered = i.living alive := by
  unfold remembered sweep living
  induction i.groups with
  | nil => rfl
  | cons g groups ih =>
    obtain ⟨key, strs⟩ := g
    rw [List.flatMap_cons, ← ih, List.filterMap_cons]
    cases hfilter : strs.filter fun s ↦ alive s.cell <;> simp [hfilter]

/-- A sweep adds no group. -/
theorem map_fst_sweep (alive : Ref → Bool) (i : Interner) :
    ((i.sweep alive).groups.map Prod.fst).Sublist (i.groups.map Prod.fst) := by
  unfold sweep
  induction i.groups with
  | nil => exact List.Sublist.refl _
  | cons g groups ih =>
    obtain ⟨key, strs⟩ := g
    cases hfilter : strs.filter fun s ↦ alive s.cell with
    | nil => simpa [List.filterMap_cons, hfilter] using ih.cons key
    | cons s rest => simpa [List.filterMap_cons, hfilter] using ih

/-- The interner with a new string. The strings of its group that are gone make way for it. -/
def add (hash : Bytes → UInt64) (alive : Ref → Bool) (s : Str) (i : Interner) : Interner :=
  { i with
    groups := setGroup (hash s.bytes)
      ((i.group (hash s.bytes)).filter (fun s ↦ alive s.cell) ++ [s]) i.groups
    inserted := i.inserted + 1 }

/-- The interner after the sweep that may be due. -/
def tidy (alive : Ref → Bool) (i : Interner) : Interner :=
  if sweepInterval ≤ i.inserted then i.sweep alive else i

/-- A string that is asked for is too long to be shared, or it is found, or it is added. -/
theorem intern_cases (hash : Bytes → UInt64) (alive : Ref → Bool) (fresh : Ref) (bytes : Bytes)
    (i : Interner) :
    (i.limit < bytes.length ∧ i.intern hash alive fresh bytes = (⟨bytes, fresh⟩, i)) ∨
    (bytes.length ≤ i.limit ∧ ∃ s ∈ i.group (hash bytes), alive s.cell = true ∧
      s.bytes = bytes ∧ i.intern hash alive fresh bytes = (s, i)) ∨
    (bytes.length ≤ i.limit ∧
      (∀ s ∈ i.group (hash bytes), alive s.cell = true → s.bytes ≠ bytes) ∧
      i.intern hash alive fresh bytes =
        (⟨bytes, fresh⟩,
          (i.add hash alive ⟨bytes, fresh⟩).tidy fun r ↦ r == fresh || alive r)) := by
  unfold intern
  dsimp only
  split
  · rename_i hlong
    exact .inl ⟨hlong, rfl⟩
  · rename_i hshort
    refine .inr ?_
    split
    · rename_i s hfind
      have hfound := List.find?_some hfind
      simp only [Bool.and_eq_true, beq_iff_eq] at hfound
      exact .inl ⟨Nat.le_of_not_lt hshort, s, List.mem_of_find?_eq_some hfind, hfound.1, hfound.2,
        rfl⟩
    · rename_i hfind
      refine .inr ⟨Nat.le_of_not_lt hshort, fun s hs halive hbytes ↦ ?_, rfl⟩
      exact List.find?_eq_none.mp hfind s hs (by simp [halive, hbytes])

/-- A string that is interned has the bytes that were asked for, in a live cell or in a new one. -/
theorem intern_spec (hash : Bytes → UInt64) (alive : Ref → Bool) (fresh : Ref) (bytes : Bytes)
    (i : Interner) :
    (i.intern hash alive fresh bytes).1.bytes = bytes ∧
      ((i.intern hash alive fresh bytes).1.cell = fresh ∨
        alive (i.intern hash alive fresh bytes).1.cell = true) := by
  rcases intern_cases hash alive fresh bytes i with
    ⟨-, h⟩ | ⟨-, s, -, halive, hbytes, h⟩ | ⟨-, -, h⟩
  · rw [h]
    exact ⟨rfl, .inl rfl⟩
  · rw [h]
    exact ⟨hbytes, .inr halive⟩
  · rw [h]
    exact ⟨rfl, .inl rfl⟩

/-! ## What an interner keeps to -/

/-- What holds of an interner that has given out some strings. -/
structure Sound (hash : Bytes → UInt64) (m : Moment) (i : Interner) (given : List Str) : Prop where
  keys_nodup : (i.groups.map Prod.fst).Nodup
  /-- A string stands in the group of its hash. -/
  grouped : ∀ g ∈ i.groups, ∀ s ∈ g.2, hash s.bytes = g.1
  short : ∀ s ∈ i.remembered, s.bytes.length ≤ i.limit
  given_out : ∀ s ∈ i.remembered, s ∈ given
  named : ∀ s ∈ given, s.cell < m.fresh
  /-- A short string is remembered as long as it is there. -/
  complete : ∀ s ∈ given, m.alive s.cell = true → s.bytes.length ≤ i.limit → s ∈ i.remembered
  /-- No two strings that are there have the same bytes. -/
  distinct : ((i.living m.alive).map Str.bytes).Nodup

namespace Sound

/-- A new interner has given out nothing. -/
theorem empty (hash : Bytes → UInt64) (m : Moment) (limit : Nat) :
    (Interner.empty limit).Sound hash m [] where
  keys_nodup := List.nodup_nil
  grouped := nofun
  short := nofun
  given_out := nofun
  named := nofun
  complete := nofun
  distinct := List.nodup_nil

/-- Strings may go at any time. -/
theorem later (hs : i.Sound hash m given) (hle : m ≤ n) : i.Sound hash n given := by
  have halive : ∀ s ∈ given, n.alive s.cell = true → m.alive s.cell = true :=
    fun s hs' ↦ Moment.alive_of_le hle (hs.named s hs')
  refine { hs with
    named := fun s hs' ↦ (hs.named s hs').trans_le (Moment.fresh_le hle)
    complete := fun s hs' h ↦ hs.complete s hs' (halive s hs' h)
    distinct := hs.distinct.sublist (List.Sublist.map _ ?_) }
  have hfilter : i.living n.alive = (i.living m.alive).filter fun s ↦ n.alive s.cell := by
    rw [living_eq, living_eq, List.filter_filter]
    refine List.filter_congr fun s hs' ↦ ?_
    rw [eq_comm, Bool.and_eq_left_iff_imp]
    exact halive s (hs.given_out s hs')
  rw [hfilter]
  exact List.filter_sublist

/-- A string that is remembered is found in the group of its hash. -/
theorem mem_group (hs : i.Sound hash m given) (h : s ∈ i.remembered) :
    s ∈ i.group (hash s.bytes) := by
  obtain ⟨g, hg, hmem⟩ := List.mem_flatMap.mp h
  rw [hs.grouped g hg s hmem, group, lookup_of_mem hs.keys_nodup hg]
  exact hmem

/-- A sweep forgets only what is gone. -/
theorem sweep (hs : i.Sound hash m given) : (i.sweep m.alive).Sound hash m given := by
  have hgroups : ∀ g ∈ (i.sweep m.alive).groups,
      ∃ strs, (g.1, strs) ∈ i.groups ∧ g.2 = strs.filter fun s ↦ m.alive s.cell := by
    intro g hg
    obtain ⟨⟨key, strs⟩, hmem, hg⟩ := List.mem_filterMap.mp hg
    dsimp only at hg
    split at hg
    · cases hg
    · cases hg
      exact ⟨strs, hmem, rfl⟩
  have hremembered : ∀ s, s ∈ (i.sweep m.alive).remembered ↔
      s ∈ i.remembered ∧ m.alive s.cell = true := fun s ↦ by rw [remembered_sweep, mem_living]
  have hliving : (i.sweep m.alive).living m.alive = i.living m.alive := by
    rw [living_eq, remembered_sweep, living_eq, List.filter_filter]
    simp only [Bool.and_self]
  refine
    { keys_nodup := hs.keys_nodup.sublist (map_fst_sweep m.alive i)
      grouped := fun g hg s hmem ↦ ?_
      short := fun s hmem ↦ hs.short s ((hremembered s).mp hmem).1
      given_out := fun s hmem ↦ hs.given_out s ((hremembered s).mp hmem).1
      named := hs.named
      complete := fun s hmem halive hlen ↦
        (hremembered s).mpr ⟨hs.complete s hmem halive hlen, halive⟩
      distinct := hliving ▸ hs.distinct }
  · obtain ⟨strs, hg', hstrs⟩ := hgroups g hg
    rw [hstrs] at hmem
    exact hs.grouped _ hg' s (List.mem_filter.mp hmem).1

/-- The sweep that may be due forgets only what is gone. -/
theorem tidy (hs : i.Sound hash m given) : (i.tidy m.alive).Sound hash m given := by
  unfold Interner.tidy
  split
  · exact hs.sweep
  · exact hs

/-- A new string joins those that are there. -/
theorem living_add (hs : i.Sound hash m given) (hcell : s.cell = m.fresh) :
    ((i.add hash m.alive s).living m.allocate.alive).Perm (i.living m.alive ++ [s]) := by
  have hold : ∀ l : List Str, (∀ s' ∈ l, s' ∈ i.remembered) →
      (l.filter fun s' ↦ m.allocate.alive s'.cell) = l.filter fun s' ↦ m.alive s'.cell := by
    intro l hl
    refine List.filter_congr fun s' hs' ↦ ?_
    exact Moment.alive_allocate (hs.named s' (hs.given_out s' (hl s' hs')))
  have hgroup : ∀ s' ∈ i.group (hash s.bytes), s' ∈ i.remembered :=
    fun s' ↦ mem_remembered_of_group
  have hnew : ([s].filter fun s' ↦ m.allocate.alive s'.cell) = [s] := by
    simp [Moment.allocate, hcell]
  -- The old group leaves the interner and comes back without what is gone.
  have hperm := (flatMap_setGroup (hash s.bytes)
    ((i.group (hash s.bytes)).filter (fun s ↦ m.alive s.cell) ++ [s]) i.groups).filter
    fun s' ↦ m.allocate.alive s'.cell
  simp only [List.filter_append, hnew] at hperm
  rw [← group, hold _ hgroup, hold _ fun s' hs' ↦ hgroup s' (List.mem_of_mem_filter hs'),
    List.filter_filter] at hperm
  simp only [Bool.and_self] at hperm
  rw [living_eq, living_eq, ← hold _ fun _ h ↦ h]
  refine (List.perm_append_right_iff ((i.group (hash s.bytes)).filter fun s ↦ m.alive s.cell)).mp ?_
  rw [List.append_assoc]
  exact hperm.trans (List.perm_append_comm.append_left _)

/-- What is remembered after a string was added. -/
theorem mem_remembered_add {s' : Str} (h : s' ∈ (i.add hash m.alive s).remembered) :
    s' ∈ i.remembered ∨ s' = s := by
  have hmem := (flatMap_setGroup (hash s.bytes)
    ((i.group (hash s.bytes)).filter (fun s ↦ m.alive s.cell) ++ [s]) i.groups).subset
    (List.mem_append_left _ h)
  simp only [List.mem_append, List.mem_filter, List.mem_singleton] at hmem
  rcases hmem with hmem | ⟨hmem, -⟩ | rfl
  · exact .inl hmem
  · exact .inl (mem_remembered_of_group hmem)
  · exact .inr rfl

/-- A short string is added if none that is there has its bytes. -/
theorem add (hs : i.Sound hash m given) (hcell : s.cell = m.fresh)
    (hshort : s.bytes.length ≤ i.limit)
    (hnew : ∀ s' ∈ i.group (hash s.bytes), m.alive s'.cell = true → s'.bytes ≠ s.bytes) :
    (i.add hash m.alive s).Sound hash m.allocate (s :: given) := by
  have hperm := hs.living_add (s := s) hcell
  have hnamed := (hs.later m.le_allocate).named
  refine
    { keys_nodup := ?_
      grouped := fun g hg s' hmem ↦ ?_
      short := fun s' hmem ↦ ?_
      given_out := fun s' hmem ↦ ?_
      named := fun s' hmem ↦ ?_
      complete := fun s' hmem halive hlen ↦ ?_
      distinct := ?_ }
  · show ((setGroup _ _ i.groups).map Prod.fst).Nodup
    rw [map_fst_setGroup]
    split
    · exact hs.keys_nodup
    · rename_i hmem
      exact List.nodup_append.mpr ⟨hs.keys_nodup, List.nodup_singleton _,
        fun key hkey key' hkey' heq ↦ hmem (List.mem_singleton.mp hkey' ▸ heq ▸ hkey)⟩
  · rcases mem_setGroup hg with hg | rfl
    · exact hs.grouped g hg s' hmem
    · rcases List.mem_append.mp hmem with hmem | hmem
      · obtain ⟨strs, hgroup, hs'⟩ := exists_of_mem_group (List.mem_of_mem_filter hmem)
        exact hs.grouped _ hgroup s' hs'
      · rw [List.mem_singleton.mp hmem]
  · rcases mem_remembered_add hmem with hmem | rfl
    · exact hs.short s' hmem
    · exact hshort
  · rcases mem_remembered_add hmem with hmem | rfl
    · exact List.mem_cons_of_mem _ (hs.given_out s' hmem)
    · exact List.mem_cons_self
  · rcases List.mem_cons.mp hmem with rfl | hmem
    · rw [hcell]
      exact Nat.lt_succ_self _
    · exact hnamed s' hmem
  · -- What is alive is among the living, and these are remembered.
    refine (mem_living.mp (hperm.mem_iff.mpr ?_)).1
    rcases List.mem_cons.mp hmem with rfl | hmem
    · exact List.mem_append_right _ List.mem_cons_self
    · rw [Moment.alive_allocate (hs.named s' hmem)] at halive
      exact List.mem_append_left _ (mem_living.mpr ⟨hs.complete s' hmem halive hlen, halive⟩)
  · refine (hperm.map Str.bytes).nodup_iff.mpr ?_
    rw [List.map_append, List.nodup_append]
    refine ⟨hs.distinct, List.nodup_singleton _, fun b hb b' hb' heq ↦ ?_⟩
    obtain ⟨s', hs', rfl⟩ := List.mem_map.mp hb
    obtain ⟨hmem, halive⟩ := mem_living.mp hs'
    -- A living string with these bytes would have been found in the group.
    have hbytes : s'.bytes = s.bytes := heq.trans (List.mem_singleton.mp hb')
    exact hnew s' (hbytes ▸ hs.mem_group hmem) halive hbytes

/-- A string that is found, or is too long to be shared, is given out without a change. -/
theorem giveOut (hs : i.Sound hash m given) (hnamed : s.cell < m.fresh)
    (hmem : s.bytes.length ≤ i.limit → s ∈ i.remembered) : i.Sound hash m (s :: given) :=
  { hs with
    given_out := fun s' hs' ↦ List.mem_cons_of_mem _ (hs.given_out s' hs')
    named := fun s' hs' ↦ by
      rcases List.mem_cons.mp hs' with rfl | hs'
      · exact hnamed
      · exact hs.named s' hs'
    complete := fun s' hs' halive hlen ↦ by
      rcases List.mem_cons.mp hs' with rfl | hs'
      · exact hmem hlen
      · exact hs.complete s' hs' halive hlen }

/-- Asking for a string keeps an interner sound. -/
theorem intern (hs : i.Sound hash m given) (bytes : Bytes) :
    (i.intern hash m.alive m.fresh bytes).2.Sound hash
      (m.handOut (i.intern hash m.alive m.fresh bytes).1)
      ((i.intern hash m.alive m.fresh bytes).1 :: given) := by
  rcases intern_cases hash m.alive m.fresh bytes i with
    ⟨hlong, h⟩ | ⟨-, s, hmem, halive, -, h⟩ | ⟨hshort, hnew, h⟩
  · rw [h, Moment.handOut, if_pos rfl]
    exact (hs.later m.le_allocate).giveOut (Nat.lt_succ_self _)
      fun hshort ↦ absurd hlong (Nat.not_lt.mpr hshort)
  · have hlt := m.lt_fresh s.cell halive
    rw [h, Moment.handOut, if_neg (Nat.ne_of_lt hlt)]
    exact hs.giveOut hlt fun _ ↦ mem_remembered_of_group hmem
  · rw [h, Moment.handOut, if_pos rfl]
    exact (hs.add rfl hshort hnew).tidy

/-- The strings that are there are counted by their bytes. -/
theorem size_eq (hs : i.Sound hash m given) :
    i.size m.alive = (((given.filter fun s ↦ m.alive s.cell).map Str.bytes).filter
      fun b ↦ b.length ≤ i.limit).dedup.length := by
  rw [size, ← List.length_map (f := Str.bytes)]
  refine ((List.perm_ext_iff_of_nodup hs.distinct (List.nodup_dedup _)).mpr fun b ↦ ?_).length_eq
  simp only [List.mem_map, mem_living, List.mem_dedup, List.mem_filter, decide_eq_true_eq]
  constructor
  · rintro ⟨s, ⟨hmem, halive⟩, rfl⟩
    exact ⟨⟨s, ⟨hs.given_out s hmem, halive⟩, rfl⟩, hs.short s hmem⟩
  · rintro ⟨⟨s, ⟨hmem, halive⟩, rfl⟩, hlen⟩
    exact ⟨s, ⟨hs.complete s hmem halive hlen, halive⟩, rfl⟩

/-- A string that is there is remembered after another one was asked for. -/
theorem mem_remembered_intern (hs : i.Sound hash m given) (bytes : Bytes)
    (hmem : s ∈ i.remembered) (halive : m.alive s.cell = true) :
    s ∈ (i.intern hash m.alive m.fresh bytes).2.remembered := by
  rcases intern_cases hash m.alive m.fresh bytes i with ⟨-, h⟩ | ⟨-, _, -, -, -, h⟩ | ⟨-, -, h⟩
  · rwa [h]
  · rwa [h]
  · have hliving : s ∈ (i.add hash m.alive ⟨bytes, m.fresh⟩).living m.allocate.alive :=
      (hs.living_add rfl).mem_iff.mpr (List.mem_append_left _ (mem_living.mpr ⟨hmem, halive⟩))
    rw [h]
    show s ∈ (Interner.tidy m.allocate.alive _).remembered
    unfold Interner.tidy
    split
    · rwa [remembered_sweep]
    · exact (mem_living.mp hliving).1

end Sound

/-! ## Interners in use -/

/-- An interner in use, with the strings that it has given out. Between two calls its users may
release strings, and other cells may be made. -/
inductive Runs (hash : Bytes → UInt64) (limit : Nat) : Moment → Interner → List Str → Prop
  | new (m : Moment) : Runs hash limit m (empty limit) []
  | wait {m n : Moment} {i : Interner} {given : List Str} (h : Runs hash limit m i given)
      (hle : m ≤ n) : Runs hash limit n i given
  | intern {m : Moment} {i : Interner} {given : List Str} (h : Runs hash limit m i given)
      (bytes : Bytes) :
      Runs hash limit (m.handOut (i.intern hash m.alive m.fresh bytes).1)
        (i.intern hash m.alive m.fresh bytes).2 ((i.intern hash m.alive m.fresh bytes).1 :: given)
  | sweep {m : Moment} {i : Interner} {given : List Str} (h : Runs hash limit m i given) :
      Runs hash limit m (i.sweep m.alive) given

namespace Runs

/-- An interner in use is sound. -/
theorem sound (h : Runs hash limit m i given) : i.Sound hash m given := by
  induction h with
  | new m => exact .empty hash m limit
  | wait _ hle ih => exact ih.later hle
  | intern _ bytes ih => exact ih.intern bytes
  | sweep _ ih => exact ih.sweep

/-- The limit stays, and a sweep is made as soon as it is due. -/
theorem limit_eq (h : Runs hash limit m i given) :
    i.limit = limit ∧ i.inserted < sweepInterval := by
  have hpos : 0 < sweepInterval := by decide
  induction h with
  | new m => exact ⟨rfl, hpos⟩
  | wait _ _ ih => exact ih
  | @intern m i given _ bytes ih =>
    rcases intern_cases hash m.alive m.fresh bytes i with ⟨-, h⟩ | ⟨-, _, -, -, -, h⟩ | ⟨-, -, h⟩
    · rwa [h]
    · rwa [h]
    · rw [h]
      show (Interner.tidy _ _).limit = limit ∧ (Interner.tidy _ _).inserted < sweepInterval
      unfold Interner.tidy
      split
      · exact ⟨ih.1, hpos⟩
      · rename_i hdue
        exact ⟨ih.1, Nat.lt_of_not_le hdue⟩
  | sweep _ ih => exact ⟨ih.1, hpos⟩

end Runs

/-- What the users of an interner can rely on. -/
structure Shares (hash : Bytes → UInt64) (limit : Nat) (m : Moment) (i : Interner)
    (given : List Str) : Prop where
  /-- A string has the bytes that were asked for. -/
  bytes : ∀ b, (i.intern hash m.alive m.fresh b).1.bytes = b
  /-- Equal short strings that are there are in one cell. -/
  one_cell : ∀ s ∈ given, ∀ s' ∈ given, m.alive s.cell = true → m.alive s'.cell = true →
    s.bytes = s'.bytes → s.bytes.length ≤ limit → s.cell = s'.cell
  /-- A long string gets the next cell, and the interner stays as it is. -/
  long : ∀ b, limit < b.length → i.intern hash m.alive m.fresh b = (⟨b, m.fresh⟩, i)
  /-- The next cell is none that was given out. -/
  named : ∀ s ∈ given, s.cell < m.fresh
  /-- No long string is entered. -/
  short : ∀ s ∈ i.remembered, s.bytes.length ≤ limit
  /-- The size is the number of different short contents that are still in use. -/
  size : i.size m.alive = (((given.filter fun s ↦ m.alive s.cell).map Str.bytes).filter
    fun b ↦ b.length ≤ limit).dedup.length
  /-- A sweep forgets nothing that is there. -/
  sweep_keeps : ∀ s ∈ i.remembered, m.alive s.cell = true → s ∈ (i.sweep m.alive).remembered
  /-- Neither does an insertion, with the clean-up of its group and the sweep that may be due. -/
  intern_keeps : ∀ b, ∀ s ∈ i.remembered, m.alive s.cell = true →
    s ∈ (i.intern hash m.alive m.fresh b).2.remembered
  /-- No more insertions than the interval pass without a sweep. -/
  swept : i.inserted < sweepInterval

/-- An interner in use shares the short strings that are there and counts them, whatever the hash
of strings. -/
theorem Runs.shares_strings (h : Runs hash limit m i given) : Shares hash limit m i given := by
  have hs := h.sound
  obtain ⟨hlimit, hswept⟩ := h.limit_eq
  refine
    { bytes := fun b ↦ (intern_spec hash m.alive m.fresh b i).1
      one_cell := fun s hmem s' hmem' halive halive' hbytes hlen ↦ ?_
      long := fun b hlong ↦ ?_
      named := hs.named
      short := fun s hmem ↦ hlimit ▸ hs.short s hmem
      size := hlimit ▸ hs.size_eq
      sweep_keeps := fun s hmem halive ↦ ?_
      intern_keeps := fun b s hmem halive ↦ hs.mem_remembered_intern b hmem halive
      swept := hswept }
  · have hliving : ∀ s ∈ given, m.alive s.cell = true → s.bytes.length ≤ limit →
        s ∈ i.living m.alive :=
      fun s hmem halive hlen ↦ mem_living.mpr
        ⟨hs.complete s hmem halive (hlimit.symm ▸ hlen), halive⟩
    have heq := List.inj_on_of_nodup_map hs.distinct (hliving s hmem halive hlen)
      (hliving s' hmem' halive' (hbytes ▸ hlen)) hbytes
    exact congrArg Str.cell heq
  · rcases intern_cases hash m.alive m.fresh b i with ⟨-, h⟩ | ⟨hshort, -⟩ | ⟨hshort, -⟩
    · exact h
    · omega
    · omega
  · rw [remembered_sweep]
    exact mem_living.mpr ⟨hmem, halive⟩

/-- All strings have one hash, and those of two bytes are long. Of two short strings that were
given out one is released; asking for both again finds the one and makes the other anew. -/
theorem shares_strings_of_collision :
    ∃ m i given, Runs (fun _ ↦ 0) 1 m i given ∧ Shares (fun _ ↦ 0) 1 m i given ∧
      given.map Str.bytes = [[97], [98], [97, 97], [98], [97]] ∧
      given.map Str.cell = [3, 1, 2, 1, 0] ∧ i.size m.alive = 2 := by
  let m : Moment := ⟨fun r ↦ r == 1 || r == 2, 3, by simp⟩
  let ask (m : Moment) (i : Interner) (b : Bytes) := i.intern (fun _ ↦ 0) m.alive m.fresh b
  let a := ask .origin (empty 1) [97]
  let b := ask (Moment.origin.handOut a.1) a.2 [98]
  let aa := ask ((Moment.origin.handOut a.1).handOut b.1) b.2 [97, 97]
  have haa : Runs (fun _ ↦ 0) 1 _ aa.2 [aa.1, b.1, a.1] :=
    .intern (.intern (.intern (.new .origin) [97]) [98]) [97, 97]
  have hwait : Runs (fun _ ↦ 0) 1 m aa.2 [aa.1, b.1, a.1] := by
    refine haa.wait ⟨by decide, fun r hr hm ↦ ?_⟩
    have : ∀ r < 3, m.alive r = true →
        (((Moment.origin.handOut a.1).handOut b.1).handOut aa.1).alive r = true := by decide
    exact this r hr hm
  have h := (hwait.intern [98]).intern [97]
  exact ⟨_, _, _, h, h.shares_strings, by decide, by decide, by decide⟩

end Interner

/-! ## The interner of an instance -/

/-- A new cell of a heap is made after its moment. -/
theorem Heap.moment_allocate (h : Heap) (cell : Cell) :
    (h.allocate cell).moment = h.moment.allocate := by
  have halive : (h.allocate cell).alive = h.moment.allocate.alive := by
    funext r
    by_cases hr : r = h.fresh
    · simp [alive, cell?_allocate, Moment.allocate, moment, hr]
    · simp [alive, cell?_allocate, Moment.allocate, moment, hr]
  have hfresh : (h.allocate cell).fresh = h.moment.allocate.fresh := Array.size_push ..
  simp only [moment, halive, hfresh]

/-- A string that an instance makes is one that its interner gives out. -/
theorem Act.createString_runs [Hashing] {σ : Type} {s : State σ} {limit : Nat} {given : List Str}
    (h : Interner.Runs Hashing.bytes limit s.moment s.interner given) (bytes : Bytes) :
    ∃ str s', createString bytes s = (.ok (.str str), s') ∧ str.bytes = bytes ∧
      Interner.Runs Hashing.bytes limit s'.moment s'.interner (str :: given) := by
  have hbytes :=
    (Interner.intern_spec Hashing.bytes s.moment.alive s.moment.fresh bytes s.interner).1
  have hruns := h.intern bytes
  cases hintern : s.interner.intern Hashing.bytes s.moment.alive s.moment.fresh bytes with
  | mk str interner =>
  have hintern' : s.interner.intern Hashing.bytes s.heap.alive s.heap.fresh bytes =
      (str, interner) := hintern
  rw [hintern] at hbytes hruns
  unfold createString
  rw [bind_apply, get_apply]
  dsimp only
  rw [hintern']
  split
  · rename_i hfresh
    refine ⟨str, { s with heap := s.heap.allocate .text, interner }, rfl, hbytes, ?_⟩
    have hmoment : s.moment.handOut str = (s.heap.allocate .text).moment :=
      (if_pos hfresh).trans (Heap.moment_allocate _ _).symm
    rw [hmoment] at hruns
    exact hruns
  · rename_i hfresh
    refine ⟨str, { s with interner }, rfl, hbytes, ?_⟩
    have hmoment : s.moment.handOut str = s.moment := if_neg hfresh
    rw [hmoment] at hruns
    exact hruns

end LuaData
