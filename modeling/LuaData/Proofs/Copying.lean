import LuaData.Proofs.Resumption
import LuaData.Proofs.Traversal

/-!
# Copying values from key to key

A list that does not lie in the array part is shifted by copies from one integer key to the next.
Cells may be released before, within and after each copy, and a table with weak values may lose
values on the way (`Copying`). `Shows` compares a table with a map at one moment. Read
`Wrote.shows` first: what a write leaves shows, now and at all later moments, the written map. So
the copies of a run are copies in the map that the old table would show at its end
(`Copying.up`, `Copying.down`), whatever has been lost until then.
-/

namespace LuaData.Table

variable {hash : Value → UInt64} {m n now : Moment} {c : Course} {t u w : Table} {value : Value}
  {M : Contents} {jobs : List (Nat × Nat)} {r : Except Error Unit} {first count last k : Nat}

/-! ## The contents at a moment -/

/-- What a table has at a moment is what a map has. -/
def Shows (hash : Value → UInt64) (m : Moment) (t : Table) (M : Contents) : Prop :=
  ∀ key : Value, key.Stored → t.get (m.context hash) key = M.read key.content

/-- Every table shows a map. -/
theorem Sound.exists_shows (hs : t.Sound hash m) (hhash : Value.RespectsEq hash)
    (hsize : t.array.size < 2 ^ 63) : ∃ M, t.Shows hash m M := by
  let read : Value → Value :=
    fun key ↦ if key.normal? = some key then t.get (m.context hash) key else .nil
  have hnormal : ∀ key, read key ≠ .nil → key.normal? = some key := by
    intro key hread
    by_contra hnot
    exact hread (if_neg hnot)
  have hfinite : {key | read key ≠ .nil}.Finite := by
    refine (((t.entries (m.context hash)).map fun e ↦ e.1.content).finite_toSet).subset ?_
    intro key hread
    have hkey := hnormal key hread
    have hvalue : t.get (m.context hash) key ≠ .nil := by
      have hread' : read key ≠ .nil := hread
      simpa only [read, if_pos hkey] using hread'
    obtain ⟨l, hl, hcontent⟩ := Value.normal?_eq_some_iff.mp hkey
    have hstored : key.Stored := hcontent ▸ (Value.stored_of_key? hl).content
    obtain ⟨k, hmem, hk⟩ := (hs.get_eq_iff hhash hsize hstored hvalue).mp rfl
    refine List.mem_map.mpr ⟨_, hmem, hk.trans ?_⟩
    rw [← hcontent, Value.content_content]
  refine ⟨⟨read, hnormal, hfinite⟩, fun key hkey ↦ ?_⟩
  have hcontent : key.content.normal? = some key.content := by
    rw [Value.normal?_of_stored hkey.content, Value.content_content]
  show _ = if _ then _ else _
  rw [if_pos hcontent, hs.get_content hhash hkey]

/-- A key without a value does not come to have one as time passes. -/
theorem Sound.get_eq_nil_of_le (hs : t.Sound hash m) (hle : m ≤ n) (hhash : Value.RespectsEq hash)
    {key : Value} (hkey : key.Stored) (h : t.get (m.context hash) key = .nil) :
    t.get (n.context hash) key = .nil := by
  rw [hs.get_later hle hhash hkey, h, ite_self]

/-! ## Writes under integers -/

/-- The array part has at most as many entries as are documented for it, or the key is one of
them. -/
def Takes (t : Table) (k : Nat) : Prop :=
  t.array.size ≤ 2 ^ 31 ∨ 1 ≤ k ∧ k ≤ t.array.size ∧ t.array.size ≤ 2 ^ 33

/-- The errors with which a write under an integer can end: the table is too large, or all names of
slots are taken. -/
def Unfit (t : Table) (e : Error) : Prop :=
  e = .tableOverflow ∨ e = .fault .noSlot ∧ 2 ^ 32 < t.buckets.size

/-- A write that fails later could have failed before. -/
theorem Evolved.unfit {e : Error} (h : Evolved hash n t u) (he : u.Unfit e) : t.Unfit e := by
  rcases he with rfl | ⟨rfl, hnames⟩
  · exact .inl rfl
  · have := h.buckets_le
    exact .inr ⟨rfl, by omega⟩

/-- The array part does not outgrow its limit by writes to the keys from `first` to `last`: they lie
beyond the limit, or they lie within it and are followed by an absent key. -/
def Spared (hash : Value → UInt64) (m : Moment) (t : Table) (first last : Nat) : Prop :=
  2 ^ 31 + 1 < first ∨
    last ≤ 2 ^ 31 ∧ t.get (m.context hash) (.int (Int64.ofNat (last + 1))) = .nil

/-- What a write under an integer leaves of a table. A key after the end of the array part that gets
a place there ends up within it. -/
structure Wrote (hash : Value → UInt64) (m n : Moment) (t : Table) (k : Nat) (value : Value)
    (u : Table) : Prop where
  evolved : Evolved hash n t u
  rewritten : Rewritten hash n t (.int (Int64.ofNat k)) value u
  reaches : u.array.size ≤ 2 ^ 31 ∨ k ≤ u.array.size ∧ u.array.size ≤ 2 ^ 33
  within : ∀ last, k ≤ last → t.array.size ≤ 2 ^ 31 → t.Spared hash m k last →
    u.array.size ≤ 2 ^ 31

/-- Whether an integer keeps a value does not depend on the integer. -/
theorem kept_int_iff {alive : Ref → Bool} {mode : WeakMode} (i j : Int64) :
    Kept alive mode (.int i, value) ↔ Kept alive mode (.int j, value) :=
  and_congr_left' (iff_of_true (Handle.get_ofEntry_inline rfl _) (Handle.get_ofEntry_inline rfl _))

/-- What a write leaves shows the written map at all later moments, as long as the value is kept. -/
theorem Wrote.shows {o : Moment} (h : Wrote hash m n t k value u) (hs : t.Sound hash n)
    (hhash : Value.RespectsEq hash) (hnamed : value.Named n.fresh) (hle : n ≤ o)
    (hshows : t.Shows hash o M) :
    u.Shows hash o (M.set (.int (Int64.ofNat k))
      (if Kept o.alive t.mode (.int (Int64.ofNat k), value) then value else .nil)) := by
  intro key hkey
  rw [h.rewritten.later hs h.evolved.sound h.evolved.mode hhash nofun hnamed hle key hkey,
    hshows key hkey]
  refine if_congr ?_ rfl rfl
  rw [Value.normal?_int, Option.some.injEq, Value.content_int, eq_comm]

/-- A write into the hash part leaves the array part, and one that adds to it reaches its key. -/
theorem Placed.reaches {i : Int64} (h : Placed hash m t (.int i) value u) (hs : t.Sound hash m)
    (hhash : Value.RespectsEq hash) (hnamed : value.Named m.fresh) (hsize : t.array.size ≤ 2 ^ 31) :
    u.array.size ≤ 2 ^ 31 ∨ i.toInt ≤ u.array.size := by
  cases h with
  | inArray => exact .inl (Array.size_setIfInBounds.le.trans hsize)
  | appended hkey hk _ hmode hslot hpush =>
    cases hkey
    obtain ⟨v, hv, -, -, -, hprefix, -⟩ :=
      hs.pushBack hhash hmode (hsize.trans (by decide)) hk hnamed hslot
    obtain rfl := Except.ok.inj (hpush.symm.trans hv)
    have hlength := hprefix.length_le
    simp only [List.length_append, Array.length_toList, List.length_singleton] at hlength
    exact .inr (by omega)
  | unchanged => exact .inl hsize
  | buried => exact .inl hsize
  | dropped => exact .inl hsize
  | assigned => exact .inl hsize
  | inserted _ _ _ _ hu => exact .inl (hu.array ▸ hsize)

/-- A write to a key beyond the limit, or before an absent one, leaves the array part within its
limit. -/
theorem Placed.size_le_of_spared {i : Int64} (h : Placed hash m t (.int i) value u)
    (hs : t.Sound hash m) (hhash : Value.RespectsEq hash) (hnamed : value.Named m.fresh)
    (hsize : t.array.size ≤ 2 ^ 31) (hk : i.toInt = k) (hi : k ≤ last)
    (hspared : u.Spared hash m k last) : u.array.size ≤ 2 ^ 31 := by
  rcases h with hindex | ⟨hkey, hend, -, hmode, hslot, hpush⟩ | _ | _ | _ | _ | ⟨-, -, -, -, hu⟩
  · exact Array.size_setIfInBounds.le.trans hsize
  · cases hkey
    obtain ⟨hlast, habsent⟩ := hspared.resolve_left (by omega)
    obtain ⟨v, hv, -, -, -, -, hanchored, hextent⟩ :=
      hs.pushBack hhash hmode (hsize.trans (by decide)) hend hnamed hslot
    obtain rfl := Except.ok.inj (hpush.symm.trans hv)
    by_cases hanchor : t.anchored = true
    · rw [hanchored hanchor, Array.size_push]
      omega
    · by_contra hlarge
      exact (hextent (by simpa using hanchor)).filled (last + 1) (by omega) (by omega) habsent
  · exact hsize
  · exact hsize
  · exact hsize
  · exact hsize
  · exact hu.array ▸ hsize

/-- As time passes the array part is spared. -/
theorem Spared.later (h : t.Spared hash m first last) (hs : t.Sound hash m) (hle : m ≤ n)
    (hhash : Value.RespectsEq hash) : t.Spared hash n first last :=
  h.imp_right fun h ↦ ⟨h.1, hs.get_eq_nil_of_le hle hhash (Value.stored_int _) h.2⟩

/-- A write to one of the keys spares the array part. -/
theorem Spared.rewritten (h : t.Spared hash m first last) (hs : t.Sound hash m) (hle : m ≤ n)
    (hhash : Value.RespectsEq hash) (hk : k ≤ last)
    (hu : Rewritten hash n t (.int (Int64.ofNat k)) value u) : u.Spared hash n first last := by
  refine h.imp_right fun ⟨hlast, habsent⟩ ↦ ⟨hlast, ?_⟩
  have hne : (Value.int (Int64.ofNat (last + 1))).content ≠
      (Value.int (Int64.ofNat k)).content := by
    intro heq
    have htoInt := congrArg Int64.toInt (Number.int.inj (Value.num.inj heq))
    rw [Int64.toInt_ofNat_of_lt (by omega), Int64.toInt_ofNat_of_lt (by omega)] at htoInt
    omega
  rw [hu _ (Value.stored_int _), if_neg hne]
  exact hs.get_eq_nil_of_le hle hhash (Value.stored_int _) habsent

/-- An attempt that is done leaves the array part within its limit, or reaches its key. -/
theorem Attempt.sizes (h : Attempt hash m n t (.int (Int64.ofNat k)) value (.ok true) u)
    (hs : t.Sound hash m) (hmn : m ≤ n) (hhash : Value.RespectsEq hash)
    (hnamed : value.Named n.fresh) (hsize : t.array.size ≤ 2 ^ 31) (hk : k < 2 ^ 63) :
    (u.array.size ≤ 2 ^ 31 ∨ k ≤ u.array.size) ∧
      ∀ last, k ≤ last → t.Spared hash m k last → u.array.size ≤ 2 ^ 31 := by
  have hkint := Int64.toInt_ofNat_of_lt hk
  have hrewritten := h.rewritten hs hmn hhash (Value.stored_int _) nofun hnamed
    (hsize.trans (by decide))
  cases h with
  | stored hw hcleared hplaced =>
    have hw' := hw.later hmn
    have hwsize := hcleared.array ▸ hsize
    have hreaches := hplaced.reaches hw' hhash hnamed hwsize
    refine ⟨hreaches.imp_right (by omega), fun last hlast hspared ↦ ?_⟩
    exact hplaced.size_le_of_spared hw' hhash hnamed hwsize hkint hlast
      (hspared.rewritten hs hmn hhash hlast hrewritten)

namespace Sound

/-- A write within the array part, whatever its size. -/
theorem wrote_inArray (hs : t.Sound hash m) (hle : m ≤ c.clear) (hnamed : value.Named m.fresh)
    (hpos : 1 ≤ k) (hk : k ≤ t.array.size) (hsize : t.array.size ≤ 2 ^ 33) :
    ∃ u, t.storeKey hash c (.int (Int64.ofNat k)) value = (.ok (), u) ∧
      Wrote hash m c.last t k value u := by
  have hindex : t.index? (.int (Int64.ofNat k)) = some (k - 1) := by
    have hindex := index?_of_lt (t := t) (i := k - 1) (by omega) (by omega)
    rwa [Nat.sub_add_cancel hpos] at hindex
  have hdestination : ∀ n : Moment,
      t.destination (n.context hash) (.int (Int64.ofNat k)) value = .array (k - 1) := by
    intro n
    rcases destination_cases hash n t (.int (Int64.ofNat k)) value with
      ⟨i, hi, hd⟩ | ⟨j, hkey, hj, -⟩ | ⟨hnone, -⟩
    · rw [hd, Option.some.inj (hi.symm.trans hindex)]
    · obtain ⟨l, hl, hl', hlt⟩ := index?_eq_some_iff.mp hindex
      obtain rfl : j = l := Number.int.inj (Value.num.inj (hkey.symm.trans hl))
      omega
    · rw [hindex] at hnone
      cases hnone
  have hs' := hs.later (hle.trans c.clear_le_last)
  have hnamed' := hnamed.mono (Moment.fresh_le (hle.trans c.clear_le_last))
  let u : Table := { t with array := t.array.setIfInBounds (k - 1) value }
  have husize : u.array.size = t.array.size := Array.size_setIfInBounds
  refine ⟨u, ?_, ⟨⟨hs'.setArray _ hnamed', rfl, rfl, Nat.le_max_left _ _⟩, ?_, ?_, ?_⟩⟩
  · simp [Table.storeKey, tryStore, Table.makeReady, place, hdestination, pure, Except.pure, u]
  · unfold Rewritten
    rw [if_pos (hs'.kept_of_index? hindex value)]
    exact updated_setArray hindex
  · exact .inr (by omega)
  · intro _ _ hsmall _
    omega

/-- A write under an integer that the table takes is done, or the table is unfit for it. -/
theorem wrote_cases (hs : t.Sound hash m) (hle : m ≤ c.clear) (hhash : Value.RespectsEq hash)
    (hnamed : value.Named m.fresh) (htakes : t.Takes k) (hk : k < 2 ^ 63) :
    (∃ u, t.storeKey hash c (.int (Int64.ofNat k)) value = (.ok (), u) ∧
      Wrote hash m c.last t k value u) ∨
    ∃ e u, t.storeKey hash c (.int (Int64.ofNat k)) value = (.error e, u) ∧ t.Unfit e := by
  rcases htakes with hsize | ⟨hpos, hin, hsize⟩
  swap
  · exact .inl (hs.wrote_inArray hle hnamed hpos hin hsize)
  have hs' := hs.later hle
  have hnamed' := hnamed.mono (Moment.fresh_le hle)
  have hkey := Value.stored_int (Int64.ofNat k)
  have hevolved := (hs.storeInt hle hhash hnamed hsize (Int64.ofNat k)).1
  have hsize' := hs.size_storeKey_le hle hhash hkey hnamed hsize
  have houtcome := hs'.storeKey_cases hhash hkey hnamed' hsize
  generalize t.storeKey hash c (.int (Int64.ofNat k)) value = outcome at houtcome hevolved hsize'
  obtain ⟨r, u⟩ := outcome
  cases r with
  | error e =>
    refine .inr ⟨e, u, rfl, ?_⟩
    cases houtcome with
    | overflow => exact .inl rfl
    | noSlot h =>
      cases h with
      | noSlot _ hcleared _ _ hnames => exact .inr ⟨rfl, hcleared.frame.size ▸ hnames⟩
  | ok _ =>
    have hrewritten := houtcome.rewritten hs' hhash hkey nofun hnamed' hsize
    -- The sizes are those that the attempt leaves that is done, the first or the second.
    have hsizes : (u.array.size ≤ 2 ^ 31 ∨ k ≤ u.array.size) ∧
        ∀ last, k ≤ last → t.Spared hash m k last → u.array.size ≤ 2 ^ 31 := by
      cases houtcome with
      | stored h =>
        obtain ⟨hreaches, hwithin⟩ := h.sizes hs' c.clear_le hhash
          (hnamed'.mono (Moment.fresh_le c.clear_le)) hsize hk
        exact ⟨hreaches, fun last hlast hspared ↦
          hwithin last hlast (hspared.later hs hle hhash)⟩
      | @rehashed w v _ h hv hu =>
        have hvsound := hv.sound.later c.place_le
        obtain ⟨hreaches, hwithin⟩ := hu.sizes hvsound c.clearAgain_le hhash
          (hnamed'.mono (Moment.fresh_le c.clear_le_last)) hv.array_le hk
        obtain ⟨hw, hcleared⟩ := h.cleared nofun
        refine ⟨hreaches, fun last hlast hspared ↦ hwithin last hlast ?_⟩
        refine Spared.later ?_ hv.sound c.place_le hhash
        refine (hspared.later hs (hle.trans c.clear_le) hhash).imp_right fun h ↦ ⟨h.1, ?_⟩
        rw [hv.same_of_mode (hw.later c.clear_le) hhash _ (Value.stored_int _),
          hcleared.same hs' hw hhash c.clear_le _ (Value.stored_int _)]
        exact h.2
    refine .inl ⟨u, rfl, hevolved, hrewritten, ?_, fun last hlast _ ↦ hsizes.2 last hlast⟩
    exact hsizes.1.imp_right fun hreaches ↦ ⟨hreaches, hsize'⟩

end Sound

/-! ## Copies -/

/-- Values are copied one after the other. Cells may be released before, within and after each copy,
and a copy that fails is the last one. -/
inductive Copying (hash : Value → UInt64) :
    List (Nat × Nat) → Moment → Table → Except Error Unit → Moment → Table → Prop
  | done {m n : Moment} {t : Table} (hle : m ≤ n) : Copying hash [] m t (.ok ()) n t
  | step {job : Nat × Nat} {jobs : List (Nat × Nat)} {m now n : Moment} {c : Course}
      {t u w : Table} {r : Except Error Unit} (hnow : m ≤ now) (hle : now ≤ c.clear)
      (hcopy : t.copy hash now c job = (.ok (), u)) (h : Copying hash jobs c.last u r n w) :
      Copying hash (job :: jobs) m t r n w
  | failed {job : Nat × Nat} {jobs : List (Nat × Nat)} {m now n : Moment} {c : Course}
      {t u : Table} {e : Error} (hnow : m ≤ now) (hle : now ≤ c.clear)
      (hcopy : t.copy hash now c job = (.error e, u)) (hlast : c.last ≤ n) :
      Copying hash (job :: jobs) m t (.error e) n u

/-- Copies that begin later. -/
theorem Copying.of_le (hle : m ≤ now) (h : Copying hash jobs now t r n u) :
    Copying hash jobs m t r n u := by
  cases h with
  | done hle' => exact .done (hle.trans hle')
  | step hnow hclear hcopy h => exact .step (hle.trans hnow) hclear hcopy h
  | failed hnow hclear hcopy hlast => exact .failed (hle.trans hnow) hclear hcopy hlast

/-- What copies leave of a table: they are done, and made in the map that it shows at the end or
later, or the table is unfit for one of them. -/
structure Copied (hash : Value → UInt64) (m : Moment) (t : Table) (jobs : List (Nat × Nat))
    (r : Except Error Unit) (n : Moment) (u : Table) : Prop where
  le : m ≤ n
  unfit : ∀ e, r = .error e → t.Unfit e
  evolved : r = .ok () → Evolved hash n t u
  shows : r = .ok () → ∀ (o : Moment) (M : Contents), n ≤ o → t.Shows hash o M →
    u.Shows hash o (M.copyAll jobs)

/-- No copies. -/
theorem Copied.nil (hs : t.Sound hash m) (hle : m ≤ n) : Copied hash m t [] (.ok ()) n t where
  le := hle
  unfit := nofun
  evolved := fun _ ↦ (Frame.refl t).evolved (hs.later hle)
  shows := fun _ _ _ _ hshows ↦ hshows

/-- A copy that is done leaves the copied map, now and later. -/
theorem Wrote.shows_copy {o : Moment} {job : Nat × Nat} (hs : t.Sound hash now)
    (hhash : Value.RespectsEq hash) (hle : now ≤ n)
    (h : Wrote hash now n t job.2 (t.getInt (now.context hash) (Int64.ofNat job.1)) u)
    (hno : n ≤ o) (hshows : t.Shows hash o M) : u.Shows hash o (M.copy job) := by
  have hnamed : (t.getInt (now.context hash) (Int64.ofNat job.1)).Named n.fresh :=
    (hs.get_named hhash (.int (Int64.ofNat job.1))).mono (Moment.fresh_le hle)
  have hcopied := h.shows (hs.later hle) hhash hnamed hno hshows
  -- What is kept of the value under its new key is what the table shows under the old one.
  have hread := hshows _ (Value.stored_int (Int64.ofNat job.1))
  rw [hs.get_later (hle.trans hno) hhash (Value.stored_int _)] at hread
  rw [if_congr (kept_int_iff (Int64.ofNat job.2) (Int64.ofNat job.1)) rfl rfl] at hcopied
  rw [Value.content_int] at hread
  rw [Contents.copy, ← hread]
  exact hcopied

/-- One more copy. -/
theorem Copied.cons {job : Nat × Nat} (hs : t.Sound hash m) (hhash : Value.RespectsEq hash)
    (hnow : m ≤ now) (hle : now ≤ c.clear)
    (hwrote : Wrote hash now c.last t job.2 (t.getInt (now.context hash) (Int64.ofNat job.1)) u)
    (h : Copied hash c.last u jobs r n w) : Copied hash m t (job :: jobs) r n w where
  le := hnow.trans (hle.trans (c.clear_le_last.trans h.le))
  unfit := fun e he ↦ hwrote.evolved.unfit (h.unfit e he)
  evolved := fun hr ↦ hwrote.evolved.trans (h.evolved hr)
  shows := fun hr o M hno hshows ↦ h.shows hr o (M.copy job) hno
    (hwrote.shows_copy (hs.later hnow) hhash (hle.trans c.clear_le_last) (h.le.trans hno) hshows)

/-- A copy for which the table is unfit. -/
theorem Copied.of_unfit {job : Nat × Nat} {e : Error} (hnow : m ≤ now) (hle : now ≤ c.clear)
    (hlast : c.last ≤ n) (h : t.Unfit e) : Copied hash m t (job :: jobs) (.error e) n u where
  le := hnow.trans (hle.trans (c.clear_le_last.trans hlast))
  unfit := by
    rintro _ ⟨rfl⟩
    exact h
  evolved := nofun
  shows := nofun

/-- A copy to a key that the table takes is a write under it. -/
theorem Sound.copy_cases (hs : t.Sound hash m) (hhash : Value.RespectsEq hash) (hnow : m ≤ now)
    (hle : now ≤ c.clear) (job : Nat × Nat) (htakes : t.Takes job.2) (hjob : job.2 < 2 ^ 63) :
    (∃ u, t.copy hash now c job = (.ok (), u) ∧
      Wrote hash now c.last t job.2 (t.getInt (now.context hash) (Int64.ofNat job.1)) u) ∨
    ∃ e u, t.copy hash now c job = (.error e, u) ∧ t.Unfit e := by
  have hs' := hs.later hnow
  exact hs'.wrote_cases hle hhash (hs'.get_named hhash (.int (Int64.ofNat job.1))) htakes hjob

/-- A write after the copies is done, in the copied map, or the table is unfit for it. -/
theorem Copied.store_cases (h : Copied hash m t jobs (.ok ()) now u) (hs : t.Sound hash m)
    (hhash : Value.RespectsEq hash) (hsize : t.array.size < 2 ^ 63) (hnamed : value.Named m.fresh)
    (hle : now ≤ c.clear) (hlast : c.last ≤ n) (htakes : u.Takes k) (hk : k < 2 ^ 63)
    (hstore : u.storeKey hash c (.int (Int64.ofNat k)) value = (r, w)) :
    (r = .ok () ∧ ∃ M, t.Shows hash n M ∧ w.Shows hash n
      ((M.copyAll jobs).set (.int (Int64.ofNat k))
        (if Kept n.alive u.mode (.int (Int64.ofNat k), value) then value else .nil))) ∨
    ∃ e, r = .error e ∧ t.Unfit e := by
  have hevolved := h.evolved rfl
  have hnamed' := hnamed.mono (Moment.fresh_le h.le)
  have hdone := hle.trans c.clear_le_last
  rcases hevolved.sound.wrote_cases hle hhash hnamed' htakes hk with
    ⟨w', hw', hwrote⟩ | ⟨e, w', hw', hunfit⟩
  · cases hstore.symm.trans hw'
    have hnow := hdone.trans hlast
    obtain ⟨M, hM⟩ := (hs.later (h.le.trans hnow)).exists_shows hhash hsize
    exact .inl ⟨rfl, M, hM, hwrote.shows (hevolved.sound.later hdone) hhash
      (hnamed'.mono (Moment.fresh_le hdone)) hlast (h.shows rfl n M hnow hM)⟩
  · cases hstore.symm.trans hw'
    exact .inr ⟨e, rfl, hevolved.unfit hunfit⟩

/-- The copies one key up. Once the array part has outgrown its limit, the keys that are still
written to are its own. -/
theorem Copying.up (h : Copying hash (copiesUp first count) m t r n u) (hs : t.Sound hash m)
    (hhash : Value.RespectsEq hash) (hfirst : 1 ≤ first) (hbound : first + count < 2 ^ 63)
    (htakes : t.Takes (first + count)) :
    Copied hash m t (copiesUp first count) r n u ∧ (r = .ok () → u.Takes first) := by
  induction count generalizing m t with
  | zero =>
    cases h with
    | done hle => exact ⟨.nil hs hle, fun _ ↦ htakes⟩
  | succ count ih =>
    cases h with
    | @step _ _ _ now _ c _ w _ _ hnow hle hcopy h =>
      rcases hs.copy_cases hhash hnow hle (first + count, first + count + 1) htakes hbound
        with ⟨w', hw', hwrote⟩ | ⟨e, w', hw', -⟩
      · obtain rfl : w = w' := (Prod.mk.inj (hcopy.symm.trans hw')).2
        have htakes' : w.Takes (first + count) := by
          rcases hwrote.reaches with hsmall | ⟨hreaches, hsize⟩
          · exact .inl hsmall
          · exact .inr ⟨by omega, by omega, hsize⟩
        obtain ⟨hcopied, hend⟩ := ih h hwrote.evolved.sound (by omega) htakes'
        exact ⟨hcopied.cons hs hhash hnow hle hwrote, hend⟩
      · cases hcopy.symm.trans hw'
    | @failed _ _ _ _ _ c _ w e hnow hle hcopy hlast' =>
      rcases hs.copy_cases hhash hnow hle (first + count, first + count + 1) htakes hbound
        with ⟨w', hw', -⟩ | ⟨e', w', hw', hunfit⟩
      · cases hcopy.symm.trans hw'
      · cases hcopy.symm.trans hw'
        exact ⟨.of_unfit hnow hle hlast' hunfit, nofun⟩

/-- The copies one key down, by which the array part is spared. -/
theorem Copying.down (last : Nat) (h : Copying hash (copiesDown first count) m t r n u)
    (hs : t.Sound hash m) (hhash : Value.RespectsEq hash) (hsum : first + count ≤ last + 1)
    (hlast : last < 2 ^ 63) (hsize : t.array.size ≤ 2 ^ 31) (hspared : t.Spared hash m first last) :
    Copied hash m t (copiesDown first count) r n u ∧ (r = .ok () → u.array.size ≤ 2 ^ 31) := by
  induction count generalizing m t first with
  | zero =>
    cases h with
    | done hle => exact ⟨.nil hs hle, fun _ ↦ hsize⟩
  | succ count ih =>
    have hfirst : first < 2 ^ 63 := by omega
    have hle' : first ≤ last := by omega
    cases h with
    | @step _ _ _ now _ c _ w _ _ hnow hle hcopy h =>
      rcases hs.copy_cases hhash hnow hle (first + 1, first) (.inl hsize) hfirst with
        ⟨w', hw', hwrote⟩ | ⟨e, w', hw', -⟩
      · obtain rfl : w = w' := (Prod.mk.inj (hcopy.symm.trans hw')).2
        have hwsize := hwrote.within last hle' hsize (hspared.later hs hnow hhash)
        have hwspared := hspared.rewritten hs (hnow.trans (hle.trans c.clear_le_last)) hhash hle'
          hwrote.rewritten
        obtain ⟨hcopied, hend⟩ := ih h hwrote.evolved.sound (by omega) hwsize
          (hwspared.imp_left (by omega))
        exact ⟨hcopied.cons hs hhash hnow hle hwrote, hend⟩
      · cases hcopy.symm.trans hw'
    | @failed _ _ _ _ _ c _ w e hnow hle hcopy hlast' =>
      rcases hs.copy_cases hhash hnow hle (first + 1, first) (.inl hsize) hfirst with
        ⟨w', hw', -⟩ | ⟨e', w', hw', hunfit⟩
      · cases hcopy.symm.trans hw'
      · cases hcopy.symm.trans hw'
        exact ⟨.of_unfit hnow hle hlast' hunfit, nofun⟩

/-! ## The copies of a table alone -/

/-- Copy values one after the other, at one moment. -/
def copyAll (ctx : Context) (jobs : List (Nat × Nat)) (t : Table) : Except Error Table :=
  jobs.foldlM (fun t job ↦
    t.setInt ctx (Int64.ofNat job.2) (t.getInt ctx (Int64.ofNat job.1))) t

/-- Shifting values up is copying them. -/
theorem shiftUp_eq (ctx : Context) (first count : Nat) (t : Table) :
    t.shiftUp ctx first count = t.copyAll ctx (copiesUp first count) := by
  induction count generalizing t with
  | zero => rfl
  | succ count ih =>
    show (t.setInt ctx _ _ >>= fun u ↦ u.shiftUp ctx first count) = t.setInt ctx _ _ >>= _
    exact bind_congr fun u ↦ ih u

/-- Shifting values down is copying them. -/
theorem shiftDown_eq (ctx : Context) (first count : Nat) (t : Table) :
    t.shiftDown ctx first count = t.copyAll ctx (copiesDown first count) := by
  induction count generalizing t first with
  | zero => rfl
  | succ count ih =>
    show (t.setInt ctx _ _ >>= fun u ↦ u.shiftDown ctx (first + 1) count) = t.setInt ctx _ _ >>= _
    exact bind_congr fun u ↦ ih _ u

/-- A write of a table alone is one in which nothing is released. -/
theorem setInt_eq {r : Except Error Unit} {i : Int64}
    (h : t.storeKey hash (.still m) (.int i) value = (r, u)) :
    t.setInt (m.context hash) i value = r.map fun _ ↦ u := by
  have hset := store_still hash m t (.int i) value
  rw [show t.store hash (.still m) (.int i) value = (r, u) from h] at hset
  refine hset.trans ?_
  cases r <;> rfl

/-- The copies of a table alone are copies in which nothing is released. -/
theorem copying_copyAll (hash : Value → UInt64) (m : Moment) (jobs : List (Nat × Nat)) (t : Table) :
    ∃ r u, Copying hash jobs m t r m u ∧
      t.copyAll (m.context hash) jobs = r.map fun _ ↦ u := by
  induction jobs generalizing t with
  | nil => exact ⟨.ok (), t, .done (le_refl m), rfl⟩
  | cons job jobs ih =>
    cases hcopy : t.copy hash m (.still m) job with
    | mk r u =>
      have hstep : t.copyAll (m.context hash) (job :: jobs) =
          (r.map fun _ ↦ u) >>= copyAll (m.context hash) jobs := by
        rw [← setInt_eq hcopy]
        rfl
      cases r with
      | error e =>
        exact ⟨_, u, .failed (c := .still m) (le_refl m) (le_refl m) hcopy (le_refl m), hstep⟩
      | ok _ =>
        obtain ⟨r, w, hcopying, hall⟩ := ih u
        exact ⟨r, w, .step (c := .still m) (le_refl m) (le_refl m) hcopy hcopying,
          hstep.trans hall⟩

end LuaData.Table
