import LuaData.Proofs.Exporting

/-!
# From JSON and back

What has been imported is exported as the normal form of what it was: `Loaded.exports` finds the
JSON value of every table of an import, whether the table is a list or not. `Act.json_round_trip` is
the result for the two conversions.
-/

namespace LuaData

namespace Json

variable {items : List Json} {i : Nat} {n : Int}

/-- The positions of items are small. -/
theorem position_lt (hlength : items.length ≤ 2 ^ 62) (hi : (itemAt items i).isNull = false) :
    i + 1 < 2 ^ 63 := by
  have := lt_length_of_itemAt hi
  omega

/-- Where no null is left, there are items at the indices up to the last one. -/
theorem isNull_itemAt_iff (h : (trimNulls items).any isNull = false) :
    (itemAt items i).isNull = false ↔ i < (trimNulls items).length := by
  rw [← itemAt_trimNulls]
  refine ⟨lt_length_of_itemAt, fun hi ↦ ?_⟩
  exact Bool.eq_false_iff.mpr (List.any_eq_false.mp h _ (itemAt_mem hi))

/-- Where a null is left, it is before another item. -/
theorem exists_gap (h : (trimNulls items).any isNull = true) :
    ∃ gap last, gap < last ∧ (itemAt items gap).isNull = true ∧
      (itemAt items last).isNull = false := by
  obtain ⟨j, hj, hnull⟩ := List.any_eq_true.mp h
  obtain ⟨gap, hgap, rfl⟩ := List.mem_iff_getElem.mp hj
  have hlast := isNull_last_trimNulls (List.ne_nil_of_mem hj)
  have hgapNull : (itemAt (trimNulls items) gap).isNull = true := by
    rw [itemAt, List.getD_eq_getElem _ _ hgap]
    exact hnull
  have hne : gap ≠ (trimNulls items).length - 1 := by
    intro heq
    rw [← heq, hgapNull] at hlast
    cases hlast
  rw [itemAt_trimNulls] at hlast hgapNull
  exact ⟨gap, _, by omega, hgapNull, hlast⟩

/-! ## Normal forms can be imported -/

/-- An integer that is a proper value but not one of 64 bits with a sign. -/
theorem natAbs_lt_of_proper (h : (Json.int n).Proper) (hn : Double.int64? n = none) :
    n.natAbs < 2 ^ 64 := by
  obtain ⟨hlow, hhigh⟩ := h
  have hne : n ≠ -(2 ^ 63) := by
    rintro rfl
    cases hn
  omega

/-- Normal forms are proper values. -/
theorem proper_normalize (width : Width) {j : Json} (h : j.Throughout Proper) :
    (j.normalize width).Throughout Proper := by
  refine h.normalize (fun k ↦ ?_) (fun i hi hproper ↦ ?_) (fun items _ ↦ ?_)
    fun members hsorted ↦ ?_
  · have := k.le_toInt
    have := k.toInt_lt
    constructor <;> omega
  · exact Double.isFinite_ofInt (natAbs_lt_of_proper hproper hi)
  · unfold ofItems
    split
    · exact sorted_ofMembers _
    · trivial
  · have hmap : Sorted (members.map fun m ↦ (m.1, normalize width m.2)) :=
      List.pairwise_map.mpr (show Sorted members from hsorted)
    unfold ofRecord
    dsimp only
    split
    · trivial
    · exact hmap.filter _

/-- The form of an array is no larger. -/
theorem fits_ofItems (width : Width) (h : (Json.array items).Fits) :
    (ofItems (items.map (normalize width))).Fits := by
  obtain ⟨hlength, hholes⟩ := h
  have hinitial := List.rdropWhile_prefix isNull items
  have hnull : ((trimNulls items).map (normalize width)).any isNull =
      (trimNulls items).any isNull := by
    rw [List.any_map, isNull_comp_normalize]
  unfold ofItems
  rw [trimNulls_map_normalize, hnull]
  split
  · rename_i hgap
    have hcomp : (fun j ↦ !j.isNull) ∘ normalize width = fun j ↦ !j.isNull :=
      funext fun j ↦ congrArg (!·) (isNull_normalize width j)
    have hcount : (numbered ((trimNulls items).map (normalize width))).length ≤ 2 ^ 30 := by
      rw [length_numbered, List.countP_map, hcomp]
      exact (hinitial.sublist.countP_le).trans (hholes hgap)
    exact ((length_ofMembers_le _).trans hcount).trans (by norm_num)
  · rename_i hgap
    refine ⟨?_, fun hleft ↦ absurd hleft ?_⟩
    · rw [List.length_map]
      exact hinitial.length_le.trans hlength
    · -- No null is left to be dropped.
      rw [← trimNulls_map_normalize, trimNulls, trimNulls, List.rdropWhile_idempotent]
      show ¬ (trimNulls (items.map (normalize width))).any isNull = true
      rwa [trimNulls_map_normalize, hnull]

/-- The form of an object is no larger. -/
theorem fits_ofRecord (width : Width) {members : List (List Char × Json)}
    (h : (Json.object members).Fits) :
    (ofRecord (members.map fun m ↦ (m.1, normalize width m.2))).Fits := by
  unfold ofRecord
  dsimp only
  split
  · exact ⟨Nat.zero_le _, nofun⟩
  · have hlength : members.length ≤ 2 ^ 32 := h
    refine (List.length_filter_le _ _).trans ?_
    rwa [List.length_map]

/-- Normal forms are no larger. -/
theorem fits_normalize (width : Width) {j : Json} (h : j.Throughout Fits) :
    (j.normalize width).Throughout Fits :=
  h.normalize (fun _ ↦ trivial) (fun _ _ _ ↦ trivial) (fun _ ↦ fits_ofItems width)
    fun _ ↦ fits_ofRecord width

end Json

/-! ## The tables of items and of members -/

/-- The keys of the table are the positions of the items that are not null. -/
def Table.HasPositions (ctx : Context) (t : Table) (items : List Json) : Prop :=
  ∀ key, t.get ctx key ≠ .nil ↔
    ∃ i, (Json.itemAt items i).isNull = false ∧ key.normal? = some (.int (Int64.ofNat (i + 1)))

/-- The keys of the table are the keys of the members that are not null. -/
def Table.HasMembers (ctx : Context) (t : Table) (members : List (List Char × Json)) : Prop :=
  ∀ key, t.get ctx key ≠ .nil ↔
    ∃ m ∈ members, m.2.isNull = false ∧ key.normal? = some (.str ⟨Utf8.encode m.1, 0⟩)

namespace State

variable [Hashing]
variable {σ : Type} {s : State σ} {r : Ref} {t : Table} {items : List Json}
  {members : List (List Char × Json)}

/-- Positions with a gap are not the keys of a list. -/
theorem HasTable.not_isList_of_gap (ht : s.HasTable r t) (hlength : items.length ≤ 2 ^ 62)
    (hkeys : t.HasPositions s.context items) (hnull : (Json.trimNulls items).any Json.isNull = true)
    (n : Nat) : ¬ t.IsList s.context n := by
  intro hn
  obtain ⟨gap, last, hlt, hgap, hlast⟩ := Json.exists_gap hnull
  have hlast' := Json.position_lt hlength hlast
  have hn' := (ht.sound.keyCount_of_isList Value.rawEq_hash ht.size hn).1
  obtain ⟨i, hi, hnormal⟩ := (hn (.int (Int64.ofNat (last + 1)))).mp
    ((hkeys _).mpr ⟨last, hlast, rfl⟩)
  have hlasti := Value.int_ofNat_inj hlast' (by omega) (Option.some.inj hnormal)
  -- The key of the gap comes before the last one, so a list has it.
  obtain ⟨k, hk, hnormal'⟩ := (hkeys (.int (Int64.ofNat (gap + 1)))).mp
    ((hn _).mpr ⟨gap, by omega, rfl⟩)
  have hgapk := Value.int_ofNat_inj (by omega) (Json.position_lt hlength hk)
    (Option.some.inj hnormal')
  rw [← Nat.succ.inj hgapk, hgap] at hk
  cases hk

/-- A table with items under their positions exports as these items. -/
theorem exports_ofItems (ht : s.HasTable r t) (hlength : items.length ≤ 2 ^ 62)
    (hkeys : t.HasPositions s.context items)
    (hvalues : ∀ i, (Json.itemAt items i).isNull = false →
      s.Exports (t.get s.context (.int (Int64.ofNat (i + 1)))) (Json.itemAt items i)) :
    s.Exports (.table r) (Json.ofItems items) := by
  unfold Json.ofItems
  split
  · rename_i hnull
    have hnumbered : ∀ m, m ∈ Json.ofMembers (Json.numbered (Json.trimNulls items)) ↔
        ∃ i, (Json.itemAt items i).isNull = false ∧
          m = (decimalDigits (i + 1), Json.itemAt items i) := by
      intro m
      rw [Json.mem_ofMembers_iff (Json.numbered_pairwise _), Json.mem_numbered_iff]
      simp only [Json.itemAt_trimNulls]
    refine exports_keyed ht (ht.not_isList_of_gap hlength hkeys hnull) (Json.sorted_ofMembers _)
      hnumbered (fun i ↦ Value.normal?_int _) hkeys (fun i hi k hk hnormal ↦ ?_)
      (fun i j heq ↦ ?_) hvalues
    · rw [Value.normal?_of_stored hk, Option.some.injEq] at hnormal
      rw [Value.content_eq_int hnormal, ← Integer.text_ofNat (Json.position_lt hlength hi)]
      rfl
    · rw [decimalDigits_injective heq]
  · rename_i hnull
    have hitem : ∀ i, (Json.itemAt items i).isNull = false ↔ i < (Json.trimNulls items).length :=
      fun i ↦ Json.isNull_itemAt_iff (Bool.eq_false_iff.mpr hnull)
    rw [← Json.map_itemAt_range (Json.trimNulls items)]
    refine .list _ ht (fun key ↦ ?_) fun i hi ↦ ?_
    · rw [hkeys key]
      simp only [hitem]
    · rw [Json.itemAt_trimNulls]
      exact hvalues i ((hitem i).mpr hi)

/-- A table with members under the strings of their keys exports as these members. -/
theorem exports_ofRecord (ht : s.HasTable r t) (hsorted : Json.Sorted members)
    (hkeys : t.HasMembers s.context members)
    (hvalues : ∀ m ∈ members, m.2.isNull = false →
      s.Exports (t.get s.context (.str ⟨Utf8.encode m.1, 0⟩)) m.2) :
    s.Exports (.table r) (Json.ofRecord members) := by
  have hkept : ∀ m, m ∈ (members.filter fun m ↦ !m.2.isNull) ↔
      m ∈ members ∧ m.2.isNull = false := by
    intro m
    rw [List.mem_filter, Bool.not_eq_true']
  unfold Json.ofRecord
  dsimp only
  split
  · rename_i hempty
    -- Without keys the table is the empty list.
    have hlist : t.IsList s.context 0 := by
      intro key
      rw [hkeys key]
      constructor
      · rintro ⟨m, hm, hnull, -⟩
        rw [List.isEmpty_iff] at hempty
        have := (hkept m).mpr ⟨hm, hnull⟩
        rw [hempty] at this
        cases this
      · rintro ⟨i, hi, -⟩
        exact absurd hi (Nat.not_lt_zero i)
    exact .list (fun _ ↦ .null) ht hlist fun i hi ↦ absurd hi (Nat.not_lt_zero i)
  · rename_i hne
    have hlist : ∀ n, ¬ t.IsList s.context n := by
      intro n hn
      obtain ⟨m, hm⟩ := List.exists_mem_of_ne_nil _ (mt List.isEmpty_iff.mpr hne)
      obtain ⟨hmem, hnull⟩ := (hkept m).mp hm
      obtain ⟨i, -, hnormal⟩ := (hn (.str ⟨Utf8.encode m.1, 0⟩)).mp
        ((hkeys _).mpr ⟨m, hmem, hnull, rfl⟩)
      cases hnormal
    have hmem : ∀ m, m ∈ (members.filter fun m ↦ !m.2.isNull) ↔
        ∃ n, (n ∈ members ∧ n.2.isNull = false) ∧ m = (n.1, n.2) := by
      intro m
      rw [hkept m]
      exact ⟨fun h ↦ ⟨m, h, rfl⟩, fun ⟨n, hn, heq⟩ ↦ heq ▸ hn⟩
    refine exports_keyed ht hlist (hsorted.filter _) hmem (fun m ↦ rfl) (fun k ↦ ?_)
      (fun m _ k _ hnormal ↦ ?_) (fun m n heq ↦ by rw [heq]) fun m hm ↦ hvalues m hm.1 hm.2
    · rw [hkeys k]
      simp only [and_assoc]
    · obtain ⟨str, rfl, hbytes⟩ := Value.eq_str_of_normal? hnormal
      rw [Value.memberKey?, hbytes, Utf8.decodeLossy_encode]

end State

/-! ## The export of an import -/

namespace Loaded

variable [Hashing]
variable {σ : Type} {s : State σ} {width : Width} {r : Ref} {t : Table} {items : List Json}
  {members : List (List Char × Json)} {j : Json} {v : Value}

/-- The keys of an imported table are those of its items or members that are not null. -/
theorem get_ne_nil_iff {ι : Type} {I : ι → Prop} {key : ι → Value} {item : ι → Json}
    (hplain : t.Plain Value.hash s.moment) (hsize : t.array.size ≤ 2 ^ 62)
    (hkey : ∀ i, (key i).normal? = some (key i))
    (hitems : ∀ i, I i → Loaded width s.heap (item i) (t.valueOf Value.hash (key i)))
    (honly : ∀ k, t.valueOf Value.hash k ≠ .nil → ∃ i, I i ∧ k.normal? = some (key i)) (k : Value) :
    t.get s.context k ≠ .nil ↔
      ∃ i, I i ∧ (item i).isNull = false ∧ k.normal? = some (key i) := by
  have hget : ∀ k, t.get s.context k = t.valueOf Value.hash k := hplain.get_eq s.moment
  have hcongr : ∀ i, k.normal? = some (key i) →
      t.get s.context k = t.valueOf Value.hash (key i) := by
    intro i hnormal
    rw [← hget]
    exact hplain.sound.get_congr_normal? Value.rawEq_hash hsize (hnormal.trans (hkey i).symm)
  constructor
  · intro hne
    obtain ⟨i, hi, hnormal⟩ := honly k (hget k ▸ hne)
    refine ⟨i, hi, ?_, hnormal⟩
    rw [← (hitems i hi).isNil_eq, ← hcongr i hnormal]
    exact Value.isNil_eq_false hne
  · intro h hnil
    obtain ⟨i, hi, hnull, hnormal⟩ := h
    rw [← (hitems i hi).isNil_eq, ← hcongr i hnormal, hnil] at hnull
    cases hnull

/-- An imported value exports as its normal form. -/
theorem exports (h : Loaded width s.heap j v) (hproper : j.Throughout Json.Proper) :
    s.Exports v (j.normalize width) := by
  induction h with
  | null => exact .nil
  | bool b => exact .bool b
  | @int i k hi =>
    rw [Json.normalize, hi]
    exact .int _
  | @large i hi =>
    rw [Json.normalize, hi]
    exact .float (Double.isFinite_ofInt (Json.natAbs_lt_of_proper hproper.self hi))
  | float x => exact .float hproper.self
  | @string text str hbytes hcell =>
    have htext : Utf8.decodeLossy str.bytes = text := by
      rw [hbytes, Utf8.decodeLossy_encode]
    rw [Json.normalize, ← htext]
    exact .str str
  | @array items r t ht hplain hsize hlength hitems honly ih =>
    have hget : ∀ k, t.get s.context k = t.valueOf Value.hash k := hplain.get_eq s.moment
    have hnull : ∀ i, (Json.itemAt (items.map (Json.normalize width)) i).isNull =
        (Json.itemAt items i).isNull := by
      intro i
      rw [Json.itemAt_map_normalize, Json.isNull_normalize]
    rw [Json.normalize, Json.normalizeItems_eq_map]
    refine State.exports_ofItems ⟨ht, hplain.sound, hsize⟩ (by simpa using hlength) (fun key ↦ ?_)
      fun i hi ↦ ?_
    · rw [get_ne_nil_iff hplain hsize (fun i ↦ Value.normal?_int _) hitems honly key]
      simp only [hnull]
      constructor
      · rintro ⟨i, -, h⟩
        exact ⟨i, h⟩
      · rintro ⟨i, hi, hnormal⟩
        exact ⟨i, Json.lt_length_of_itemAt hi, hi, hnormal⟩
    · rw [hnull] at hi
      have hlt := Json.lt_length_of_itemAt hi
      rw [hget, Json.itemAt_map_normalize]
      exact ih i hlt (hproper.item (Json.itemAt_mem hlt))
  | @object members r t ht hplain hsize hmembers honly ih =>
    have hget : ∀ k, t.get s.context k = t.valueOf Value.hash k := hplain.get_eq s.moment
    have hsorted : Json.Sorted members := hproper.self
    rw [Json.normalize, Json.normalizeMembers_eq_map]
    refine State.exports_ofRecord ⟨ht, hplain.sound, hsize⟩ (List.pairwise_map.mpr hsorted)
      (fun key ↦ ?_) fun m hm _ ↦ ?_
    · rw [get_ne_nil_iff hplain hsize (fun m ↦ rfl) hmembers honly key]
      constructor
      · rintro ⟨m, hm, hnull, hnormal⟩
        refine ⟨_, List.mem_map_of_mem hm, ?_, hnormal⟩
        rwa [Json.isNull_normalize]
      · rintro ⟨n, hn, hnull, hnormal⟩
        obtain ⟨m, hm, rfl⟩ := List.mem_map.mp hn
        rw [Json.isNull_normalize] at hnull
        exact ⟨m, hm, hnull, hnormal⟩
    · obtain ⟨n, hn, rfl⟩ := List.mem_map.mp hm
      rw [hget]
      exact ih n hn (hproper.member hn)

end Loaded

namespace Act

section

variable [Hashing]
variable {σ : Type}

/-- In a state a JSON value can be imported, and what has been imported is exported as another. -/
def RoundTrip (s : State σ) (j k : Json) : Prop :=
  ∃ v s', ofJson j s = (.ok v, s') ∧ s'.toJson v = .ok k

/-- Every value goes round to its normal form. -/
theorem roundTrip_normalize (s : State σ) {j : Json} (hproper : j.Throughout Json.Proper)
    (hfits : j.Throughout Json.Fits) : RoundTrip s j (j.normalize s.options.integerWidth) := by
  obtain ⟨v, s', hv, -, hloaded⟩ := ofJson_loaded j hproper hfits s
  exact ⟨v, s', hv, (hloaded.exports hproper).toJson_eq⟩

/-- Import and export give the normal form of a JSON value, in whatever state. It is its own normal
form, so that it is left as it is when it goes round again, in this state or in another one with
integers of the same width. -/
theorem json_round_trip (s : State σ) (j : Json) (hproper : j.Throughout Json.Proper)
    (hfits : j.Throughout Json.Fits) :
    let normal := j.normalize s.options.integerWidth
    RoundTrip s j normal ∧ normal.normalize s.options.integerWidth = normal ∧
      ∀ s' : State σ, s'.options.integerWidth = s.options.integerWidth →
        RoundTrip s' normal normal := by
  refine ⟨roundTrip_normalize s hproper hfits, Json.normalize_normalize _ _, fun s' hwidth ↦ ?_⟩
  have hagain := roundTrip_normalize s' (Json.proper_normalize s.options.integerWidth hproper)
    (Json.fits_normalize _ hfits)
  rwa [hwidth, Json.normalize_normalize] at hagain

end

/-- Null before another item makes an object. -/
theorem json_round_trip_hole :
    RoundTrip (State.initial Options.default ()) (.array [.null, .bool true])
      (.object [(['2'], .bool true)]) := by
  have hthroughout : ∀ {P : Json → Prop}, P .null → P (.bool true) →
      P (.array [.null, .bool true]) → (Json.array [.null, .bool true]).Throughout P := by
    intro P hnull htrue harray
    refine .array harray fun j hj ↦ ?_
    simp only [List.mem_cons, List.not_mem_nil, or_false] at hj
    rcases hj with rfl | rfl
    · exact .atom nofun nofun hnull
    · exact .atom nofun nofun htrue
  have hfits : (Json.array [.null, .bool true]).Fits := by constructor <;> decide
  exact (json_round_trip (State.initial Options.default ()) (.array [.null, .bool true])
    (hthroughout trivial trivial trivial) (hthroughout trivial trivial hfits)).1

end Act

end LuaData
