import Mathlib.Data.List.DropRight
import Mathlib.Data.List.GetD
import LuaData.Proofs.Doubles
import LuaData.Proofs.Integers
import LuaData.Proofs.Members
import LuaData.Proofs.Texts

/-!
# Normal forms of JSON values

A table has no place for null, and it does not tell an array from an object unless its keys do.
`Json.normalize` is what is left of a JSON value when it is stored in tables and read again: nulls
are dropped where nothing comes after them, an array with a null before another item becomes an
object of its positions, and an object without members an array. `normalize_normalize` says that
there is nothing more to drop.
-/

namespace LuaData.Json

/-- What holds of a value if it holds of its items and of its members holds of all values. -/
@[elab_as_elim]
theorem induction {P : Json → Prop} (null : P .null) (bool : ∀ b, P (.bool b))
    (int : ∀ i, P (.int i)) (float : ∀ x, P (.float x)) (string : ∀ text, P (.string text))
    (array : ∀ items, (∀ j ∈ items, P j) → P (.array items))
    (object : ∀ members, (∀ m ∈ members, P m.2) → P (.object members)) (j : Json) : P j := by
  refine @Json.rec P (fun items ↦ ∀ j ∈ items, P j) (fun members ↦ ∀ m ∈ members, P m.2)
    (fun m ↦ P m.2) null bool int float string array object ?_ ?_ ?_ ?_ ?_ j
  · exact nofun
  · intro j items hj hitems k hk
    rcases List.mem_cons.mp hk with rfl | hk
    · exact hj
    · exact hitems k hk
  · exact nofun
  · intro m members hm hmembers n hn
    rcases List.mem_cons.mp hn with rfl | hn
    · exact hm
    · exact hmembers n hn
  · exact fun _ _ h ↦ h

/-! ## The parts of a value -/

/-- A value that is or occurs in another. -/
inductive Part : Json → Json → Prop
  | refl (j : Json) : Part j j
  | item {j k : Json} {items : List Json} (h : Part k j) (hj : j ∈ items) : Part k (.array items)
  | member {k : Json} {m : List Char × Json} {members : List (List Char × Json)} (h : Part k m.2)
      (hm : m ∈ members) : Part k (.object members)

/-- A property of a value and of all values in it. -/
def Throughout (P : Json → Prop) (j : Json) : Prop :=
  ∀ k, Part k j → P k

namespace Throughout

variable {P : Json → Prop} {j : Json}

/-- The property holds of the value itself. -/
theorem self (h : j.Throughout P) : P j :=
  h j (.refl j)

/-- The property holds throughout the items of an array. -/
theorem item {items : List Json} (h : (array items).Throughout P) (hj : j ∈ items) :
    j.Throughout P :=
  fun k hk ↦ h k (.item hk hj)

/-- The property holds throughout the members of an object. -/
theorem member {members : List (List Char × Json)} {m : List Char × Json}
    (h : (object members).Throughout P) (hm : m ∈ members) : m.2.Throughout P :=
  fun k hk ↦ h k (.member hk hm)

/-- A property holds throughout a value without parts if it holds of the value. -/
theorem atom (harray : ∀ items, j ≠ .array items) (hobject : ∀ members, j ≠ .object members)
    (hself : P j) : j.Throughout P := by
  intro k hk
  cases hk with
  | refl => exact hself
  | item => exact absurd rfl (harray _)
  | member => exact absurd rfl (hobject _)

/-- A property holds throughout an array of which it holds if it holds throughout the items. -/
theorem array {items : List Json} (hself : P (.array items)) (h : ∀ j ∈ items, j.Throughout P) :
    (Json.array items).Throughout P := by
  intro k hk
  cases hk with
  | refl => exact hself
  | item hk hj => exact h _ hj k hk

/-- A property holds throughout an object of which it holds if it holds throughout the members. -/
theorem object {members : List (List Char × Json)} (hself : P (.object members))
    (h : ∀ m ∈ members, m.2.Throughout P) : (Json.object members).Throughout P := by
  intro k hk
  cases hk with
  | refl => exact hself
  | member hk hm => exact h _ hm k hk

end Throughout

/-! ## The normal form -/

/-- The value is null. -/
def isNull : Json → Bool
  | .null => true
  | _ => false

/-- The items up to the last one that is not null. -/
def trimNulls (items : List Json) : List Json :=
  items.rdropWhile isNull

/-- The item at an index, and null where there is none. -/
def itemAt (items : List Json) (i : Nat) : Json :=
  items.getD i .null

/-- The items that are not null, each under its position in decimal; positions start at one. -/
def numbered (items : List Json) : List (List Char × Json) :=
  (List.range items.length).filterMap fun i ↦
    if (itemAt items i).isNull then none else some (decimalDigits (i + 1), itemAt items i)

/-- The form of an array with the given items: nulls at the end are dropped, and if another null is
left, then the rest is an object. -/
def ofItems (items : List Json) : Json :=
  if (trimNulls items).any isNull then .object (ofMembers (numbered (trimNulls items)))
  else .array (trimNulls items)

/-- The form of an object with the given members: null members are dropped, and if no other is
left, then the rest is an array. -/
def ofRecord (members : List (List Char × Json)) : Json :=
  let kept := members.filter fun m ↦ !m.2.isNull
  if kept.isEmpty then .array [] else .object kept

mutual

/-- The normal form of a value for integers of a width. -/
def normalize (width : Width) : Json → Json
  | .null => .null
  | .bool b => .bool b
  | .int i =>
    match Double.int64? i with
    | some k => .int (width.wrap k).toInt
    | none => .float (Double.ofInt i)
  | .float x => .float x
  | .string text => .string text
  | .array items => ofItems (normalizeItems width items)
  | .object members => ofRecord (normalizeMembers width members)

/-- The normal forms of items. -/
def normalizeItems (width : Width) : List Json → List Json
  | [] => []
  | j :: rest => normalize width j :: normalizeItems width rest

/-- The members with their values in normal form. -/
def normalizeMembers (width : Width) : List (List Char × Json) → List (List Char × Json)
  | [] => []
  | (key, j) :: rest => (key, normalize width j) :: normalizeMembers width rest

end

variable {width : Width} {j : Json} {items : List Json} {members : List (List Char × Json)}

/-- Items are brought into normal form one by one. -/
theorem normalizeItems_eq_map (width : Width) (items : List Json) :
    normalizeItems width items = items.map (normalize width) := by
  induction items with
  | nil => rfl
  | cons j rest ih => rw [normalizeItems, ih, List.map_cons]

/-- Members are brought into normal form one by one. -/
theorem normalizeMembers_eq_map (width : Width) (members : List (List Char × Json)) :
    normalizeMembers width members = members.map fun m ↦ (m.1, normalize width m.2) := by
  induction members with
  | nil => rfl
  | cons m rest ih => rw [normalizeMembers, ih, List.map_cons]

/-! ## Positions -/

/-- Only null is null. -/
theorem isNull_iff : j.isNull = true ↔ j = .null := by
  cases j <;> simp [isNull]

/-- There is an item at each index within the array. -/
theorem itemAt_mem {i : Nat} (h : i < items.length) : itemAt items i ∈ items := by
  rw [itemAt, List.getD_eq_getElem _ _ h]
  exact List.getElem_mem h

/-- After the last item there is null. -/
theorem itemAt_of_le {i : Nat} (h : items.length ≤ i) : itemAt items i = .null :=
  List.getD_eq_default _ _ h

/-- An index at which there is something else than null is within the array. -/
theorem lt_length_of_itemAt {i : Nat} (h : (itemAt items i).isNull = false) : i < items.length := by
  by_contra hge
  rw [itemAt_of_le (Nat.le_of_not_lt hge)] at h
  cases h

/-- Dropping nulls at the end changes the item at no index. -/
theorem itemAt_trimNulls (items : List Json) (i : Nat) :
    itemAt (trimNulls items) i = itemAt items i := by
  have hsplit : trimNulls items ++ items.rtakeWhile isNull = items :=
    List.rdropWhile_append_rtakeWhile ..
  rcases Nat.lt_or_ge i (trimNulls items).length with hlt | hge
  · rw [itemAt, itemAt, ← List.getD_append _ (items.rtakeWhile isNull) _ _ hlt, hsplit]
  · have hnull : itemAt items i = .null := by
      rcases Nat.lt_or_ge i items.length with hlt | hge'
      · have hlt' : i - (trimNulls items).length < (items.rtakeWhile isNull).length := by
          have := congrArg List.length hsplit
          rw [List.length_append] at this
          omega
        have hmem := itemAt_mem hlt'
        rw [itemAt, ← List.getD_append_right _ _ _ _ hge, hsplit] at hmem
        exact isNull_iff.mp (List.mem_rtakeWhile_imp hmem)
      · exact itemAt_of_le hge'
    rw [hnull, itemAt_of_le hge]

/-- The last item that is left is not null. -/
theorem isNull_last_trimNulls (h : trimNulls items ≠ []) :
    (itemAt (trimNulls items) ((trimNulls items).length - 1)).isNull = false := by
  have hpos := List.length_pos_iff.mpr h
  have hlast : ((trimNulls items).getLast h).isNull ≠ true :=
    List.rdropWhile_last_not isNull items h
  rw [List.getLast_eq_getElem] at hlast
  rw [itemAt, List.getD_eq_getElem _ _ (by omega)]
  exact Bool.eq_false_iff.mpr hlast

/-- A list of items is read off its indices. -/
theorem map_itemAt_range (items : List Json) :
    (List.range items.length).map (itemAt items) = items := by
  refine List.ext_getElem (by simp) fun i hi hi' ↦ ?_
  rw [List.getElem_map, List.getElem_range, itemAt, List.getD_eq_getElem _ _ hi']

/-- The numbered items are those at the indices where there is not null. -/
theorem mem_numbered_iff {m : List Char × Json} :
    m ∈ numbered items ↔
      ∃ i, (itemAt items i).isNull = false ∧ m = (decimalDigits (i + 1), itemAt items i) := by
  unfold numbered
  rw [List.mem_filterMap]
  constructor
  · intro h
    obtain ⟨i, -, hm⟩ := h
    split at hm
    · cases hm
    · rename_i hnull
      exact ⟨i, Bool.eq_false_iff.mpr hnull, (Option.some.inj hm).symm⟩
  · intro h
    obtain ⟨i, hnull, rfl⟩ := h
    refine ⟨i, List.mem_range.mpr (lt_length_of_itemAt hnull), ?_⟩
    rw [if_neg (Bool.eq_false_iff.mp hnull)]

/-- There is a numbered item for each item that is not null. -/
theorem length_numbered (items : List Json) :
    (numbered items).length = items.countP fun j ↦ !j.isNull := by
  conv_rhs => rw [← map_itemAt_range items, List.countP_map]
  rw [numbered, List.length_filterMap_eq_countP]
  refine List.countP_congr fun i _ ↦ ?_
  show (if (itemAt items i).isNull then none
    else some _ : Option (List Char × Json)).isSome = true ↔ (!(itemAt items i).isNull) = true
  cases (itemAt items i).isNull <;> simp

/-- The numbers of items are different. -/
theorem numbered_pairwise (items : List Json) :
    (numbered items).Pairwise fun m n ↦ m.1 ≠ n.1 := by
  unfold numbered
  rw [List.pairwise_filterMap]
  refine List.pairwise_lt_range.imp fun {i k} hlt m hm n hn heq ↦ ?_
  split at hm
  · cases hm
  split at hn
  · cases hn
  cases hm
  cases hn
  have := decimalDigits_injective heq
  omega

/-! ## Normal forms are their own normal forms -/

/-- An array is not null. -/
theorem isNull_ofItems (items : List Json) : (ofItems items).isNull = false := by
  unfold ofItems
  split <;> rfl

/-- An object is not null. -/
theorem isNull_ofRecord (members : List (List Char × Json)) :
    (ofRecord members).isNull = false := by
  unfold ofRecord
  dsimp only
  split <;> rfl

/-- Nothing becomes null or ceases to be null. -/
theorem isNull_normalize (width : Width) (j : Json) : (normalize width j).isNull = j.isNull := by
  cases j with
  | int i =>
    rw [normalize]
    split <;> rfl
  | array items =>
    rw [normalize, isNull_ofItems]
    rfl
  | object members =>
    rw [normalize, isNull_ofRecord]
    rfl
  | _ => rw [normalize]

/-- The normal form of the item at an index. -/
theorem itemAt_map_normalize (width : Width) (items : List Json) (i : Nat) :
    itemAt (items.map (normalize width)) i = normalize width (itemAt items i) := by
  rcases Nat.lt_or_ge i items.length with hlt | hge
  · rw [itemAt, itemAt, List.getD_eq_getElem _ _ hlt, List.getD_eq_getElem _ _ (by simpa using hlt),
      List.getElem_map]
  · rw [itemAt_of_le hge, itemAt_of_le (by simpa using hge), normalize]

/-- The nulls of normal forms are the nulls. -/
theorem isNull_comp_normalize (width : Width) : isNull ∘ normalize width = isNull :=
  funext (isNull_normalize width)

/-- Nulls at the end are dropped before or after the items are brought into normal form. -/
theorem trimNulls_map_normalize (width : Width) (items : List Json) :
    trimNulls (items.map (normalize width)) = (trimNulls items).map (normalize width) := by
  rw [trimNulls, trimNulls, List.rdropWhile, List.rdropWhile, ← List.map_reverse,
    List.dropWhile_map, isNull_comp_normalize, List.map_reverse]

/-- Items in normal form of which none is null are an array in normal form. -/
theorem normalize_array (hfixed : ∀ j ∈ items, normalize width j = j)
    (hnull : items.any isNull = false) : normalize width (.array items) = .array items := by
  have htrim : trimNulls items = items := by
    refine List.rdropWhile_eq_self_iff.mpr fun hne ↦ ?_
    exact List.any_eq_false.mp hnull _ (List.getLast_mem hne)
  rw [normalize, normalizeItems_eq_map, List.map_congr_left hfixed, List.map_id', ofItems, htrim,
    if_neg (by rw [hnull]; exact Bool.false_ne_true)]

/-- Members in normal form of which none is null are an object in normal form. -/
theorem normalize_object (hne : members ≠ [])
    (hfixed : ∀ m ∈ members, normalize width m.2 = m.2 ∧ m.2.isNull = false) :
    normalize width (.object members) = .object members := by
  have hmap : members.map (fun m ↦ (m.1, normalize width m.2)) = members.map id := by
    refine List.map_congr_left fun m hm ↦ ?_
    rw [(hfixed m hm).1]
    rfl
  have hkept : members.filter (fun m ↦ !m.2.isNull) = members := by
    refine List.filter_eq_self.mpr fun m hm ↦ ?_
    rw [(hfixed m hm).2]
    rfl
  rw [normalize, normalizeMembers_eq_map, hmap, List.map_id, ofRecord, hkept,
    if_neg (by simpa using hne)]

/-- A second time there is nothing to do. -/
theorem normalize_normalize (width : Width) (j : Json) :
    normalize width (normalize width j) = normalize width j := by
  induction j using Json.induction with
  | null => rfl
  | bool b => rfl
  | float x => rfl
  | string text => rfl
  | int i =>
    rw [normalize]
    cases hi : Double.int64? i with
    | none => rfl
    | some k =>
      have hwrapped : Double.int64? (width.wrap k).toInt = some (width.wrap k) :=
        Double.int64?_eq_some_iff.mpr rfl
      show normalize width (.int (width.wrap k).toInt) = .int (width.wrap k).toInt
      rw [normalize, hwrapped]
      show Json.int (width.wrap (width.wrap k)).toInt = _
      rw [Width.wrap_wrap]
  | array items ih =>
    rw [normalize, normalizeItems_eq_map]
    have hfixed : ∀ j ∈ trimNulls (items.map (normalize width)), normalize width j = j := by
      intro j hj
      have hmem := (List.rdropWhile_prefix isNull (items.map (normalize width))).subset hj
      obtain ⟨k, hk, rfl⟩ := List.mem_map.mp hmem
      exact ih k hk
    generalize items.map (normalize width) = all at hfixed
    unfold ofItems
    split
    · rename_i hnull
      have hne : trimNulls all ≠ [] := by
        intro hnil
        rw [hnil] at hnull
        cases hnull
      -- The last item is a member of the object.
      have hlast := mem_numbered_iff.mpr ⟨_, isNull_last_trimNulls hne, rfl⟩
      have hlast' := (mem_ofMembers_iff (numbered_pairwise _) _).mpr hlast
      refine normalize_object (List.ne_nil_of_mem hlast') fun m hm ↦ ?_
      obtain ⟨i, hi, rfl⟩ := mem_numbered_iff.mp (mem_of_mem_ofMembers hm)
      exact ⟨hfixed _ (itemAt_mem (lt_length_of_itemAt hi)), hi⟩
    · rename_i hnull
      exact normalize_array hfixed (Bool.eq_false_iff.mpr hnull)
  | object members ih =>
    rw [normalize, normalizeMembers_eq_map]
    have hfixed : ∀ m ∈ (members.map fun m ↦ (m.1, normalize width m.2)).filter
        (fun m ↦ !m.2.isNull), normalize width m.2 = m.2 ∧ m.2.isNull = false := by
      intro m hm
      obtain ⟨hmem, hnull⟩ := List.mem_filter.mp hm
      obtain ⟨n, hn, rfl⟩ := List.mem_map.mp hmem
      exact ⟨ih n hn, by simpa using hnull⟩
    unfold ofRecord
    dsimp only
    split
    · exact normalize_array nofun rfl
    · rename_i hne
      exact normalize_object (by simpa using hne) hfixed

/-! ## Properties of normal forms -/

namespace Throughout

variable {P : Json → Prop}

/-- A property holds throughout the form of an array if it holds throughout the items. -/
theorem ofItems (hself : P (ofItems items)) (h : ∀ j ∈ items, j.Throughout P) :
    (Json.ofItems items).Throughout P := by
  have hsubset : trimNulls items ⊆ items := (List.rdropWhile_prefix isNull items).subset
  unfold Json.ofItems at hself ⊢
  split
  · rename_i hnull
    rw [if_pos hnull] at hself
    refine .object hself fun m hm ↦ ?_
    obtain ⟨i, hi, rfl⟩ := mem_numbered_iff.mp (mem_of_mem_ofMembers hm)
    exact h _ (hsubset (itemAt_mem (lt_length_of_itemAt hi)))
  · rename_i hnull
    rw [if_neg hnull] at hself
    exact .array hself fun j hj ↦ h j (hsubset hj)

/-- A property holds throughout the form of an object if it holds throughout the members. -/
theorem ofRecord (hself : P (ofRecord members)) (h : ∀ m ∈ members, m.2.Throughout P) :
    (Json.ofRecord members).Throughout P := by
  unfold Json.ofRecord at hself ⊢
  dsimp only at hself ⊢
  split
  · rename_i hempty
    rw [if_pos hempty] at hself
    exact .array hself nofun
  · rename_i hempty
    rw [if_neg hempty] at hself
    exact .object hself fun m hm ↦ h m (List.mem_filter.mp hm).1

/-- A property that the parts of a normal form keep holds throughout the normal form. -/
theorem normalize (hint : ∀ k : Int64, P (.int k.toInt))
    (hlarge : ∀ i, Double.int64? i = none → P (.int i) → P (.float (Double.ofInt i)))
    (harray : ∀ items, P (.array items) → P (Json.ofItems (items.map (Json.normalize width))))
    (hobject : ∀ members, P (.object members) →
      P (Json.ofRecord (members.map fun m ↦ (m.1, Json.normalize width m.2))))
    (h : j.Throughout P) : (j.normalize width).Throughout P := by
  induction j using Json.induction with
  | int i =>
    rw [Json.normalize]
    split
    · exact .atom nofun nofun (hint _)
    · rename_i hi
      exact .atom nofun nofun (hlarge i hi h.self)
  | array items ih =>
    rw [Json.normalize, normalizeItems_eq_map]
    refine .ofItems (harray items h.self) fun j hj ↦ ?_
    obtain ⟨k, hk, rfl⟩ := List.mem_map.mp hj
    exact ih k hk (h.item hk)
  | object members ih =>
    rw [Json.normalize, normalizeMembers_eq_map]
    refine .ofRecord (hobject members h.self) fun m hm ↦ ?_
    obtain ⟨n, hn, rfl⟩ := List.mem_map.mp hm
    exact ih n hn (h.member hn)
  | _ => 
    rw [Json.normalize]
    exact h

end Throughout

end LuaData.Json
