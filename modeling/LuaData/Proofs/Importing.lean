import Mathlib.Data.List.Forall2
import LuaData.Proofs.Filling
import LuaData.Proofs.Interning
import LuaData.Proofs.NormalForm

/-!
# Importing JSON values

`Loaded` says when a value of an instance stands for a JSON value: items are the values of the keys
`1, 2, …` of a table and members those of string keys, null is nil, and there are no other keys.
Cells are only added to the heap, so what has been loaded stays loaded. `Act.ofJson_loaded` says
that every value can be loaded, in whatever state, unless it is too large for the tables.
-/

namespace LuaData

namespace Json

/-- What the numbers and objects of a JSON value are: integers of 64 bits, signed or not, finite
doubles, and members in the order of their keys. -/
def Proper : Json → Prop
  | .int i => -(2 ^ 63) ≤ i ∧ i < 2 ^ 64
  | .float x => x.isFinite = true
  | .object members => Sorted members
  | _ => True

/-- A table can take the items or the members. Only `2 ^ 30` keys can be in a hash part that grows,
which are needed where null stands before another item; and there are `2 ^ 32` names for slots. -/
def Fits : Json → Prop
  | .array items => items.length ≤ 2 ^ 62 ∧
    ((trimNulls items).any isNull = true → (items.countP fun j ↦ !j.isNull) ≤ 2 ^ 30)
  | .object members => members.length ≤ 2 ^ 32
  | _ => True

end Json

/-! ## Growing heaps -/

/-- A new table is found in its cell. -/
theorem Heap.table?_allocate (h : Heap) (t : Table) :
    (h.allocate (.table t)).table? h.fresh = some t := by
  rw [Heap.table?, Heap.cell?_allocate, if_pos rfl]

/-- Cells have been added to a heap. -/
structure Heap.Grows (h g : Heap) : Prop where
  fresh_le : h.fresh ≤ g.fresh
  old : ∀ r < h.fresh, g.cell? r = h.cell? r

namespace Heap.Grows

variable {h g k : Heap} {r : Ref} {t : Table}

/-- Nothing has been added. -/
theorem refl (h : Heap) : h.Grows h :=
  ⟨Nat.le_refl _, fun _ _ ↦ rfl⟩

/-- One after the other. -/
theorem trans (hg : h.Grows g) (hk : g.Grows k) : h.Grows k :=
  ⟨hg.fresh_le.trans hk.fresh_le, fun r hr ↦
    (hk.old r (Nat.lt_of_lt_of_le hr hg.fresh_le)).trans (hg.old r hr)⟩

/-- A new cell is added. -/
theorem allocate (h : Heap) (cell : Cell) : h.Grows (h.allocate cell) := by
  refine ⟨?_, fun r hr ↦ ?_⟩
  · show h.cells.size ≤ (h.cells.push _).size
    rw [Array.size_push]
    exact Nat.le_succ _
  · rw [cell?_allocate, if_neg (Nat.ne_of_lt hr)]

/-- It is a later moment. -/
theorem moment_le (hg : h.Grows g) : h.moment ≤ g.moment := by
  refine ⟨hg.fresh_le, fun r hr halive ↦ ?_⟩
  show (h.cell? r).isSome = true
  rw [← hg.old r hr]
  exact halive

/-- Tables are where they were. -/
theorem table? (hg : h.Grows g) (ht : h.table? r = some t) : g.table? r = some t := by
  have hcell := cell?_of_table? ht
  rw [Heap.table?, hg.old r (lt_fresh_of_cell? hcell), hcell]

end Heap.Grows

/-- Cells have been added to the heap of an instance, which has its options. -/
structure State.Extends {σ : Type} (s s' : State σ) : Prop where
  heap : s.heap.Grows s'.heap
  options : s'.options = s.options

/-- One after the other. -/
theorem State.Extends.trans {σ : Type} {s s' s'' : State σ} (h : s.Extends s')
    (h' : s'.Extends s'') : s.Extends s'' :=
  ⟨h.heap.trans h'.heap, h'.options.trans h.options⟩

/-- Where no null is left when those at the end are dropped, only nulls come after a null. -/
theorem Json.pairwise_isNull {items : List Json} (h : (trimNulls items).any isNull = false) :
    items.Pairwise fun j k ↦ j.isNull = true → k.isNull = true := by
  have hsplit : trimNulls items ++ items.rtakeWhile isNull = items :=
    List.rdropWhile_append_rtakeWhile ..
  rw [← hsplit, List.pairwise_append]
  refine ⟨?_, ?_, fun j _ k hk _ ↦ List.mem_rtakeWhile_imp hk⟩
  · refine List.pairwise_of_forall_mem_list fun j hj k _ hnull ↦ ?_
    exact absurd hnull (List.any_eq_false.mp h j hj)
  · exact List.pairwise_of_forall_mem_list fun j _ k hk _ ↦ List.mem_rtakeWhile_imp hk

/-! ## Loaded values -/

/-- What corresponds to a member of a list, one by one, corresponds to a member. -/
theorem exists_of_forall₂ {α β : Type} {R : α → β → Prop} {l : List α} {l' : List β}
    (h : List.Forall₂ R l l') {b : β} (hb : b ∈ l') : ∃ a ∈ l, R a b := by
  induction h with
  | nil => cases hb
  | cons hab _ ih =>
    rcases List.mem_cons.mp hb with rfl | hb
    · exact ⟨_, List.mem_cons_self, hab⟩
    · obtain ⟨a, ha, hR⟩ := ih hb
      exact ⟨a, List.mem_cons_of_mem _ ha, hR⟩

variable [Hashing]

/-- The value stands for a JSON value, with integers of a width. -/
inductive Loaded (width : Width) (h : Heap) : Json → Value → Prop
  | null : Loaded width h .null .nil
  | bool (b : Bool) : Loaded width h (.bool b) (.bool b)
  | int {i : Int} {k : Int64} (hi : Double.int64? i = some k) :
      Loaded width h (.int i) (.int (width.wrap k))
  /-- An integer beyond 64 bits with a sign is a double. -/
  | large {i : Int} (hi : Double.int64? i = none) :
      Loaded width h (.int i) (.float (Double.ofInt i))
  | float (x : Double) : Loaded width h (.float x) (.float x)
  | string {text : List Char} {str : Str} (hbytes : str.bytes = Utf8.encode text)
      (hcell : str.cell < h.fresh) : Loaded width h (.string text) (.str str)
  | array {items : List Json} {r : Ref} {t : Table} (ht : h.table? r = some t)
      (hplain : t.Plain Value.hash h.moment) (hsize : t.array.size ≤ 2 ^ 62)
      (hlength : items.length ≤ 2 ^ 62)
      (hitems : ∀ i < items.length, Loaded width h (Json.itemAt items i)
        (t.valueOf Value.hash (.int (Int64.ofNat (i + 1)))))
      (honly : ∀ key, t.valueOf Value.hash key ≠ .nil →
        ∃ i < items.length, key.normal? = some (.int (Int64.ofNat (i + 1)))) :
      Loaded width h (.array items) (.table r)
  | object {members : List (List Char × Json)} {r : Ref} {t : Table} (ht : h.table? r = some t)
      (hplain : t.Plain Value.hash h.moment) (hsize : t.array.size ≤ 2 ^ 62)
      (hmembers : ∀ m ∈ members,
        Loaded width h m.2 (t.valueOf Value.hash (.str ⟨Utf8.encode m.1, 0⟩)))
      (honly : ∀ key, t.valueOf Value.hash key ≠ .nil →
        ∃ m ∈ members, key.normal? = some (.str ⟨Utf8.encode m.1, 0⟩)) :
      Loaded width h (.object members) (.table r)

namespace Loaded

variable {width : Width} {h g : Heap} {j : Json} {v : Value}

/-- What has been loaded stays loaded. -/
theorem grows (hv : Loaded width h j v) (hg : h.Grows g) : Loaded width g j v := by
  induction hv with
  | null => exact .null
  | bool b => exact .bool b
  | int hi => exact .int hi
  | large hi => exact .large hi
  | float x => exact .float x
  | string hbytes hcell => exact .string hbytes (Nat.lt_of_lt_of_le hcell hg.fresh_le)
  | array ht hplain hsize hlength _ honly ih =>
    exact .array (hg.table? ht) (hplain.later hg.moment_le) hsize hlength ih honly
  | object ht hplain hsize _ honly ih =>
    exact .object (hg.table? ht) (hplain.later hg.moment_le) hsize ih honly

/-- The cell of a loaded value has been named. -/
theorem named (hv : Loaded width h j v) : v.Named h.fresh := by
  have htable : ∀ {r : Ref} {t : Table}, h.table? r = some t → Value.Named h.fresh (.table r) := by
    intro r t ht q hq
    rw [← Option.some.inj hq]
    exact Heap.lt_fresh_of_cell? (Heap.cell?_of_table? ht)
  cases hv with
  | string _ hcell =>
    intro r hr
    rw [← Option.some.inj hr]
    exact hcell
  | array ht => exact htable ht
  | object ht => exact htable ht
  | _ => exact nofun

/-- Null is nil. -/
theorem isNil_eq (hv : Loaded width h j v) : v.isNil = j.isNull := by
  cases hv <;> rfl

/-- The nulls among items are nil. -/
theorem map_isNil {items : List Json} {values : List Value}
    (h : List.Forall₂ (Loaded width h) items values) :
    values.map Value.isNil = items.map Json.isNull := by
  induction h with
  | nil => rfl
  | cons hv _ ih => rw [List.map_cons, List.map_cons, hv.isNil_eq, ih]

/-- The cells of loaded items have been named. -/
theorem all_named {items : List Json} {values : List Value}
    (hvalues : List.Forall₂ (Loaded width h) items values) (hv : v ∈ values) : v.Named h.fresh := by
  obtain ⟨j, -, hj⟩ := exists_of_forall₂ hvalues hv
  exact hj.named

end Loaded

/-! ## The actions of an import -/

namespace Act

variable {σ : Type}

/-- A string is made. -/
theorem createString_apply (bytes : Bytes) (s : State σ) :
    ∃ str s', createString bytes s = (.ok (.str str), s') ∧ s.Extends s' ∧ str.bytes = bytes ∧
      str.cell < s'.heap.fresh := by
  obtain ⟨hbytes, hcell⟩ :=
    Interner.intern_spec Hashing.bytes s.heap.alive s.heap.fresh bytes s.interner
  unfold createString
  rw [bind_apply, get_apply]
  dsimp only
  generalize s.interner.intern Hashing.bytes s.heap.alive s.heap.fresh bytes = result
    at hbytes hcell
  obtain ⟨str, interner⟩ := result
  dsimp only at hbytes hcell ⊢
  split
  · rename_i hfresh
    refine ⟨str, { s with heap := s.heap.allocate .text, interner }, rfl,
      ⟨.allocate _ _, rfl⟩, hbytes, ?_⟩
    show str.cell < (s.heap.cells.push _).size
    rw [Array.size_push, hfresh]
    exact Nat.lt_succ_self _
  · rename_i hfresh
    refine ⟨str, { s with interner }, rfl, ⟨.refl _, rfl⟩, hbytes, ?_⟩
    obtain ⟨cell, hcell'⟩ := Option.isSome_iff_exists.mp (hcell.resolve_left hfresh)
    exact Heap.lt_fresh_of_cell? hcell'

/-- A table is made if its entries can be stored. -/
theorem tableOf_apply {s : State σ} {hint : Nat} {entries : List (Value × Value)} {t : Table}
    (h : (Table.withHashSize hint).setAll s.context entries = .ok t) :
    tableOf hint entries s =
      (.ok (.table s.heap.fresh), { s with heap := s.heap.allocate (.table t) }) := by
  have hfold := foldlM_lift_apply (fun t (e : Value × Value) ↦ t.set s.context e.1 e.2) entries
    (Table.withHashSize hint) s
  have hall : entries.foldlM (fun t (e : Value × Value) ↦ t.set s.context e.1 e.2)
    (Table.withHashSize hint) = .ok t := h
  rw [hall] at hfold
  unfold tableOf
  rw [bind_apply, get_apply]
  show (entries.foldlM (fun t e ↦ (liftM (t.set s.context e.1 e.2) : Act σ Table))
    (Table.withHashSize hint) >>= fun t ↦ allocate (.table t) >>= fun r ↦ pure (.table r) :
    Act σ Value) s = _
  rw [bind_apply, hfold]
  rfl

/-! ## Imports -/

/-- The value of a JSON value is loaded when the action is over. -/
def Loads (σ : Type) (j : Json) : Prop :=
  ∀ s : State σ, ∃ v s', ofJson j s = (.ok v, s') ∧ s.Extends s' ∧
    Loaded s.options.integerWidth s'.heap j v

/-- The items of an array are loaded one after the other. -/
theorem ofItems_loaded {items : List Json} (h : ∀ j ∈ items, Loads σ j) (i : Nat)
    (s : State σ) :
    ∃ values s', ofItems i items s = (.ok (Table.listEntries i values), s') ∧ s.Extends s' ∧
      List.Forall₂ (Loaded s.options.integerWidth s'.heap) items values := by
  induction items generalizing i s with
  | nil => exact ⟨[], s, rfl, ⟨.refl _, rfl⟩, .nil⟩
  | cons j rest ih =>
    obtain ⟨v, s₁, hv, hs₁, hloaded⟩ := h j List.mem_cons_self s
    obtain ⟨values, s₂, hvalues, hs₂, hall⟩ :=
      ih (fun k hk ↦ h k (List.mem_cons_of_mem _ hk)) (i + 1) s₁
    refine ⟨v :: values, s₂, ?_, hs₁.trans hs₂, .cons (hloaded.grows hs₂.heap) ?_⟩
    · rw [ofItems, bind_apply, hv]
      show (ofItems (i + 1) rest >>= fun entries ↦ pure ((.int (Int64.ofNat i), v) :: entries) :
        Act σ (List (Value × Value))) s₁ = _
      rw [bind_apply, hvalues]
      rfl
    · rw [← hs₁.options]
      exact hall

/-- The member of an object is loaded as an entry. -/
structure LoadedMember (width : Width) (h : Heap) (m : List Char × Json) (e : Value × Value) :
    Prop where
  key : ∃ str : Str, e.1 = .str str ∧ str.bytes = Utf8.encode m.1 ∧ str.cell < h.fresh
  value : Loaded width h m.2 e.2

/-- The key of a loaded member is addressed by the bytes of its text. -/
theorem LoadedMember.normal?_key {width : Width} {h : Heap} {m : List Char × Json}
    {e : Value × Value} (hm : LoadedMember width h m e) :
    e.1.normal? = some (.str ⟨Utf8.encode m.1, 0⟩) := by
  obtain ⟨str, hkey, hbytes, -⟩ := hm.key
  rw [hkey, ← hbytes]
  rfl

/-- The members of an object are loaded one after the other. -/
theorem ofMembers_loaded {members : List (List Char × Json)}
    (h : ∀ m ∈ members, Loads σ m.2) (s : State σ) :
    ∃ entries s', ofMembers members s = (.ok entries, s') ∧ s.Extends s' ∧
      List.Forall₂ (LoadedMember s.options.integerWidth s'.heap) members entries := by
  induction members generalizing s with
  | nil => exact ⟨[], s, rfl, ⟨.refl _, rfl⟩, .nil⟩
  | cons m rest ih =>
    obtain ⟨key, j⟩ := m
    obtain ⟨str, s₁, hstr, hs₁, hbytes, hcell⟩ := createString_apply (Utf8.encode key) s
    obtain ⟨v, s₂, hv, hs₂, hloaded⟩ := h (key, j) List.mem_cons_self s₁
    obtain ⟨entries, s₃, hentries, hs₃, hall⟩ :=
      ih (fun k hk ↦ h k (List.mem_cons_of_mem _ hk)) s₂
    have hgrows := hs₂.heap.trans hs₃.heap
    refine ⟨(.str str, v) :: entries, s₃, ?_, hs₁.trans (hs₂.trans hs₃), .cons ⟨?_, ?_⟩ ?_⟩
    · rw [ofMembers, bind_apply, hstr]
      show (ofJson j >>= fun value ↦ ofMembers rest >>= fun entries ↦
        pure ((.str str, value) :: entries) : Act σ (List (Value × Value))) s₁ = _
      rw [bind_apply, hv]
      show (ofMembers rest >>= fun entries ↦ pure ((.str str, v) :: entries) :
        Act σ (List (Value × Value))) s₂ = _
      rw [bind_apply, hentries]
      rfl
    · exact ⟨str, rfl, hbytes, Nat.lt_of_lt_of_le hcell hgrows.fresh_le⟩
    · rw [← hs₁.options]
      exact hloaded.grows hs₃.heap
    · rw [← hs₁.options, ← hs₂.options]
      exact hall

/-- The items of an array are stored in a table. -/
theorem loaded_array {s : State σ} {width : Width} {items : List Json} {values : List Value}
    (hloaded : List.Forall₂ (Loaded width s.heap) items values) (hfits : (Json.array items).Fits) :
    ∃ v s', tableOf 0 (Table.listEntries 1 values) s = (.ok v, s') ∧ s.Extends s' ∧
      Loaded width s'.heap (.array items) v := by
  have hlength := hloaded.length_eq
  have hnil := Loaded.map_isNil hloaded
  have hnamed : ∀ v ∈ values, v.Named s.heap.fresh := fun v hv ↦ Loaded.all_named hloaded hv
  obtain ⟨hlarge, hholes⟩ := hfits
  obtain ⟨t, ht, hfilled, hsize⟩ : ∃ t, (Table.withHashSize 0).setAll
      (s.moment.context Value.hash) (Table.listEntries 1 values) = .ok t ∧
      Table.Filled Value.hash s.moment (Table.listEntries 1 values) t ∧ t.array.size ≤ 2 ^ 62 := by
    by_cases hnull : (Json.trimNulls items).any Json.isNull = true
    · refine Table.fill_holes Value.rawEq_hash (by omega) hnamed ?_
      have hcount : (values.map Value.isNil).countP (!·) = (items.map Json.isNull).countP (!·) := by
        rw [hnil]
      rw [List.countP_map, List.countP_map] at hcount
      rw [Table.filledCount_listEntries]
      exact (Nat.le_of_eq hcount).trans (hholes hnull)
    · refine Table.fill_list Value.rawEq_hash (by omega) hnamed ?_
      have hpairwise := Json.pairwise_isNull (Bool.eq_false_iff.mpr hnull)
      have hgap : (items.map Json.isNull).Pairwise fun a b ↦ a = true → b = true :=
        List.pairwise_map.mpr hpairwise
      rw [← hnil, List.pairwise_map] at hgap
      refine hgap.imp fun {v w} himp hv ↦ ?_
      have hw := himp (by rw [hv]; rfl)
      cases w <;> first | rfl | cases hw
  have hstorable := Table.storable_listEntries (by omega) hnamed
  have hplain := hfilled.plain.later (Heap.Grows.allocate s.heap (.table t)).moment_le
  refine ⟨_, _, tableOf_apply ht, ⟨.allocate _ _, rfl⟩,
    .array (Heap.table?_allocate _ _) hplain hsize hlarge (fun i hi ↦ ?_) fun key hkey ↦ ?_⟩
  · have hi' : i < values.length := hlength ▸ hi
    have hentry : (Value.int (Int64.ofNat (i + 1)), values.get ⟨i, hi'⟩) ∈
        Table.listEntries 1 values :=
      Table.mem_listEntries_iff.mpr ⟨i, List.getElem?_eq_getElem hi', rfl⟩
    rw [hfilled.valueOf_entry hstorable hentry, Json.itemAt, List.getD_eq_getElem _ _ hi]
    exact (hloaded.get hi hi').grows (.allocate _ _)
  · obtain ⟨e, he, hnormal, -⟩ := hfilled.exists_entry hstorable.stored hkey
    obtain ⟨i, hi, hint⟩ := Table.mem_listEntries_iff.mp he
    obtain ⟨hi', -⟩ := List.getElem?_eq_some_iff.mp hi
    rw [hint] at hnormal
    exact ⟨i, hlength ▸ hi', hnormal.symm⟩

/-- The keys of loaded members, as they address entries. -/
theorem map_normal?_of_loaded {width : Width} {h : Heap} {members : List (List Char × Json)}
    {entries : List (Value × Value)}
    (hloaded : List.Forall₂ (LoadedMember width h) members entries) :
    entries.map (fun e ↦ e.1.normal?) =
      members.map fun m ↦ some (.str ⟨Utf8.encode m.1, 0⟩) := by
  induction hloaded with
  | nil => rfl
  | cons hm _ ih =>
    rw [List.map_cons, List.map_cons, ih, hm.normal?_key]

/-- Members in order are loaded as entries that can be stored. -/
theorem storable_of_loaded {width : Width} {h : Heap} {members : List (List Char × Json)}
    {entries : List (Value × Value)}
    (hloaded : List.Forall₂ (LoadedMember width h) members entries)
    (hsorted : Json.Sorted members) : Table.Storable h.fresh entries where
  stored := fun e he ↦ by
    obtain ⟨m, -, hm⟩ := exists_of_forall₂ hloaded he
    obtain ⟨str, hkey, -⟩ := hm.key
    rw [hkey]
    rfl
  named := fun e he ↦ by
    obtain ⟨m, -, hm⟩ := exists_of_forall₂ hloaded he
    obtain ⟨str, hkey, -, hcell⟩ := hm.key
    refine ⟨fun r hr ↦ ?_, hm.value.named⟩
    rw [hkey] at hr
    rw [← Option.some.inj hr]
    exact hcell
  distinct := by
    have hkeys : (members.map fun m ↦ some (Value.str ⟨Utf8.encode m.1, 0⟩)).Pairwise (· ≠ ·) := by
      rw [List.pairwise_map]
      refine hsorted.ne.imp fun hne heq ↦ hne (Utf8.encode_injective ?_)
      simpa using heq
    rw [← map_normal?_of_loaded hloaded, List.pairwise_map] at hkeys
    exact hkeys

/-- The members of an object are stored in a table. -/
theorem loaded_object {s : State σ} {width : Width} {members : List (List Char × Json)}
    {entries : List (Value × Value)}
    (hloaded : List.Forall₂ (LoadedMember width s.heap) members entries)
    (hproper : (Json.object members).Proper) (hfits : (Json.object members).Fits) :
    ∃ v s', tableOf members.length entries s = (.ok v, s') ∧ s.Extends s' ∧
      Loaded width s'.heap (.object members) v := by
  have hlength := hloaded.length_eq
  have hstorable := storable_of_loaded hloaded hproper
  obtain ⟨t, ht, hfilled, hsize⟩ := Table.fill_record (m := s.moment) Value.rawEq_hash hstorable
    (fun e he k ↦ by
      obtain ⟨m, -, hm⟩ := exists_of_forall₂ hloaded he
      obtain ⟨str, hkey, -⟩ := hm.key
      rw [hkey]
      exact nofun) (hlength ▸ hfits)
  rw [← hlength] at ht
  have hplain := hfilled.plain.later (Heap.Grows.allocate s.heap (.table t)).moment_le
  refine ⟨_, _, tableOf_apply ht, ⟨.allocate _ _, rfl⟩,
    .object (Heap.table?_allocate _ _) hplain (by omega) (fun m hm ↦ ?_) fun key hkey ↦ ?_⟩
  · obtain ⟨e, he, hme⟩ := exists_of_forall₂ hloaded.flip hm
    have hvalue := hfilled.valueOf_entry hstorable he
    rw [hfilled.represents.values, Contents.get, hme.normal?_key] at hvalue
    rw [hfilled.represents.values]
    have hgoal : (Contents.ofEntries entries).get (.str ⟨Utf8.encode m.1, 0⟩) = e.2 := hvalue
    rw [hgoal]
    exact hme.value.grows (.allocate _ _)
  · obtain ⟨e, he, hnormal, -⟩ := hfilled.exists_entry hstorable.stored hkey
    obtain ⟨m, hm, hme⟩ := exists_of_forall₂ hloaded he
    rw [hme.normal?_key] at hnormal
    exact ⟨m, hm, hnormal.symm⟩

/-- Every value is imported if it is a proper one and not too large. -/
theorem ofJson_loaded (j : Json) (hproper : j.Throughout Json.Proper)
    (hfits : j.Throughout Json.Fits) : Loads σ j := by
  induction j using Json.induction with
  | null => exact fun s ↦ ⟨_, s, rfl, ⟨.refl _, rfl⟩, .null⟩
  | bool b => exact fun s ↦ ⟨_, s, rfl, ⟨.refl _, rfl⟩, .bool b⟩
  | float x => exact fun s ↦ ⟨_, s, rfl, ⟨.refl _, rfl⟩, .float x⟩
  | int i =>
    intro s
    rw [ofJson]
    cases hi : Double.int64? i with
    | some k => exact ⟨_, s, rfl, ⟨.refl _, rfl⟩, .int hi⟩
    | none => exact ⟨_, s, rfl, ⟨.refl _, rfl⟩, .large hi⟩
  | string text =>
    intro s
    obtain ⟨str, s', hstr, hs', hbytes, hcell⟩ := createString_apply (Utf8.encode text) s
    exact ⟨_, s', hstr, hs', .string hbytes hcell⟩
  | array items ih =>
    intro s
    obtain ⟨values, s₁, hvalues, hs₁, hall⟩ :=
      ofItems_loaded (fun j hj ↦ ih j hj (hproper.item hj) (hfits.item hj)) 1 s
    obtain ⟨v, s₂, hv, hs₂, hloaded⟩ := loaded_array hall hfits.self
    refine ⟨v, s₂, ?_, hs₁.trans hs₂, hloaded⟩
    rw [ofJson, bind_apply, hvalues]
    exact hv
  | object members ih =>
    intro s
    obtain ⟨entries, s₁, hentries, hs₁, hall⟩ :=
      ofMembers_loaded (fun m hm ↦ ih m hm (hproper.member hm) (hfits.member hm)) s
    obtain ⟨v, s₂, hv, hs₂, hloaded⟩ := loaded_object hall hproper.self hfits.self
    refine ⟨v, s₂, ?_, hs₁.trans hs₂, hloaded⟩
    rw [ofJson, bind_apply, hentries]
    exact hv

end Act

end LuaData
