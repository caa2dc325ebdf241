import LuaData.Proofs.Restoring

/-!
# What can be exported

The values of an instance form a graph, in which a table leads to the values of its keys that have a
text. `Exportable` says that no cycle of this graph is reached from a value, and that all that is
reached has a JSON form. The conversion marks the tables around a value only, so a table is refused
inside itself and nowhere else: `Reached.exportsGraph` says that it ends whatever the graph is, that
it succeeds exactly on what is exportable, and that the JSON form of a table is made of the JSON
forms that its values have on their own.
-/

namespace LuaData

variable {σ : Type} {s : State σ} {v w : Value} {j : Json} {r : Ref} {n : Nat}

namespace Value

/-- A key that has a text: a string, a number or a boolean. -/
def HasText : Value → Prop
  | .str _ => True
  | .num _ => True
  | .bool _ => True
  | _ => False

/-- A value that has a JSON form, if what it leads to has one: nil, a boolean, an integer, a finite
float, a string or a table. -/
def HasJson : Value → Prop
  | .nil => True
  | .bool _ => True
  | .int _ => True
  | .float x => x.isFinite = true
  | .str _ => True
  | .table _ => True
  | _ => False

/-- A value is a table or none. -/
theorem table_or_not (v : Value) : (∃ r, v = .table r) ∨ ∀ r, v ≠ .table r := by
  cases v <;> simp

/-- The keys that have a text are those that can name a member. -/
theorem hasText_iff (key : Value) : key.HasText ↔ ∃ text, key.memberKey? = some text := by
  cases key <;> simp [HasText, memberKey?]

/-- Keys of one normal form have a text or not. -/
theorem hasText_of_normal? {key k : Value} (h : key.normal? = some k) :
    key.HasText ↔ k.HasText := by
  obtain ⟨stored, hstored, rfl⟩ := normal?_eq_some_iff.mp h
  unfold key? at hstored
  split at hstored
  · cases hstored
  · -- A float is stored as a number.
    split at hstored
    · cases hstored
    · split at hstored <;> cases hstored <;> rfl
  · cases hstored
    cases key <;> rfl

end Value

namespace State

/-- A path of different cells of the heap that is not as long as the conversion may go deep. -/
structure Room (s : State σ) (depth : Nat) (path : List Ref) : Prop where
  nodup : path.Nodup
  named : ∀ q ∈ path, q < s.heap.cells.size
  lt_depth : s.heap.cells.size < depth + path.length

namespace Room

variable {depth : Nat} {path : List Ref}

/-- There is room for the first table. -/
theorem start (s : State σ) (h : s.heap.cells.size < depth) : s.Room depth [] :=
  ⟨List.nodup_nil, nofun, h⟩

/-- The depth is not used up. -/
theorem pos (h : s.Room depth path) : 0 < depth := by
  have hlength := length_le_of_named h.nodup h.named
  have hdepth := h.lt_depth
  omega

/-- There is room inside a table that is not on the path. -/
theorem cons (h : s.Room (depth + 1) path) (hr : r ∉ path) (hlt : r < s.heap.cells.size) :
    s.Room depth (r :: path) where
  nodup := List.nodup_cons.mpr ⟨hr, h.nodup⟩
  named := by
    intro q hq
    rcases List.mem_cons.mp hq with rfl | hq
    · exact hlt
    · exact h.named q hq
  lt_depth := by
    have hdepth := h.lt_depth
    rw [List.length_cons]
    omega

end Room

end State

section

variable [Hashing]

/-! ## The graph of an instance -/

namespace State

/-- One step in the graph: from a table to the value of a key that has a text. -/
def Leads (s : State σ) (v w : Value) : Prop :=
  ∃ r key, v = .table r ∧ key.HasText ∧ s.rawGet r key = w ∧ w ≠ .nil

/-- Every value that is reached has a JSON form, and none is on a cycle. -/
structure Exportable (s : State σ) (v : Value) : Prop where
  hasJson : ∀ w, Relation.ReflTransGen s.Leads v w → w.HasJson
  acyclic : ∀ w, Relation.ReflTransGen s.Leads v w → ¬ Relation.TransGen s.Leads w w

namespace Exportable

/-- What an exportable value leads to is exportable. -/
theorem child (h : s.Exportable v) (hw : s.Leads v w) : s.Exportable w where
  hasJson u hu := h.hasJson u (.head hw hu)
  acyclic u hu := h.acyclic u (.head hw hu)

/-- A value with a JSON form is exportable if all that it leads to is. A cycle through the value
would be a cycle through what it leads to. -/
theorem of_children (hv : v.HasJson) (h : ∀ w, s.Leads v w → s.Exportable w) :
    s.Exportable v where
  hasJson u hu := by
    obtain rfl | ⟨w, hw, hwu⟩ := hu.cases_head
    · exact hv
    · exact (h w hw).hasJson u hwu
  acyclic u hu hcycle := by
    obtain rfl | ⟨w, hw, hwu⟩ := hu.cases_head
    · obtain ⟨w, hw, hback⟩ := Relation.TransGen.head'_iff.mp hcycle
      exact (h w hw).acyclic w .refl (.tail' hback hw)
    · exact (h w hw).acyclic u hwu hcycle

end Exportable

/-! ## One level of the conversion -/

/-- The member that an entry becomes, if its key has a text, with a conversion for its value. -/
def memberJson (convert : Value → Except Error Json) (e : Value × Value) :
    Except Error (Option (List Char × Json)) :=
  match e.1.memberKey? with
  | none => return none
  | some key => return some (key, ← convert e.2)

/-- The JSON form of a table, with a conversion for its values. -/
def tableJson (s : State σ) (convert : Value → Except Error Json) (r : Ref) : Except Error Json :=
  match (s.table r).listLength? s.context with
  | some n => do
    let items ← (List.range n).mapM fun i ↦
      convert ((s.table r).getInt s.context (Int64.ofNat (i + 1)))
    return .array items
  | none => do
    let members ← ((s.table r).entries s.context).filterMapM (memberJson convert)
    return .object (Json.ofMembers members)

/-- The JSON form of a value inside the tables of a path, with a conversion for the values inside
it. -/
def jsonStep (s : State σ) (convert : List Ref → Value → Except Error Json) (path : List Ref) :
    Value → Except Error Json
  | .nil => .ok .null
  | .bool b => .ok (.bool b)
  | .int i => .ok (.int i.toInt)
  | .float x => if x.isFinite then .ok (.float x) else .error (.jsonNumber x)
  | .str str => .ok (.string (Utf8.decodeLossy str.bytes))
  | .table r => if r ∈ path then .error .jsonCycle else s.tableJson (convert (r :: path)) r
  | v => .error (.jsonKind v.kind)

/-- A conversion of some depth is one level above a conversion of less depth. -/
theorem jsonWithin_succ (s : State σ) (depth : Nat) :
    s.jsonWithin (depth + 1) = s.jsonStep (s.jsonWithin depth) := by
  funext path v
  rcases v with _ | _ | (_ | _) | _ | _ | _ | _ | _ <;> rfl

/-! ## The end of the recursion -/

/-- The empty table is an empty array, whatever the conversion of values is. -/
theorem tableJson_of_not_lt (h : ¬ r < s.heap.cells.size)
    (convert : Value → Except Error Json) : s.tableJson convert r = .ok (.array []) := by
  have hlength : Table.empty.listLength? s.context = some 0 := by
    refine ((Table.sound_withHashSize Value.hash s.moment 0).listLength?_eq_some_iff
      Value.rawEq_hash (Nat.zero_le _)).mpr fun key ↦ ?_
    simp [Table.get_withHashSize]
  rw [tableJson, table_of_not_lt h, hlength]
  rfl

/-- Conversions of enough depth agree: what they do beyond it is never asked for. -/
theorem iterate_jsonStep_eq {below below' : List Ref → Value → Except Error Json}
    {depth depth' : Nat} {path : List Ref} (h : s.Room depth path) (h' : s.Room depth' path)
    (v : Value) : s.jsonStep^[depth] below path v = s.jsonStep^[depth'] below' path v := by
  induction depth generalizing depth' path v with
  | zero => exact absurd h.pos (Nat.lt_irrefl 0)
  | succ depth ih =>
    obtain ⟨rest, rfl⟩ := Nat.exists_eq_succ_of_ne_zero h'.pos.ne'
    rw [Function.iterate_succ_apply', Function.iterate_succ_apply']
    rcases v with _ | _ | (_ | _) | _ | r | _ | _ | _
    case table =>
      rw [jsonStep, jsonStep]
      split
      · rfl
      · rename_i hr
        by_cases hlt : r < s.heap.cells.size
        · rw [funext fun w ↦ ih (h.cons hr hlt) (h'.cons hr hlt) w]
        · rw [tableJson_of_not_lt hlt, tableJson_of_not_lt hlt]
    all_goals rfl

/-- The conversion is the step, taken as often as the depth says. -/
theorem jsonWithin_eq_iterate (s : State σ) (depth : Nat) :
    s.jsonWithin depth = s.jsonStep^[depth] (s.jsonWithin 0) := by
  induction depth with
  | zero => rfl
  | succ depth ih => rw [jsonWithin_succ, ih, Function.iterate_succ_apply']

/-- The recursion ends by itself: once it may go deeper than there are cells, it gives the JSON form
of the value whatever is done further below. -/
theorem iterate_jsonStep (s : State σ) (below : List Ref → Value → Except Error Json)
    {depth : Nat} (h : s.heap.cells.size < depth) (v : Value) :
    s.jsonStep^[depth] below [] v = s.toJson v := by
  rw [toJson, jsonWithin_eq_iterate]
  exact iterate_jsonStep_eq (.start s h) (.start s (Nat.lt_succ_self _)) v

/-! ## The values of a table -/

namespace Reached

/-- All tables are well formed. -/
theorem sound_table (hs : s.Reached) (r : Ref) :
    (s.table r).Sound Value.hash s.moment ∧ (s.table r).array.size ≤ 2 ^ 62 := by
  cases ht : s.heap.table? r with
  | none =>
    rw [table, ht]
    exact ⟨Table.sound_withHashSize _ _ 0, Nat.zero_le _⟩
  | some t =>
    obtain ⟨hint, hreaches⟩ := hs r t ht
    have htable := hreaches.hasTable ht
    rw [table_eq ht]
    exact ⟨htable.sound, htable.size⟩

/-- What is listed is found. -/
theorem rawGet_of_mem (hs : s.Reached) {e : Value × Value}
    (he : e ∈ (s.table r).entries s.context) : s.rawGet r e.1 = e.2 := by
  obtain ⟨hsound, hsize⟩ := hs.sound_table r
  exact (hsound.get_eq_iff_normal? Value.rawEq_hash (by omega) e.1
    (hsound.insertable he).ne_nil).mpr ⟨e.1, he, rfl⟩

/-- A table leads to the values of its entries with keys that have a text. -/
theorem leads_iff_entry (hs : s.Reached) : s.Leads (.table r) w ↔
    ∃ e ∈ (s.table r).entries s.context, e.1.HasText ∧ e.2 = w := by
  obtain ⟨hsound, hsize⟩ := hs.sound_table r
  constructor
  · intro h
    obtain ⟨_, key, ⟨⟩, htext, rfl, hne⟩ := h
    obtain ⟨k, hmem, hnormal⟩ :=
      (hsound.get_eq_iff_normal? Value.rawEq_hash (by omega) key hne).mp rfl
    have hk := Value.normal?_of_stored (hsound.insertable hmem).stored
    have hkey := hnormal.symm.trans hk
    exact ⟨_, hmem, (Value.hasText_of_normal? hk).mpr ((Value.hasText_of_normal? hkey).mp htext),
      rfl⟩
  · intro h
    obtain ⟨e, he, htext, rfl⟩ := h
    exact ⟨r, e.1, rfl, htext, hs.rawGet_of_mem he, (hsound.insertable he).ne_nil⟩

/-- A list leads to the values of its integers. -/
theorem leads_iff_item (hs : s.Reached) (hlist : (s.table r).IsList s.context n) :
    s.Leads (.table r) w ↔ ∃ i < n, s.rawGet r (.int (Int64.ofNat (i + 1))) = w := by
  obtain ⟨hsound, hsize⟩ := hs.sound_table r
  constructor
  · intro h
    obtain ⟨_, key, ⟨⟩, -, rfl, hne⟩ := h
    obtain ⟨i, hi, hnormal⟩ := (hlist key).mp hne
    exact ⟨i, hi, hsound.get_congr_normal? Value.rawEq_hash hsize
      ((Value.normal?_int _).trans hnormal.symm)⟩
  · intro h
    obtain ⟨i, hi, rfl⟩ := h
    exact ⟨r, .int (Int64.ofNat (i + 1)), rfl, trivial, rfl, (hlist _).mpr ⟨i, hi, rfl⟩⟩

end Reached

/-! ## The JSON form of a table -/

/-- The JSON form of a table, with the JSON forms of its values. -/
def formOf (s : State σ) (f : Value → Json) (r : Ref) : Json :=
  match (s.table r).listLength? s.context with
  | some n => .array ((List.range n).map fun i ↦ f (s.rawGet r (.int (Int64.ofNat (i + 1)))))
  | none => .object (Json.ofMembers (s.membersOf (s.table r) fun key ↦ f (s.rawGet r key)))

namespace Reached

/-- The tables that are lists are found to be. -/
theorem listLength?_eq_some_iff (hs : s.Reached) :
    (s.table r).listLength? s.context = some n ↔ (s.table r).IsList s.context n :=
  (hs.sound_table r).1.listLength?_eq_some_iff Value.rawEq_hash (hs.sound_table r).2

/-- The JSON form of a list. -/
theorem formOf_of_isList (hs : s.Reached) (hlist : (s.table r).IsList s.context n)
    (f : Value → Json) : s.formOf f r =
      .array ((List.range n).map fun i ↦ f (s.rawGet r (.int (Int64.ofNat (i + 1))))) := by
  rw [formOf, hs.listLength?_eq_some_iff.mpr hlist]

/-- The JSON form of another table. -/
theorem formOf_of_not_isList (hs : s.Reached) (hlist : ∀ n, ¬ (s.table r).IsList s.context n)
    (f : Value → Json) : s.formOf f r =
      .object (Json.ofMembers (s.membersOf (s.table r) fun key ↦ f (s.rawGet r key))) := by
  have hlength : (s.table r).listLength? s.context = none := by
    rw [Option.eq_none_iff_forall_ne_some]
    exact fun n hn ↦ hlist n (hs.listLength?_eq_some_iff.mp hn)
  rw [formOf, hlength]

/-- If the values of a table are converted, the table has its JSON form. -/
theorem tableJson_eq (hs : s.Reached) {convert : Value → Except Error Json} {f : Value → Json}
    (h : ∀ w, s.Leads (.table r) w → convert w = .ok (f w)) :
    s.tableJson convert r = .ok (s.formOf f r) := by
  unfold tableJson formOf
  cases hlength : (s.table r).listLength? s.context with
  | some n =>
    have hlist := hs.listLength?_eq_some_iff.mp hlength
    have hitems : ∀ i ∈ List.range n,
        convert ((s.table r).getInt s.context (Int64.ofNat (i + 1))) =
          .ok (f (s.rawGet r (.int (Int64.ofNat (i + 1))))) := by
      intro i hi
      exact h _ ((hs.leads_iff_item hlist).mpr ⟨i, List.mem_range.mp hi, rfl⟩)
    simp only [mapM_eq_ok hitems]
    rfl
  | none =>
    have hmembers : ∀ e ∈ (s.table r).entries s.context, memberJson convert e =
        .ok (e.1.memberKey?.map fun key ↦ (key, f (s.rawGet r e.1))) := by
      intro e he
      rw [memberJson]
      cases htext : e.1.memberKey? with
      | none => rfl
      | some key =>
        have hleads : s.Leads (.table r) e.2 :=
          hs.leads_iff_entry.mpr ⟨e, he, (Value.hasText_iff _).mpr ⟨key, htext⟩, rfl⟩
        rw [hs.rawGet_of_mem he]
        simp only [h _ hleads]
        rfl
    simp only [filterMapM_eq_ok hmembers]
    rfl

/-- If a table is converted, so are its values. -/
theorem exists_ok_of_tableJson (hs : s.Reached) {convert : Value → Except Error Json}
    (h : s.tableJson convert r = .ok j) (hw : s.Leads (.table r) w) : ∃ i, convert w = .ok i := by
  unfold tableJson at h
  cases hlength : (s.table r).listLength? s.context with
  | some n =>
    have hlist := hs.listLength?_eq_some_iff.mp hlength
    obtain ⟨i, hi, rfl⟩ := (hs.leads_iff_item hlist).mp hw
    simp only [hlength] at h
    obtain ⟨items, hitems, -⟩ := bind_pure_eq_ok h
    exact exists_ok_of_mapM hitems i (List.mem_range.mpr hi)
  | none =>
    obtain ⟨e, he, htext, rfl⟩ := hs.leads_iff_entry.mp hw
    simp only [hlength] at h
    obtain ⟨members, hmembers, -⟩ := bind_pure_eq_ok h
    obtain ⟨member, hmember⟩ := exists_ok_of_filterMapM hmembers e he
    obtain ⟨key, hkey⟩ := (Value.hasText_iff _).mp htext
    simp only [memberJson, hkey] at hmember
    obtain ⟨i, hi, -⟩ := bind_pure_eq_ok hmember
    exact ⟨i, hi⟩

/-- A table is converted exactly if its values are. -/
theorem tableJson_eq_ok_iff (hs : s.Reached) {convert : Value → Except Error Json} :
    s.tableJson convert r = .ok j ↔
      ∃ f, (∀ w, s.Leads (.table r) w → convert w = .ok (f w)) ∧ j = s.formOf f r := by
  constructor
  · intro h
    have hvalues : ∀ w, s.Leads (.table r) w → ∃ i, convert w = .ok i :=
      fun w hw ↦ hs.exists_ok_of_tableJson h hw
    have : Nonempty Json := ⟨.null⟩
    choose! f hf using hvalues
    rw [hs.tableJson_eq hf] at h
    exact ⟨f, hf, (Except.ok.inj h).symm⟩
  · intro h
    obtain ⟨f, hf, rfl⟩ := h
    exact hs.tableJson_eq hf

/-- The JSON form of a table depends on the JSON forms of its values only. -/
theorem formOf_congr (hs : s.Reached) {f g : Value → Json}
    (h : ∀ w, s.Leads (.table r) w → f w = g w) : s.formOf f r = s.formOf g r := by
  have hf : s.tableJson (fun w ↦ .ok (f w)) r = .ok (s.formOf f r) :=
    hs.tableJson_eq fun w _ ↦ rfl
  have hg : s.tableJson (fun w ↦ .ok (f w)) r = .ok (s.formOf g r) :=
    hs.tableJson_eq fun w hw ↦ congrArg Except.ok (h w hw)
  exact Except.ok.inj (hf.symm.trans hg)

end Reached

/-! ## The conversion of a graph -/

section

variable {depth depth' : Nat} {path path' : List Ref}

/-- The depth and the path matter to tables only. -/
theorem jsonWithin_of_ne_table (hv : ∀ r, v ≠ .table r) (depth : Nat) (path : List Ref) :
    s.jsonWithin depth path v = s.jsonWithin 0 [] v := by
  cases depth
  all_goals
    rcases v with _ | _ | (_ | _) | _ | r | _ | _ | _
    case table => exact absurd rfl (hv r)
    all_goals rfl

/-- Among the values that are no tables, those with a JSON form are converted. -/
theorem exists_jsonWithin_iff (hv : ∀ r, v ≠ .table r) :
    (∃ j, s.jsonWithin depth path v = .ok j) ↔ v.HasJson := by
  rw [jsonWithin_of_ne_table hv]
  rcases v with _ | _ | (_ | x) | _ | r | _ | _ | _
  case table => exact absurd rfl (hv r)
  case num.float =>
    rw [jsonWithin, Value.HasJson]
    cases x.isFinite <;> simp
  all_goals simp [jsonWithin, Value.HasJson]

/-- What is converted has a JSON form. -/
theorem hasJson_of_ok (h : s.jsonWithin depth path v = .ok j) : v.HasJson := by
  rcases v.table_or_not with ⟨r, rfl⟩ | hv
  · trivial
  · exact (exists_jsonWithin_iff hv).mp ⟨j, h⟩

/-- Only tables lead anywhere. -/
theorem Leads.exists_table (h : s.Leads v w) : ∃ r, v = .table r := by
  obtain ⟨r, -, hr, -⟩ := h
  exact ⟨r, hr⟩

/-- Only a table in a cell leads anywhere. -/
theorem Leads.lt (h : s.Leads (.table r) w) : r < s.heap.cells.size := by
  obtain ⟨_, key, ⟨⟩, -, hget, hne⟩ := h
  by_contra hlt
  rw [rawGet, table_of_not_lt hlt] at hget
  exact hne (hget.symm.trans (Table.get_withHashSize _ _ _))

namespace Reached

/-- A table is converted if it is not on the path and its values are converted inside it. -/
theorem jsonWithin_table_iff (hs : s.Reached) :
    s.jsonWithin (depth + 1) path (.table r) = .ok j ↔ r ∉ path ∧
      ∃ f, (∀ w, s.Leads (.table r) w → s.jsonWithin depth (r :: path) w = .ok (f w)) ∧
        j = s.formOf f r := by
  rw [jsonWithin_succ, jsonStep, ← hs.tableJson_eq_ok_iff]
  by_cases hr : r ∈ path
  · rw [if_pos hr]
    exact ⟨nofun, fun h ↦ absurd hr h.1⟩
  · rw [if_neg hr]
    exact ⟨fun h ↦ ⟨hr, h⟩, fun h ↦ h.2⟩

/-- What is converted is exportable. -/
theorem exportable_of_ok (hs : s.Reached) (h : s.jsonWithin depth path v = .ok j) :
    s.Exportable v := by
  induction depth generalizing path v j with
  | zero =>
    refine .of_children (hasJson_of_ok h) fun w hw ↦ ?_
    obtain ⟨r, rfl⟩ := hw.exists_table
    cases h
  | succ depth ih =>
    refine .of_children (hasJson_of_ok h) fun w hw ↦ ?_
    obtain ⟨r, rfl⟩ := hw.exists_table
    obtain ⟨-, f, hf, -⟩ := hs.jsonWithin_table_iff.mp h
    exact ih (hf w hw)

/-- The JSON form of a value is the same in all places where it has one. -/
theorem ok_unique (hs : s.Reached) {j' : Json} (h : s.jsonWithin depth path v = .ok j)
    (h' : s.jsonWithin depth' path' v = .ok j') : j = j' := by
  induction depth generalizing depth' path path' v j j' with
  | zero =>
    rcases v.table_or_not with ⟨r, rfl⟩ | hv
    · cases h
    · rw [jsonWithin_of_ne_table hv] at h h'
      exact Except.ok.inj (h.symm.trans h')
  | succ depth ih =>
    rcases v.table_or_not with ⟨r, rfl⟩ | hv
    · obtain ⟨-, f, hf, rfl⟩ := hs.jsonWithin_table_iff.mp h
      cases depth' with
      | zero => cases h'
      | succ depth' =>
        obtain ⟨-, g, hg, rfl⟩ := hs.jsonWithin_table_iff.mp h'
        exact hs.formOf_congr fun w hw ↦ ih (hf w hw) (hg w hw)
    · rw [jsonWithin_of_ne_table hv] at h h'
      exact Except.ok.inj (h.symm.trans h')

/-- What is exportable is converted wherever there is room, if the tables of the path lead to it: as
it is on no cycle, none of them is met again. -/
theorem exists_ok_of_exportable (hs : s.Reached) (h : s.Exportable v) (hroom : s.Room depth path)
    (hpath : ∀ q ∈ path, Relation.TransGen s.Leads (.table q) v) :
    ∃ j, s.jsonWithin depth path v = .ok j := by
  induction depth generalizing path v with
  | zero => exact absurd hroom.pos (Nat.lt_irrefl 0)
  | succ depth ih =>
    rcases v.table_or_not with ⟨r, rfl⟩ | hv
    · have hr : r ∉ path := fun hr ↦ h.acyclic _ .refl (hpath r hr)
      have hvalues : ∀ w, s.Leads (.table r) w → ∃ i, s.jsonWithin depth (r :: path) w = .ok i := by
        intro w hw
        refine ih (h.child hw) (hroom.cons hr hw.lt) fun q hq ↦ ?_
        rcases List.mem_cons.mp hq with rfl | hq
        · exact .single hw
        · exact (hpath q hq).tail hw
      have : Nonempty Json := ⟨.null⟩
      choose! f hf using hvalues
      exact ⟨_, hs.jsonWithin_table_iff.mpr ⟨hr, f, hf, rfl⟩⟩
    · exact (exists_jsonWithin_iff hv).mpr (h.hasJson v .refl)

/-- What can be exported is exactly what is exportable. -/
theorem toJson_ok_iff (hs : s.Reached) (v : Value) :
    (∃ j, s.toJson v = .ok j) ↔ s.Exportable v := by
  constructor
  · intro h
    obtain ⟨j, h⟩ := h
    exact hs.exportable_of_ok h
  · intro h
    exact hs.exists_ok_of_exportable h (.start s (Nat.lt_succ_self _)) nofun

/-- A table is made of the JSON forms that its values have on their own. -/
theorem toJson_table_iff (hs : s.Reached) : s.toJson (.table r) = .ok j ↔
    ∃ f, (∀ w, s.Leads (.table r) w → s.toJson w = .ok (f w)) ∧ j = s.formOf f r := by
  have hparts : ∀ i, s.toJson (.table r) = .ok i →
      ∃ f, (∀ w, s.Leads (.table r) w → s.toJson w = .ok (f w)) ∧ i = s.formOf f r := by
    intro i h
    obtain ⟨-, f, hf, hform⟩ := hs.jsonWithin_table_iff.mp h
    refine ⟨f, fun w hw ↦ ?_, hform⟩
    obtain ⟨k, hk⟩ := (hs.toJson_ok_iff w).mpr (hs.exportable_of_ok (hf w hw))
    rwa [← hs.ok_unique hk (hf w hw)]
  constructor
  · exact hparts j
  · intro h
    obtain ⟨f, hf, rfl⟩ := h
    have hvalues : ∀ w, s.Leads (.table r) w → s.Exportable w :=
      fun w hw ↦ (hs.toJson_ok_iff w).mp ⟨f w, hf w hw⟩
    obtain ⟨i, hi⟩ := (hs.toJson_ok_iff (.table r)).mpr (.of_children trivial hvalues)
    obtain ⟨g, hg, rfl⟩ := hparts i hi
    rw [hi, hs.formOf_congr fun w hw ↦ Except.ok.inj ((hg w hw).symm.trans (hf w hw))]

end Reached

end

/-! ## Exports -/

/-- How the values of an instance are exported. -/
structure ExportsGraph (s : State σ) : Prop where
  /-- The recursion ends: when it may go deeper than there are cells, it does not matter what is
  done further below. -/
  ends : ∀ (below : List Ref → Value → Except Error Json) (depth : Nat) (v : Value),
    s.heap.cells.size < depth → s.jsonStep^[depth] below [] v = s.toJson v
  /-- What is exported is what is exportable. -/
  exported : ∀ v, (∃ j, s.toJson v = .ok j) ↔ s.Exportable v
  /-- A list is the array of what its values are on their own. -/
  list : ∀ r n j, (s.table r).IsList s.context n → (s.toJson (.table r) = .ok j ↔
    ∃ f : Value → Json, (∀ w, s.Leads (.table r) w → s.toJson w = .ok (f w)) ∧
      j = .array ((List.range n).map fun i ↦ f (s.rawGet r (.int (Int64.ofNat (i + 1))))))
  /-- Another table is the object of what its values are on their own. -/
  record : ∀ r j, (∀ n, ¬ (s.table r).IsList s.context n) → (s.toJson (.table r) = .ok j ↔
    ∃ f : Value → Json, (∀ w, s.Leads (.table r) w → s.toJson w = .ok (f w)) ∧
      j = .object (Json.ofMembers (s.membersOf (s.table r) fun key ↦ f (s.rawGet r key))))
  /-- The tables that become arrays are the lists. -/
  array : ∀ r j, s.toJson (.table r) = .ok j →
    ((∃ items, j = .array items) ↔ ∃ n, (s.table r).IsList s.context n)

/-- Export ends on every graph of tables and refuses exactly the values from which a cycle is
reached, or a value without a JSON form. -/
theorem Reached.exportsGraph (hs : s.Reached) : s.ExportsGraph where
  ends below depth v h := iterate_jsonStep s below h v
  exported := hs.toJson_ok_iff
  list r n j hlist := by
    simp only [hs.toJson_table_iff, hs.formOf_of_isList hlist]
  record r j hlist := by
    simp only [hs.toJson_table_iff, hs.formOf_of_not_isList hlist]
  array r j h := by
    obtain ⟨f, -, rfl⟩ := hs.toJson_table_iff.mp h
    constructor
    · intro harray
      obtain ⟨items, hitems⟩ := harray
      by_contra hlist
      rw [hs.formOf_of_not_isList (not_exists.mp hlist)] at hitems
      cases hitems
    · intro hlists
      obtain ⟨n, hlist⟩ := hlists
      exact ⟨_, hs.formOf_of_isList hlist f⟩

end State

end

namespace Act

/-- Three tables and a string: the first table has the second one twice, and the last one has
itself. -/
def entangled : State Unit :=
  let s : State Unit := { State.initial Options.default () with
    heap := [.table (.withHashSize 0), .table (.withHashSize 0), .table (.withHashSize 0),
      .text].foldl Heap.allocate .empty }
  let s := (rawSet (.table 0) (.int 1) (.table 1) s).2
  let s := (rawSet (.table 0) (.int 2) (.table 1) s).2
  (rawSet (.table 2) (.str ⟨Utf8.ofString "self", 3⟩) (.table 2) s).2

/-- The table that is shared is exported twice, and the one that has itself is not exported. -/
theorem exportsGraph_of_entangled : entangled.ExportsGraph ∧
    (entangled.toJson (.table 0)).toOption.map Json.compact = some "[[],[]]".toList ∧
    entangled.Exportable (.table 0) ∧ ¬ entangled.Exportable (.table 2) := by
  have hempty := ((((State.reached_initial Options.default ()).allocateTable 0).allocateTable
    0).allocateTable 0).allocateText
  have hfirst := reached_after_rawSet hempty 0 (.int 1) (.table 1) (by decide +kernel)
  have hsecond := reached_after_rawSet hfirst 0 (.int 2) (.table 1) (by decide +kernel)
  have hself := reached_after_rawSet hsecond 2 (.str ⟨Utf8.ofString "self", 3⟩) (.table 2)
    (by decide +kernel)
  have hgraph : entangled.ExportsGraph := State.Reached.exportsGraph hself
  have htext : (entangled.toJson (.table 0)).toOption.map Json.compact = some "[[],[]]".toList := by
    decide +kernel
  have hnone : (entangled.toJson (.table 2)).toOption.isNone := by decide +kernel
  refine ⟨hgraph, htext, (hgraph.exported _).mp ?_, fun h ↦ ?_⟩
  · cases hjson : entangled.toJson (.table 0) with
    | error e =>
      rw [hjson] at htext
      cases htext
    | ok j => exact ⟨j, rfl⟩
  · obtain ⟨j, hj⟩ := (hgraph.exported _).mpr h
    rw [hj] at hnone
    cases hnone

end Act

end LuaData
