import LuaData.Proofs.RoundTrip
import LuaData.Proofs.Traversal

/-!
# From values to JSON and back

A value that is made of lists and of tables with texts for their keys has a JSON form that says all
about it. `Restores` is what is kept on the way up: the JSON value belongs to the value, it can be
imported, and whatever stands for it in an instance has the same structure. However a table has come
to its contents, nothing else of it is seen. `State.Data.json_restores` is the result for the two
conversions.
-/

namespace LuaData

section

variable [Hashing]
variable {σ τ : Type}

/-! ## Values that have a JSON form of their own -/

/-- The keys of the table are strings that are texts. -/
def Table.HasTextKeys (ctx : Context) (t : Table) : Prop :=
  ∀ key, t.get ctx key ≠ .nil → ∃ str text, key = .str str ∧ str.bytes = Utf8.encode text

/-- A value that is a tree of booleans, integers, finite floats, texts and tables, in which a table
is a list or has texts for its keys. Tables can have any history. -/
inductive State.Data (s : State σ) : Value → Prop
  | bool (b : Bool) : Data s (.bool b)
  | int (i : Int64) : Data s (.int i)
  | float {x : Double} (hx : x.isFinite = true) : Data s (.float x)
  | str {str : Str} {text : List Char} (hbytes : str.bytes = Utf8.encode text) : Data s (.str str)
  | list {r : Ref} {t : Table} {hint n : Nat} (ht : s.heap.table? r = some t)
      (hreaches : t.Reaches Value.hash hint s.moment) (hlist : t.IsList s.context n)
      (hitems : ∀ i < n, Data s (t.get s.context (.int (Int64.ofNat (i + 1))))) :
      Data s (.table r)
  | record {r : Ref} {t : Table} {hint : Nat} (ht : s.heap.table? r = some t)
      (hreaches : t.Reaches Value.hash hint s.moment) (hkeys : t.HasTextKeys s.context)
      (hsome : ∃ key, t.get s.context key ≠ .nil)
      (hvalues : ∀ key, t.get s.context key ≠ .nil → Data s (t.get s.context key)) :
      Data s (.table r)

/-- A table is such a value if its entries have texts for their keys and such values. -/
theorem State.HasTable.data_record {s : State σ} {r : Ref} {t : Table} {hint : Nat}
    (ht : s.HasTable r t) (hreaches : t.Reaches Value.hash hint s.moment)
    (hne : t.entries s.context ≠ [])
    (h : ∀ e ∈ t.entries s.context,
      (∃ str text, e.1 = .str str ∧ str.bytes = Utf8.encode text) ∧ s.Data e.2) :
    s.Data (.table r) := by
  refine .record ht.cell hreaches (fun key hkey ↦ ?_) ?_ fun key hkey ↦ ?_
  · obtain ⟨k, hk, hnormal⟩ := ht.exists_mem hkey
    obtain ⟨⟨str, text, hstr, hbytes⟩, -⟩ := h _ hk
    dsimp only at hstr
    rw [hstr] at hnormal
    obtain ⟨q, hq, hq'⟩ := Value.eq_str_of_normal? hnormal.symm
    exact ⟨q, text, hq, hq'.trans hbytes⟩
  · obtain ⟨e, he⟩ := List.exists_mem_of_ne_nil _ hne
    obtain ⟨hget, hnil⟩ := ht.get_of_mem he
    exact ⟨e.1, hget ▸ hnil⟩
  · obtain ⟨k, hk, -⟩ := ht.exists_mem hkey
    exact (h _ hk).2

/-- Values of two instances have the same structure: they are equal or have equal bytes, or they are
tables with the same keys whose values have the same structure. -/
inductive SameStructure (s : State σ) (s' : State τ) : Value → Value → Prop
  | bool (b : Bool) : SameStructure s s' (.bool b) (.bool b)
  | int (i : Int64) : SameStructure s s' (.int i) (.int i)
  | float (x : Double) : SameStructure s s' (.float x) (.float x)
  | str {p q : Str} (hbytes : p.bytes = q.bytes) : SameStructure s s' (.str p) (.str q)
  | table {r q : Ref} {t u : Table} (ht : s.heap.table? r = some t) (hu : s'.heap.table? q = some u)
      (hkeys : ∀ key, t.get s.context key ≠ .nil ↔ u.get s'.context key ≠ .nil)
      (hvalues : ∀ key, t.get s.context key ≠ .nil →
        SameStructure s s' (t.get s.context key) (u.get s'.context key)) :
      SameStructure s s' (.table r) (.table q)

/-! ## The JSON form of a value -/

/-- A JSON value belongs to a value of an instance, and every import of it has the same
structure. -/
structure Restores (s : State σ) (v : Value) (j : Json) : Prop where
  exports : s.Exports v j
  proper : j.Throughout Json.Proper
  fits : j.Throughout Json.Fits
  same : ∀ {τ : Type} {s' : State τ} {w : Value}, Loaded .bits64 s'.heap j w →
    SameStructure s s' v w

/-- A table that has been reached is well formed. -/
theorem Table.Reaches.hasTable {s : State σ} {r : Ref} {t : Table} {hint : Nat}
    (h : t.Reaches Value.hash hint s.moment) (ht : s.heap.table? r = some t) : s.HasTable r t := by
  have hsize := h.size_le Value.rawEq_hash
  exact ⟨ht, (h.sound Value.rawEq_hash).1, by omega⟩

section

variable {s : State σ} {s' : State τ} {r q : Ref} {t u : Table}

/-- The import of a table has its structure if it has its keys and their values. -/
theorem sameStructure_table {ι : Type} {I : ι → Prop} {key : ι → Value} {item : ι → Json}
    (ht : s.HasTable r t) (hu : s'.heap.table? q = some u) (hplain : u.Plain Value.hash s'.moment)
    (hsize : u.array.size ≤ 2 ^ 62) (hkey : ∀ i, (key i).normal? = some (key i))
    (hkeys : ∀ k, t.get s.context k ≠ .nil ↔ ∃ i, I i ∧ k.normal? = some (key i))
    (hrestores : ∀ i, I i → Restores s (t.get s.context (key i)) (item i))
    (hitems : ∀ i, I i → Loaded .bits64 s'.heap (item i) (u.valueOf Value.hash (key i)))
    (honly : ∀ k, u.valueOf Value.hash k ≠ .nil → ∃ i, I i ∧ k.normal? = some (key i)) :
    SameStructure s s' (.table r) (.table q) := by
  have hpresent : ∀ k, u.get s'.context k ≠ .nil ↔ ∃ i, I i ∧ k.normal? = some (key i) := by
    intro k
    rw [Loaded.get_ne_nil_iff hplain hsize hkey hitems honly k]
    constructor
    · intro h
      obtain ⟨i, hi, -, hnormal⟩ := h
      exact ⟨i, hi, hnormal⟩
    · intro h
      obtain ⟨i, hi, hnormal⟩ := h
      refine ⟨i, hi, ?_, hnormal⟩
      rw [(hrestores i hi).exports.isNull_eq]
      exact Value.isNil_eq_false ((hkeys (key i)).mpr ⟨i, hi, hkey i⟩)
  refine .table ht.cell hu (fun k ↦ (hkeys k).trans (hpresent k).symm) fun k hk ↦ ?_
  obtain ⟨i, hi, hnormal⟩ := (hkeys k).mp hk
  have heq := hnormal.trans (hkey i).symm
  have hget : t.get s.context k = t.get s.context (key i) :=
    ht.sound.get_congr_normal? Value.rawEq_hash ht.size heq
  have hget' : u.get s'.context k = u.valueOf Value.hash (key i) := by
    rw [← hplain.get_eq s'.moment]
    exact hplain.sound.get_congr_normal? Value.rawEq_hash hsize heq
  rw [hget, hget']
  exact (hrestores i hi).same (hitems i hi)

/-- The JSON array of a list. -/
theorem restores_list {n : Nat} {f : Nat → Json} (ht : s.HasTable r t) (hn : n ≤ 2 ^ 62)
    (hlist : t.IsList s.context n)
    (hitems : ∀ i < n, Restores s (t.get s.context (.int (Int64.ofNat (i + 1)))) (f i)) :
    Restores s (.table r) (.array ((List.range n).map f)) := by
  have hitemAt : ∀ i < n, Json.itemAt ((List.range n).map f) i = f i := by
    intro i hi
    rw [Json.itemAt, List.getD_eq_getElem _ _ (by simpa using hi), List.getElem_map,
      List.getElem_range]
  have hnull : ∀ j ∈ (List.range n).map f, ¬ j.isNull = true := by
    intro j hj
    obtain ⟨i, hi, rfl⟩ := List.mem_map.mp hj
    have hi' := List.mem_range.mp hi
    rw [(hitems i hi').exports.isNull_eq]
    exact Bool.eq_false_iff.mp (Value.isNil_eq_false ((hlist _).mpr ⟨i, hi', rfl⟩))
  refine ⟨.list f ht hlist fun i hi ↦ (hitems i hi).exports, ?_, ?_, ?_⟩
  · refine .array trivial fun j hj ↦ ?_
    obtain ⟨i, hi, rfl⟩ := List.mem_map.mp hj
    exact (hitems i (List.mem_range.mp hi)).proper
  · refine .array ⟨by simpa using hn, fun hgap ↦ ?_⟩ fun j hj ↦ ?_
    · obtain ⟨j, hj, hj'⟩ := List.any_eq_true.mp hgap
      exact absurd hj' (hnull j ((List.rdropWhile_prefix Json.isNull _).subset hj))
    · obtain ⟨i, hi, rfl⟩ := List.mem_map.mp hj
      exact (hitems i (List.mem_range.mp hi)).fits
  · intro τ s' w hw
    cases hw with
    | array hu hplain hsize _ hloaded honly =>
      rw [List.length_map, List.length_range] at hloaded honly
      refine sameStructure_table ht hu hplain hsize (fun i ↦ Value.normal?_int _) hlist
        hitems (fun i hi ↦ ?_) honly
      rw [← hitemAt i hi]
      exact hloaded i hi

/-- The key of an entry is the text of a member. -/
theorem State.HasTable.text_of_mem (ht : s.HasTable r t) (hkeys : t.HasTextKeys s.context)
    {e : Value × Value} (he : e ∈ t.entries s.context) :
    ∃ text, e.1.memberKey? = some text ∧ e.1.normal? = some (.str ⟨Utf8.encode text, 0⟩) := by
  obtain ⟨hget, hne⟩ := ht.get_of_mem he
  obtain ⟨str, text, hkey, hbytes⟩ := hkeys e.1 (hget ▸ hne)
  refine ⟨text, ?_, ?_⟩
  · rw [hkey, Value.memberKey?, hbytes, Utf8.decodeLossy_encode]
  · rw [hkey, ← hbytes]
    rfl

/-- The members of the JSON object are the entries of the table. -/
theorem State.HasTable.mem_members_iff (ht : s.HasTable r t) (hkeys : t.HasTextKeys s.context)
    (f : Value → Json) (m : List Char × Json) :
    m ∈ Json.ofMembers (s.membersOf t f) ↔ ∃ e ∈ t.entries s.context,
      e.1.normal? = some (.str ⟨Utf8.encode m.1, 0⟩) ∧ f e.1 = m.2 := by
  have hdistinct := ht.membersOf_pairwise f fun e he e' he' heq ↦ by
    obtain ⟨text, htext, hnormal⟩ := ht.text_of_mem hkeys he
    obtain ⟨text', htext', hnormal'⟩ := ht.text_of_mem hkeys he'
    rw [htext, htext', Option.some.injEq] at heq
    rw [hnormal, hnormal', heq]
  rw [Json.mem_ofMembers_iff hdistinct, membersOf, List.mem_filterMap]
  refine exists_congr fun e ↦ and_congr_right fun he ↦ ?_
  obtain ⟨text, htext, hnormal⟩ := ht.text_of_mem hkeys he
  rw [htext, hnormal]
  constructor
  · intro heq
    cases heq
    exact ⟨rfl, rfl⟩
  · intro h
    obtain ⟨heq, hf⟩ := h
    have hbytes := congrArg Str.bytes (Value.str.inj (Option.some.inj heq))
    rw [Option.map_some, hf, Utf8.encode_injective hbytes]

/-- The JSON object of a table whose keys are texts. -/
theorem restores_record {f : Value → Json} (ht : s.HasTable r t) (hkeys : t.HasTextKeys s.context)
    (hsome : ∃ key, t.get s.context key ≠ .nil)
    (hvalues : ∀ key, t.get s.context key ≠ .nil → Restores s (t.get s.context key) (f key)) :
    Restores s (.table r) (.object (Json.ofMembers (s.membersOf t f))) := by
  have hentry : ∀ e ∈ t.entries s.context, Restores s e.2 (f e.1) := by
    intro e he
    obtain ⟨hget, hne⟩ := ht.get_of_mem he
    rw [← hget] at hne ⊢
    exact hvalues e.1 hne
  have hmember : ∀ m ∈ Json.ofMembers (s.membersOf t f),
      Restores s (t.get s.context (.str ⟨Utf8.encode m.1, 0⟩)) m.2 := by
    intro m hm
    obtain ⟨e, he, hnormal, hf⟩ := (ht.mem_members_iff hkeys f m).mp hm
    have hget : t.get s.context (.str ⟨Utf8.encode m.1, 0⟩) = t.get s.context e.1 :=
      ht.sound.get_congr_normal? Value.rawEq_hash ht.size hnormal.symm
    rw [hget, (ht.get_of_mem he).1, ← hf]
    exact hentry e he
  refine ⟨.record f ht (fun n hn ↦ ?_) (fun e he ↦ ?_) fun e he ↦ (hentry e he).exports, ?_, ?_, ?_⟩
  · -- The one key that is known is a string.
    obtain ⟨key, hkey⟩ := hsome
    obtain ⟨str, text, rfl, -⟩ := hkeys key hkey
    obtain ⟨i, -, hnormal⟩ := (hn _).mp hkey
    cases hnormal
  · obtain ⟨text, htext, -⟩ := ht.text_of_mem hkeys he
    exact ⟨text, htext⟩
  · exact .object (Json.sorted_ofMembers _) fun m hm ↦ (hmember m hm).proper
  · refine .object ?_ fun m hm ↦ (hmember m hm).fits
    have hcount := ht.sound.keyCount_le_names fun e he k heq ↦ by
      obtain ⟨text, -, hnormal⟩ := ht.text_of_mem hkeys he
      rw [heq] at hnormal
      cases hnormal
    exact ((Json.length_ofMembers_le _).trans (List.length_filterMap_le _ _)).trans hcount
  · intro τ s' w hw
    cases hw with
    | object hu hplain hsize hloaded honly =>
      refine sameStructure_table ht hu hplain hsize (fun m ↦ rfl) (fun k ↦ ?_) hmember hloaded honly
      constructor
      · intro hk
        obtain ⟨key, he, hnormal⟩ := ht.exists_mem hk
        obtain ⟨text, -, hnormal'⟩ := ht.text_of_mem hkeys he
        exact ⟨(text, f key), (ht.mem_members_iff hkeys f _).mpr ⟨_, he, hnormal', rfl⟩,
          hnormal.symm.trans hnormal'⟩
      · intro h
        obtain ⟨m, hm, hnormal⟩ := h
        obtain ⟨e, he, hnormal', -⟩ := (ht.mem_members_iff hkeys f m).mp hm
        have hget : t.get s.context k = t.get s.context e.1 :=
          ht.sound.get_congr_normal? Value.rawEq_hash ht.size (hnormal.trans hnormal'.symm)
        rw [hget, (ht.get_of_mem he).1]
        exact (ht.get_of_mem he).2

/-- Every such value has a JSON form. -/
theorem State.Data.exists_restores {v : Value} (h : s.Data v) : ∃ j, Restores s v j := by
  induction h with
  | bool b =>
    refine ⟨.bool b, .bool b, .atom nofun nofun trivial, .atom nofun nofun trivial, fun hw ↦ ?_⟩
    cases hw
    exact .bool b
  | int i =>
    refine ⟨.int i.toInt, .int i, .atom nofun nofun ?_, .atom nofun nofun trivial, fun hw ↦ ?_⟩
    · have := i.le_toInt
      have := i.toInt_lt
      constructor <;> omega
    · have hi : Double.int64? i.toInt = some i := Double.int64?_eq_some_iff.mpr rfl
      cases hw with
      | int hk =>
        cases hi.symm.trans hk
        exact .int i
      | large hk => cases hi.symm.trans hk
  | @float x hx =>
    refine ⟨.float x, .float hx, .atom nofun nofun hx, .atom nofun nofun trivial, fun hw ↦ ?_⟩
    cases hw
    exact .float x
  | @str str text hbytes =>
    refine ⟨_, .str str, .atom nofun nofun trivial, .atom nofun nofun trivial, fun hw ↦ ?_⟩
    cases hw with
    | string hbytes' _ =>
      refine .str ?_
      rw [hbytes', hbytes, Utf8.decodeLossy_encode]
  | @list r t hint n ht hreaches hlist _ ih =>
    have htable := hreaches.hasTable ht
    have hsize := hreaches.size_le Value.rawEq_hash
    have hcount := (htable.sound.keyCount_of_isList Value.rawEq_hash htable.size hlist).2
    have hplaces := htable.sound.keyCount_le
    have hnames := htable.sound.size_le_names
    have hjson : Nonempty Json := ⟨.null⟩
    choose! f hf using ih
    exact ⟨_, restores_list htable (by omega) hlist hf⟩
  | record ht hreaches hkeys hsome _ ih =>
    have hjson : Nonempty Json := ⟨.null⟩
    choose! f hf using ih
    exact ⟨_, restores_record (hreaches.hasTable ht) hkeys hsome hf⟩

end

/-- Export and import give a value back, with the structure that it had. -/
theorem State.Data.json_restores {s : State σ} {v : Value} (h : s.Data v) :
    ∃ j, s.toJson v = .ok j ∧ ∀ {τ : Type} (s₁ : State τ), s₁.options.integerWidth = .bits64 →
      ∃ w s₂, Act.ofJson j s₁ = (.ok w, s₂) ∧ SameStructure s s₂ v w := by
  obtain ⟨j, hj⟩ := h.exists_restores
  refine ⟨j, hj.exports.toJson_eq, fun s₁ hwidth ↦ ?_⟩
  obtain ⟨w, s₂, hw, -, hloaded⟩ := Act.ofJson_loaded j hj.proper hj.fits s₁
  rw [hwidth] at hloaded
  exact ⟨w, s₂, hw, hj.same hloaded⟩

end

open Table in
/-- A table with one entry: its key is the text of an integer, and its value is a list. -/
theorem json_restores_of_text_key :
    ∃ (s : State Unit) (v : Value), s.Data v ∧ ∃ j, s.toJson v = .ok j ∧
      ∃ w s', Act.ofJson j s = (.ok w, s') ∧ SameStructure s s' v w := by
  let h₀ : Heap := (State.initial Options.default ()).heap.allocate .text
  let inner := (store Value.hash (.still h₀.moment) (withHashSize 0) (.int 1) (.bool true)).2
  let h₁ := h₀.allocate (.table inner)
  let outer := (store Value.hash (.still h₁.moment) (withHashSize 0)
    (.str ⟨Utf8.encode ['1'], 0⟩) (.table 1)).2
  let s : State Unit :=
    { State.initial Options.default () with heap := h₁.allocate (.table outer) }
  have hgrows : h₁.Grows s.heap := .allocate _ _
  have hinner : inner.Reaches Value.hash 0 s.moment := by
    refine .wait (.store (c := .still h₀.moment) (.new h₀.moment) ?_ (le_refl _) nofun nofun) ?_
    · decide
    · exact ((Heap.Grows.allocate _ _).trans hgrows).moment_le
  have houter : outer.Reaches Value.hash 0 s.moment := by
    refine .wait (.store (c := .still h₁.moment) (.new h₁.moment) ?_ (le_refl _) ?_ ?_)
      hgrows.moment_le
    · decide
    · intro r hr
      rw [← Option.some.inj hr]
      decide
    · intro r hr
      rw [← Option.some.inj hr]
      decide
  have htable : s.HasTable 1 inner := hinner.hasTable (hgrows.table? (h₀.table?_allocate inner))
  have htable' : s.HasTable 2 outer := houter.hasTable (h₁.table?_allocate outer)
  have hlength : inner.listLength? s.context = some 1 := by decide +kernel
  have hlist : inner.IsList s.context 1 :=
    (htable.sound.listLength?_eq_some_iff Value.rawEq_hash htable.size).mp hlength
  have hitem : inner.get s.context (.int (Int64.ofNat (0 + 1))) = .bool true := by decide +kernel
  have hentries : outer.entries s.context = [(.str ⟨Utf8.encode ['1'], 0⟩, .table 1)] := by
    decide +kernel
  have hdata : s.Data (.table 2) := by
    refine htable'.data_record houter (by rw [hentries]; exact nofun) fun e he ↦ ?_
    rw [hentries, List.mem_singleton] at he
    subst he
    refine ⟨⟨_, ['1'], rfl, rfl⟩, .list htable.cell hinner hlist fun i hi ↦ ?_⟩
    obtain rfl : i = 0 := Nat.lt_one_iff.mp hi
    rw [hitem]
    exact .bool true
  obtain ⟨j, hj, hrestored⟩ := hdata.json_restores
  exact ⟨s, .table 2, hdata, j, hj, hrestored s rfl⟩

end LuaData
