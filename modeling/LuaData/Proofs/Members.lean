import Mathlib.Data.List.Sort
import LuaData.Json.Basic

/-!
# The members of an object

The members of an object are kept in the order of their keys, which is a strict order in which any
two keys can be compared. So an object is settled by which members it has (`ofMembers_eq`): members
with different keys make the same object in whatever order they are added.
-/

namespace LuaData.Json

variable {a b c : List Char} {members result : List (List Char × Json)}

/-! ## The order of keys -/

/-- No key comes before itself. -/
theorem keyLt_irrefl (a : List Char) : keyLt a a = false := by
  induction a with
  | nil => rfl
  | cons x xs ih => simp [keyLt, ih]

/-- The order of keys is transitive. -/
theorem keyLt_trans (hab : keyLt a b = true) (hbc : keyLt b c = true) : keyLt a c = true := by
  induction a generalizing b c with
  | nil =>
    cases c with
    | nil => simp [keyLt] at hbc
    | cons => rfl
  | cons x xs ih =>
    cases b with
    | nil => simp [keyLt] at hab
    | cons y ys =>
      cases c with
      | nil => simp [keyLt] at hbc
      | cons z zs =>
        simp only [keyLt, Bool.or_eq_true, decide_eq_true_eq, Bool.and_eq_true,
          beq_iff_eq] at hab hbc ⊢
        rcases hab with hxy | ⟨rfl, hxy⟩
        · rcases hbc with hyz | ⟨rfl, -⟩
          · exact .inl (Char.lt_trans hxy hyz)
          · exact .inl hxy
        · rcases hbc with hyz | ⟨rfl, hyz⟩
          · exact .inl hyz
          · exact .inr ⟨rfl, ih hxy hyz⟩

/-- Of two different keys one comes before the other. -/
theorem keyLt_of_not_keyLt (hne : a ≠ b) (h : ¬ keyLt a b = true) : keyLt b a = true := by
  induction a generalizing b with
  | nil =>
    cases b with
    | nil => exact absurd rfl hne
    | cons => exact absurd rfl h
  | cons x xs ih =>
    cases b with
    | nil => rfl
    | cons y ys =>
      simp only [keyLt, Bool.or_eq_true, decide_eq_true_eq, Bool.and_eq_true, beq_iff_eq, not_or,
        not_and] at h ⊢
      by_cases hxy : x = y
      · subst hxy
        exact .inr ⟨rfl, ih (fun heq ↦ hne (congrArg _ heq)) (h.2 rfl)⟩
      · refine .inl (Char.not_le.mp fun hle ↦ hxy ?_)
        exact Char.le_antisymm hle (Char.not_lt.mp h.1)

/-- The members are in the order of their keys. -/
def Sorted (members : List (List Char × Json)) : Prop :=
  members.Pairwise fun m n ↦ keyLt m.1 n.1 = true

/-- The keys of members in order are different. -/
theorem Sorted.ne (h : Sorted members) : members.Pairwise fun m n ↦ m.1 ≠ n.1 := by
  refine List.Pairwise.imp ?_ h
  intro m n hlt heq
  rw [heq, keyLt_irrefl] at hlt
  cases hlt

/-- Members with different keys are found by their keys. -/
theorem lookup_of_mem (h : members.Pairwise fun m n ↦ m.1 ≠ n.1) {m : List Char × Json}
    (hm : m ∈ members) : members.lookup m.1 = some m.2 := by
  induction members with
  | nil => cases hm
  | cons n rest ih =>
    obtain ⟨hfirst, hrest⟩ := List.pairwise_cons.mp h
    rw [List.lookup_cons]
    rcases List.mem_cons.mp hm with rfl | hm
    · rw [beq_self_eq_true]
    · rw [beq_eq_false_iff_ne.mpr (Ne.symm (hfirst m hm))]
      exact ih hrest hm

/-! ## Adding members -/

/-- A member that is added takes the place of one with its key and leaves the others. -/
theorem mem_insertMember {key : List Char} {value : Json} (h : Sorted members)
    (m : List Char × Json) :
    m ∈ insertMember key value members ↔ m = (key, value) ∨ m ∈ members ∧ m.1 ≠ key := by
  induction members with
  | nil => simp [insertMember]
  | cons n rest ih =>
    obtain ⟨k, v⟩ := n
    obtain ⟨hfirst, hrest⟩ := List.pairwise_cons.mp h
    have hafter : ∀ m ∈ rest, keyLt k m.1 = true := hfirst
    simp only [insertMember]
    split
    · rename_i heq
      obtain rfl : key = k := by simpa using heq
      have hne : m ∈ rest → m.1 ≠ key := by
        intro hm heq
        have := hafter m hm
        rw [heq, keyLt_irrefl] at this
        cases this
      simp only [List.mem_cons]
      constructor
      · rintro (rfl | hm)
        · exact .inl rfl
        · exact .inr ⟨.inr hm, hne hm⟩
      · rintro (rfl | ⟨rfl | hm, hkey⟩)
        · exact .inl rfl
        · exact absurd rfl hkey
        · exact .inr hm
    · split
      · rename_i hlt
        have hne : m ∈ (k, v) :: rest → m.1 ≠ key := by
          intro hm heq
          have hlt' : keyLt key m.1 = true := by
            rcases List.mem_cons.mp hm with rfl | hm
            · exact hlt
            · exact keyLt_trans hlt (hafter m hm)
          rw [heq, keyLt_irrefl] at hlt'
          cases hlt'
        rw [List.mem_cons]
        exact or_congr_right ⟨fun hm ↦ ⟨hm, hne hm⟩, fun hm ↦ hm.1⟩
      · rename_i hne _
        have hkey : k ≠ key := fun heq ↦ hne (by simp [heq])
        rw [List.mem_cons, List.mem_cons, ih hrest]
        constructor
        · rintro (rfl | rfl | ⟨hm, hm'⟩)
          · exact .inr ⟨.inl rfl, hkey⟩
          · exact .inl rfl
          · exact .inr ⟨.inr hm, hm'⟩
        · rintro (rfl | ⟨rfl | hm, hm'⟩)
          · exact .inr (.inl rfl)
          · exact .inl rfl
          · exact .inr (.inr ⟨hm, hm'⟩)

/-- Members stay in order when one is added. -/
theorem Sorted.insertMember (h : Sorted members) (key : List Char) (value : Json) :
    Sorted (insertMember key value members) := by
  induction members with
  | nil => exact List.pairwise_singleton _ _
  | cons n rest ih =>
    obtain ⟨k, v⟩ := n
    obtain ⟨hfirst, hrest⟩ := List.pairwise_cons.mp h
    simp only [Json.insertMember]
    split
    · rename_i heq
      obtain rfl : key = k := by simpa using heq
      exact List.pairwise_cons.mpr ⟨hfirst, hrest⟩
    · rename_i hne
      split
      · rename_i hlt
        refine List.pairwise_cons.mpr ⟨fun m hm ↦ ?_, h⟩
        rcases List.mem_cons.mp hm with rfl | hm
        · exact hlt
        · exact keyLt_trans hlt (hfirst m hm)
      · rename_i hlt
        refine List.pairwise_cons.mpr ⟨fun m hm ↦ ?_, ih hrest⟩
        rcases (mem_insertMember hrest m).mp hm with rfl | ⟨hm, -⟩
        · have hkey : key ≠ k := fun heq ↦ hne (by simp [heq])
          exact keyLt_of_not_keyLt hkey hlt
        · exact hfirst m hm

/-- What adding members to those of an object comes to: it keeps the order, and each member is a new
one or an old one. -/
theorem foldl_insertMember (members : List (List Char × Json)) {object : List (List Char × Json)}
    (h : Sorted object) :
    let all := members.foldl (fun object m ↦ Json.insertMember m.1 m.2 object) object
    Sorted all ∧ (∀ m ∈ all, m ∈ members ∨ m ∈ object) ∧
      ((members.Pairwise fun m n ↦ m.1 ≠ n.1) → ∀ m, m ∈ members ∨
        m ∈ object ∧ (∀ n ∈ members, n.1 ≠ m.1) → m ∈ all) := by
  induction members generalizing object with
  | nil =>
    refine ⟨h, fun m hm ↦ .inr hm, fun _ m hm ↦ ?_⟩
    rcases hm with hm | ⟨hm, -⟩
    · cases hm
    · exact hm
  | cons n rest ih =>
    obtain ⟨hsorted, hold, hnew⟩ := ih (h.insertMember n.1 n.2)
    refine ⟨hsorted, fun m hm ↦ ?_, fun hdistinct m hm ↦ ?_⟩
    · rcases hold m hm with hm | hm
      · exact .inl (List.mem_cons_of_mem _ hm)
      · rcases (mem_insertMember h m).mp hm with rfl | ⟨hm, -⟩
        · exact .inl List.mem_cons_self
        · exact .inr hm
    · obtain ⟨hfirst, hrest⟩ := List.pairwise_cons.mp hdistinct
      refine hnew hrest m ?_
      rcases hm with hm | ⟨hm, hother⟩
      · rcases List.mem_cons.mp hm with rfl | hm
        · exact .inr ⟨(mem_insertMember h m).mpr (.inl rfl), fun n hn heq ↦ hfirst n hn heq.symm⟩
        · exact .inl hm
      · refine .inr ⟨(mem_insertMember h m).mpr (.inr ⟨hm, ?_⟩), fun n hn ↦ ?_⟩
        · exact fun heq ↦ hother n List.mem_cons_self heq.symm
        · exact hother n (List.mem_cons_of_mem _ hn)

/-- The members of an object are in order. -/
theorem sorted_ofMembers (members : List (List Char × Json)) : Sorted (ofMembers members) :=
  (foldl_insertMember members List.Pairwise.nil).1

/-- An object has no other members than those that it was made of. -/
theorem mem_of_mem_ofMembers {m : List Char × Json} (h : m ∈ ofMembers members) : m ∈ members :=
  ((foldl_insertMember members List.Pairwise.nil).2.1 m h).resolve_right List.not_mem_nil

/-- An object has no more members than it was made of. -/
theorem length_ofMembers_le (members : List (List Char × Json)) :
    (ofMembers members).length ≤ members.length := by
  have hnodup : (ofMembers members).Nodup :=
    (sorted_ofMembers members).ne.imp fun hne heq ↦ hne (congrArg Prod.fst heq)
  exact (List.subperm_of_subset hnodup fun m hm ↦ mem_of_mem_ofMembers hm).length_le

/-- An object has all the members that it was made of if their keys are different. -/
theorem mem_ofMembers_iff (h : members.Pairwise fun m n ↦ m.1 ≠ n.1) (m : List Char × Json) :
    m ∈ ofMembers members ↔ m ∈ members :=
  ⟨mem_of_mem_ofMembers,
    fun hm ↦ (foldl_insertMember members List.Pairwise.nil).2.2 h m (.inl hm)⟩

/-- There is one way to put members in order. -/
theorem Sorted.eq_of_mem_iff (h : Sorted members) (hresult : Sorted result)
    (hmem : ∀ m, m ∈ members ↔ m ∈ result) : members = result := by
  have hnodup : ∀ {l : List (List Char × Json)}, Sorted l → l.Nodup :=
    fun hl ↦ hl.ne.imp fun hne heq ↦ hne (congrArg Prod.fst heq)
  have hperm := (List.perm_ext_iff_of_nodup (hnodup h) (hnodup hresult)).mpr hmem
  refine hperm.eq_of_pairwise ?_ h hresult
  intro m n _ _ hmn hnm
  have := keyLt_trans hmn hnm
  rw [keyLt_irrefl] at this
  cases this

/-- Members with different keys make one object, in whatever order they are added. -/
theorem ofMembers_eq (h : members.Pairwise fun m n ↦ m.1 ≠ n.1) (hresult : Sorted result)
    (hmem : ∀ m, m ∈ members ↔ m ∈ result) : ofMembers members = result :=
  (sorted_ofMembers members).eq_of_mem_iff hresult fun m ↦
    (mem_ofMembers_iff h m).trans (hmem m)

end LuaData.Json
