/-!
# Byte strings

Strings of the language are arbitrary bytes, ordered like words in a dictionary.
-/

namespace LuaData

/-- A string of bytes. -/
abbrev Bytes := List UInt8

namespace Bytes

/-- The dictionary order: the first difference decides, and a proper beginning comes first. -/
def lt : Bytes → Bytes → Bool
  | _, [] => false
  | [], _ :: _ => true
  | a :: as, b :: bs => decide (a < b) || (a == b && lt as bs)

/-- The dictionary order or equality. -/
def le (a b : Bytes) : Bool :=
  !lt b a

/-- No string comes before itself. -/
theorem lt_irrefl (a : Bytes) : lt a a = false := by
  induction a with
  | nil => rfl
  | cons b bs ih => simp [lt, ih]

/-- The order is transitive. -/
theorem lt_trans {a b c : Bytes} (hab : lt a b) (hbc : lt b c) : lt a c := by
  induction a generalizing b c with
  | nil =>
    cases c with
    | nil => simp [lt] at hbc
    | cons => simp [lt]
  | cons x xs ih =>
    cases b with
    | nil => simp [lt] at hab
    | cons y ys =>
      cases c with
      | nil => simp [lt] at hbc
      | cons z zs =>
        simp only [lt, Bool.or_eq_true, decide_eq_true_eq, Bool.and_eq_true, beq_iff_eq] at *
        rcases hab with hxy | ⟨rfl, hxy⟩
        · rcases hbc with hyz | ⟨rfl, _⟩
          · exact .inl (UInt8.lt_trans hxy hyz)
          · exact .inl hxy
        · rcases hbc with hyz | ⟨rfl, hyz⟩
          · exact .inl hyz
          · exact .inr ⟨rfl, ih hxy hyz⟩

end Bytes

end LuaData
