import Mathlib.Data.Nat.Init

/-!
# Chains

Handlers form chains: a value has a handler, which may be a value with a handler of its own.
`Chain.link?` gives the element that is some links along a chain, if the chain goes on that far. A
chain stops at one link at most (`Chain.stop_unique`), and it stops below a limit or goes on to it
(`Chain.exists_stop_or_link`).
-/

namespace LuaData.Chain

variable {α : Type} {next : α → Option α} {start x y : α} {i j n : Nat}

/-- The element `i` links along the chain that begins at `start`, if the chain goes on that far. -/
def link? (next : α → Option α) (start : α) : Nat → Option α
  | 0 => some start
  | i + 1 => (link? next start i).bind next

/-- The link after a given one. -/
theorem link?_succ (h : link? next start i = some x) : link? next start (i + 1) = next x := by
  rw [link?, h, Option.bind_some]

/-- The link before a given one. -/
theorem exists_link?_of_succ (h : link? next start (i + 1) = some y) :
    ∃ x, link? next start i = some x ∧ next x = some y :=
  Option.bind_eq_some_iff.mp h

/-- Beyond the link where a chain stops there is none. -/
theorem link?_eq_none (h : link? next start i = some x) (hstop : next x = none) (hlt : i < j) :
    link? next start j = none := by
  induction j, hlt using Nat.le_induction with
  | base => rw [link?_succ h, hstop]
  | succ j _ ih => rw [link?, ih, Option.bind_none]

/-- A chain stops at one link at most. -/
theorem stop_unique (hx : link? next start i = some x) (hstop : next x = none)
    (hy : link? next start j = some y) (hstop' : next y = none) : i = j := by
  rcases Nat.lt_trichotomy i j with hlt | heq | hgt
  · rw [link?_eq_none hx hstop hlt] at hy
    cases hy
  · exact heq
  · rw [link?_eq_none hy hstop' hgt] at hx
    cases hx

/-- A chain stops at one of the first links or goes on beyond them. -/
theorem exists_stop_or_link (next : α → Option α) (start : α) (n : Nat) :
    (∃ i < n, ∃ x, link? next start i = some x ∧ next x = none) ∨
      ∃ x, link? next start n = some x := by
  induction n with
  | zero => exact .inr ⟨start, rfl⟩
  | succ n ih =>
    rcases ih with ⟨i, hi, hstop⟩ | ⟨x, hx⟩
    · exact .inl ⟨i, Nat.lt_succ_of_lt hi, hstop⟩
    · cases hnext : next x with
      | none => exact .inl ⟨n, Nat.lt_succ_self n, x, hx, hnext⟩
      | some y => exact .inr ⟨y, (link?_succ hx).trans hnext⟩

/-- A chain has a link if it goes on from all the links before it. -/
theorem exists_link?_iff (next : α → Option α) (start : α) (n : Nat) :
    (∃ x, link? next start n = some x) ↔
      ∀ i < n, ∃ x y, link? next start i = some x ∧ next x = some y := by
  constructor
  · rintro ⟨x, hx⟩ i hi
    rcases exists_stop_or_link next start (i + 1) with ⟨j, hj, w, hw, hstop⟩ | ⟨y, hy⟩
    · rw [link?_eq_none hw hstop (Nat.lt_of_lt_of_le hj hi)] at hx
      cases hx
    · obtain ⟨w, hw, hnext⟩ := exists_link?_of_succ hy
      exact ⟨w, y, hw, hnext⟩
  · intro h
    cases n with
    | zero => exact ⟨start, rfl⟩
    | succ n =>
      obtain ⟨x, y, hx, hnext⟩ := h n (Nat.lt_succ_self n)
      exact ⟨y, (link?_succ hx).trans hnext⟩

end LuaData.Chain
