import LuaData.Proofs.Instance
import LuaData.Proofs.Integers
import LuaData.State.Arithmetic

/-!
# Numerals as operands

A numeral can be an operand as it is, or it can be converted to a number first. Under 32 bits the
conversion wraps integers, while an operator takes the integer of the numeral as it is and wraps
integer results only. `Act.coercion_is_conversion` says where the two agree: for all numerals under
64 bits, for sums, differences, products and negations of integers, and for the numerals whose
integer is in the range of the width. Every other numeral is told from its number by some operator.
-/

namespace LuaData

variable {σ : Type} {width : Width} {op : Operator} {a b : Value} {x y : Number} {s : State σ}

/-- The number in the range of a width. -/
def Number.wrap (width : Width) : Number → Number
  | .int i => .int (width.wrap i)
  | .float x => .float x

/-- The number is in the range of a width. -/
def Number.Fits (width : Width) (n : Number) : Prop :=
  n.wrap width = n

/-- The numbers of a width are decidable. -/
instance (width : Width) (n : Number) : Decidable (n.Fits width) :=
  inferInstanceAs (Decidable (_ = _))

namespace Value

/-- An operand of arithmetic: a number of the width, or a numeral. -/
def Operand (width : Width) : Value → Prop
  | .num n => n.Fits width
  | .str s => (Numeral.read? s.bytes).isSome
  | _ => False

/-- The operand is or denotes a number of the width. -/
def InWidth (width : Width) (v : Value) : Prop :=
  ∃ n, v.number? = some n ∧ n.Fits width

/-- The operand is or denotes an integer. -/
def Integral (v : Value) : Prop :=
  ∃ i, v.number? = some (.int i)

/-- An operand has a number. -/
theorem Operand.number (h : a.Operand width) : ∃ x, a.number? = some x := by
  unfold Operand at h
  split at h
  · exact ⟨_, rfl⟩
  · exact Option.isSome_iff_exists.mp h
  · exact absurd h id

/-- Under 64 bits every operand is of the width. -/
theorem Operand.inWidth (h : a.Operand width) (hwidth : width = .bits64) : a.InWidth width := by
  obtain ⟨x, hx⟩ := h.number
  refine ⟨x, hx, ?_⟩
  subst hwidth
  cases x with
  | int i => rfl
  | float x => rfl

end Value

namespace Operator

/-- The operators whose integer results depend on the operands up to the width only. -/
def isModular : Operator → Bool
  | .add => true
  | .sub => true
  | .mul => true
  | .neg => true
  | _ => false

end Operator

namespace Number

/-- Such operators do not tell integers from their wrapped forms. -/
theorem applyInt_wrap (width : Width) (h : op.isModular = true) (i j : Int64) :
    applyInt width op (width.wrap i) (width.wrap j) = applyInt width op i j := by
  cases op with
  | add => exact congrArg Number.int (width.wrap_add_wrap i j)
  | sub => exact congrArg Number.int (width.wrap_sub_wrap i j)
  | mul => exact congrArg Number.int (width.wrap_mul_wrap i j)
  | neg => exact congrArg Number.int (width.wrap_neg_wrap i)
  | mod | pow | div | idiv => cases h

end Number

namespace Act

/-- The conversion gives the number in the range of the width. -/
theorem toNumber_apply (s : State σ) (ha : a.number? = some x) :
    toNumber a s = (.ok (.num (x.wrap s.options.integerWidth)), s) := by
  unfold toNumber
  rw [ha]
  cases x with
  | int i => rfl
  | float x => rfl

section

variable [Hashing]

/-- An operator applied to operands that are converted first. -/
def arithConverted (call : Caller σ) (op : Operator) (a b : Value) : Act σ Value := do
  let x ← toNumber a
  let y ← toNumber b
  arith call op x y

/-- The operator gives the same with operands as they are and with converted ones. -/
def Agrees (call : Caller σ) (s : State σ) (op : Operator) (a b : Value) : Prop :=
  arith call op a b s = arithConverted call op a b s

/-- An operator computes with the numbers of its operands. -/
theorem arith_apply (call : Caller σ) (op : Operator) (s : State σ) (ha : a.number? = some x)
    (hb : b.number? = some y) :
    arith call op a b s = (.ok (.num (Number.apply s.options.integerWidth op x y)), s) := by
  have harith : Value.arith? s.options.integerWidth op a b =
      some (.num (Number.apply s.options.integerWidth op x y)) := by
    rw [Value.arith?, ha, hb]
  unfold arith
  rw [bind_apply, get_apply]
  dsimp only
  rw [harith]
  rfl

/-- Operands agree with their conversions if the operator does not tell the numbers from the
wrapped ones. -/
theorem agrees_iff (call : Caller σ) (op : Operator) (s : State σ) (ha : a.number? = some x)
    (hb : b.number? = some y) :
    Agrees call s op a b ↔
      Number.apply s.options.integerWidth op x y =
        Number.apply s.options.integerWidth op (x.wrap s.options.integerWidth)
          (y.wrap s.options.integerWidth) := by
  have hconverted : arithConverted call op a b s =
      (.ok (.num (Number.apply s.options.integerWidth op (x.wrap s.options.integerWidth)
        (y.wrap s.options.integerWidth))), s) := by
    unfold arithConverted
    rw [bind_apply, toNumber_apply s ha]
    dsimp only
    rw [bind_apply, toNumber_apply s hb]
    exact arith_apply call op s rfl rfl
  rw [Agrees, arith_apply call op s ha hb, hconverted]
  constructor
  · intro h
    obtain ⟨hvalue, -⟩ := Prod.mk.inj h
    exact Value.num.inj (Except.ok.inj hvalue)
  · intro h
    rw [h]

/-- Operands of the width agree with their conversions. -/
theorem agrees_of_inWidth (call : Caller σ) (op : Operator)
    (ha : a.InWidth s.options.integerWidth) (hb : b.InWidth s.options.integerWidth) :
    Agrees call s op a b := by
  obtain ⟨x, hx, hfits⟩ := ha
  obtain ⟨y, hy, hfits'⟩ := hb
  rw [agrees_iff call op s hx hy, show x.wrap _ = x from hfits, show y.wrap _ = y from hfits']

/-- An operand that is not of the width is told from its number: by some divisor of the width it
has another remainder. -/
theorem exists_not_agrees (call : Caller σ) (ha : a.Operand s.options.integerWidth)
    (hwidth : ¬ a.InWidth s.options.integerWidth) :
    ∃ b : Value, b.Operand s.options.integerWidth ∧ b.InWidth s.options.integerWidth ∧
      ¬ Agrees call s .mod a b := by
  obtain ⟨x, hx⟩ := ha.number
  cases x with
  | float x =>
    -- A float is of every width.
    exact absurd ⟨.float x, hx, rfl⟩ hwidth
  | int i =>
    have hchanged : s.options.integerWidth.wrap i ≠ i := fun heq ↦
      hwidth ⟨.int i, hx, congrArg Number.int heq⟩
    obtain ⟨j, hj, hfits, hne⟩ := Width.exists_floorMod_ne hchanged
    have hfits' : (Number.int j).Fits s.options.integerWidth := congrArg Number.int hfits
    refine ⟨.int j, hfits', ⟨.int j, rfl, hfits'⟩, fun hagrees ↦ hne ?_⟩
    rw [agrees_iff call .mod s hx rfl] at hagrees
    simp only [Number.wrap, hfits, Number.apply, Number.applyInt, if_neg hj,
      Number.int.injEq] at hagrees
    exact hagrees.symm

/-- An operand agrees with its conversion under all operators, whatever the other operand is,
exactly if its number is in the range of the width. Under 64 bits all operands do, and under sums,
differences, products and negations all integers. -/
theorem coercion_is_conversion (call : Caller σ) (s : State σ) (a : Value)
    (ha : a.Operand s.options.integerWidth) :
    (a.InWidth s.options.integerWidth ↔
      ∀ op b, b.Operand s.options.integerWidth → b.InWidth s.options.integerWidth →
        Agrees call s op a b ∧ Agrees call s op b a) ∧
    (s.options.integerWidth = .bits64 →
      ∀ op b, b.Operand s.options.integerWidth → Agrees call s op a b) ∧
    ∀ op b, op.isModular = true → a.Integral → b.Integral → Agrees call s op a b := by
  refine ⟨⟨fun hwidth op b _ hb ↦ ?_, fun h ↦ ?_⟩, fun h64 op b hb ↦ ?_, ?_⟩
  · exact ⟨agrees_of_inWidth call op hwidth hb, agrees_of_inWidth call op hb hwidth⟩
  · by_contra hwidth
    obtain ⟨b, hb, hbwidth, hne⟩ := exists_not_agrees call ha hwidth
    exact hne (h .mod b hb hbwidth).1
  · exact agrees_of_inWidth call op (ha.inWidth h64) (hb.inWidth h64)
  · intro op b hop ⟨i, hi⟩ ⟨j, hj⟩
    rw [agrees_iff call op s hi hj]
    exact (Number.applyInt_wrap s.options.integerWidth hop i j).symm

end

/-- Under 32 bits the numeral of `2 ^ 32` is zero when it is converted, but not as a dividend. Its
sum with an integer does not show that. -/
theorem coercion_is_conversion_of_wide_numeral :
    let s : State Unit := .initial { Options.default with integerWidth := .bits32 } ()
    let call : Caller Unit := fun _ _ ↦ pure .empty
    let a : Value := .str ⟨Utf8.ofString "4294967296", 0⟩
    a.Operand .bits32 ∧ a.number? = some (.int 4294967296) ∧
      ¬ Agrees call s .div a (.int 1) ∧ Agrees call s .add a (.int 1) ∧
      ¬ ∀ op b, b.Operand .bits32 → b.InWidth .bits32 →
        Agrees call s op a b ∧ Agrees call s op b a := by
  intro s call a
  have hnumber : a.number? = some (.int 4294967296) := by decide +kernel
  have ha : a.Operand .bits32 := by
    show (a.number?).isSome = true
    rw [hnumber]
    rfl
  obtain ⟨hiff, -, hmodular⟩ := coercion_is_conversion call s a ha
  refine ⟨ha, hnumber, ?_, hmodular .add (.int 1) rfl ⟨_, hnumber⟩ ⟨1, rfl⟩, fun h ↦ ?_⟩
  · rw [agrees_iff call .div s hnumber rfl]
    decide +kernel
  · obtain ⟨x, hx, hfits⟩ := hiff.mpr h
    rw [hnumber] at hx
    cases hx
    exact absurd hfits (by decide)

end Act

end LuaData
