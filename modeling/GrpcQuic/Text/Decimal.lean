import Mathlib.Data.Nat.Digits.Defs

/-! # Decimal numerals and the reading of bounded unsigned integers

The reader follows `from_str` of a fixed-width unsigned integer: an optional plus
sign, then digits one by one with a check after each operation. It accepts a
numeral exactly when the value fits the width, however many digits there are.
-/
namespace GrpcQuic.Text

def digitValue (c : Char) : ℕ := c.toNat - '0'.toNat

def decimalValue (ds : List Char) : ℕ := Nat.ofDigits 10 (ds.map digitValue).reverse

def Digits (ds : List Char) : Prop := ∀ c ∈ ds, c.isDigit = true

def toDigit (c : Char) : Option ℕ := if c.isDigit then some (digitValue c) else none

def checked (bound n : ℕ) : Option ℕ := if n < bound then some n else none

/-- The loop over the digits with `value` read so far. -/
def readDigits (bound : ℕ) (value : ℕ) : List Char → Option ℕ
  | [] => some value
  | c :: cs =>
    (checked bound (value * 10)).bind fun shifted =>
      (toDigit c).bind fun digit =>
        (checked bound (shifted + digit)).bind fun next => readDigits bound next cs

def readUnsigned (bound : ℕ) : List Char → Option ℕ
  | [] => none
  | ['+'] => none
  | ['-'] => none
  | '+' :: cs => readDigits bound 0 cs
  | cs => readDigits bound 0 cs

/-- How an unsigned integer may be written. -/
def signed (plus : Bool) (ds : List Char) : List Char := if plus then '+' :: ds else ds

variable {bound value n : ℕ} {ds cs : List Char}

theorem decimalValue_nil : decimalValue [] = 0 := rfl

theorem decimalValue_cons (c : Char) (cs : List Char) :
    decimalValue (c :: cs) = digitValue c * 10 ^ cs.length + decimalValue cs := by
  unfold decimalValue
  rw [List.map_cons,List.reverse_cons,Nat.ofDigits_append,Nat.ofDigits_singleton,List.length_reverse,
    List.length_map]
  ring

theorem digitValue_lt {c : Char} (h : c.isDigit = true) : digitValue c < 10 := by
  have hrange := Char.isDigit_iff_toNat.mp h
  have hzero : '0'.toNat = 48 := rfl
  have hnine : '9'.toNat = 57 := rfl
  unfold digitValue
  omega

theorem decimalValue_lt (h : Digits ds) : decimalValue ds < 10 ^ ds.length := by
  unfold decimalValue
  have hlen : ds.length = (ds.map digitValue).reverse.length := by
    rw [List.length_reverse,List.length_map]
  rw [hlen]
  refine Nat.ofDigits_lt_base_pow_length (by omega) fun d hd => ?_
  obtain ⟨c,hc,rfl⟩ := List.mem_map.mp (List.mem_reverse.mp hd)
  exact digitValue_lt (h c hc)

theorem checked_of_lt (h : n < bound) : checked bound n = some n := if_pos h

theorem checked_of_le (h : bound ≤ n) : checked bound n = none := if_neg (by omega)

theorem readDigits_cons {c : Char} (hc : c.isDigit = true) :
    readDigits bound value (c :: cs) =
      if value * 10 + digitValue c < bound then readDigits bound (value * 10 + digitValue c) cs
      else none := by
  have hdigit : toDigit c = some (digitValue c) := if_pos hc
  rw [readDigits,hdigit]
  by_cases hlt : value * 10 + digitValue c < bound
  · rw [checked_of_lt (by omega : value * 10 < bound),Option.bind_some,Option.bind_some,
      checked_of_lt hlt,if_pos hlt,Option.bind_some]
  · rw [if_neg hlt]
    by_cases hmul : value * 10 < bound
    · rw [checked_of_lt hmul,Option.bind_some,Option.bind_some,checked_of_le (by omega),Option.bind_none]
    · rw [checked_of_le (by omega),Option.bind_none]

/-- The loop reads what the digits denote, as long as that fits. The partial
values only grow, so none of them overflows before the whole does. -/
theorem readDigits_eq (h : Digits cs) (hv : value < bound) :
    readDigits bound value cs = checked bound (value * 10 ^ cs.length + decimalValue cs) := by
  induction cs generalizing value with
  | nil =>
    rw [List.length_nil,pow_zero,Nat.mul_one,decimalValue_nil,Nat.add_zero,checked_of_lt hv]
    rfl
  | cons c cs ih =>
    have hc := h c List.mem_cons_self
    have hcs : Digits cs := fun d hd => h d (List.mem_cons_of_mem c hd)
    have htotal : value * 10 ^ (c :: cs).length + decimalValue (c :: cs) =
        (value * 10 + digitValue c) * 10 ^ cs.length + decimalValue cs := by
      rw [decimalValue_cons,List.length_cons,pow_succ]
      ring
    rw [readDigits_cons hc,htotal]
    by_cases hlt : value * 10 + digitValue c < bound
    · rw [if_pos hlt]
      exact ih hcs hlt
    · have hpos : 0 < 10 ^ cs.length := Nat.pow_pos (by omega)
      have hgrow : value * 10 + digitValue c ≤ (value * 10 + digitValue c) * 10 ^ cs.length :=
        Nat.le_mul_of_pos_right _ hpos
      rw [if_neg hlt,checked_of_le (by omega)]

theorem readDigits_digits (h : readDigits bound value cs = some n) : Digits cs := by
  induction cs generalizing value with
  | nil => exact fun c hc => (List.not_mem_nil hc).elim
  | cons c cs ih =>
    obtain ⟨shifted,-,h⟩ := Option.bind_eq_some_iff.mp h
    obtain ⟨digit,hd,h⟩ := Option.bind_eq_some_iff.mp h
    obtain ⟨next,-,h⟩ := Option.bind_eq_some_iff.mp h
    have hc : c.isDigit = true := by
      by_contra hne
      rw [toDigit,if_neg hne] at hd
      cases hd
    intro d hmem
    rcases List.mem_cons.mp hmem with rfl | hmem
    · exact hc
    · exact ih h d hmem

theorem plus_not_digits : ¬ Digits ('+' :: cs) := by
  intro h
  cases h '+' List.mem_cons_self

theorem readUnsigned_signed (plus : Bool) (hne : ds ≠ []) (h : Digits ds) (hb : 0 < bound) :
    readUnsigned bound (signed plus ds) = checked bound (decimalValue ds) := by
  have hread : readDigits bound 0 ds = checked bound (decimalValue ds) := by
    rw [readDigits_eq h hb,Nat.zero_mul,Nat.zero_add]
  cases ds with
  | nil => exact (hne rfl).elim
  | cons c cs =>
    cases plus with
    | true => exact hread
    | false =>
      rw [← hread]
      unfold signed readUnsigned
      split
      · rename_i heq
        cases heq
      · rename_i heq
        cases heq
        exact (plus_not_digits h).elim
      · rename_i heq
        cases heq
        cases h '-' List.mem_cons_self
      · rename_i heq
        cases heq
        exact (plus_not_digits h).elim
      · rfl

/-- Nothing else is read. -/
theorem readUnsigned_eq_some (h : readUnsigned bound cs = some n) :
    ∃ plus ds, cs = signed plus ds ∧ ds ≠ [] ∧ Digits ds := by
  unfold readUnsigned at h
  split at h
  · cases h
  · cases h
  · cases h
  · rename_i cs hone
    exact ⟨true,cs,rfl,fun hnil => hone (by rw [hnil]),readDigits_digits h⟩
  · rename_i hempty _ _ _
    exact ⟨false,cs,rfl,hempty,readDigits_digits h⟩

/-- A number is written in one way up to what it denotes. -/
theorem signed_inj {plus plus' : Bool} {ds' : List Char} (h : Digits ds) (h' : Digits ds')
    (he : signed plus ds = signed plus' ds') : plus = plus' ∧ ds = ds' := by
  cases plus <;> cases plus'
  · exact ⟨rfl,he⟩
  · exact (plus_not_digits ((show ds = '+' :: ds' from he) ▸ h)).elim
  · exact (plus_not_digits ((show '+' :: ds = ds' from he) ▸ h')).elim
  · exact ⟨rfl,(List.cons.inj he).2⟩

end GrpcQuic.Text
