import Mathlib.Data.List.TakeWhile
import Mathlib.Data.Nat.Digits.Lemmas

/-!
This module contains strings of digits, most significant digit first, and two ways to convert them to another
base: by multiplying the digits read so far, and by dividing the whole string again and again.
-/

namespace Radix

variable {base target : Nat}

/-- The number that a string of digits stands for. -/
def value (base : Nat) (digits : List Nat) : Nat := Nat.ofDigits base digits.reverse

def isZero (d : Nat) : Bool := d == 0

def leadingZeros (digits : List Nat) : Nat := (digits.takeWhile isZero).length

/-- The string in another base. It keeps the number of leading zeros. -/
def recode (base target : Nat) (digits : List Nat) : List Nat :=
  List.replicate (leadingZeros digits) 0 ++ (Nat.digits target (value base digits)).reverse

theorem value_nil : value base [] = 0 := rfl

theorem value_cons (d : Nat) (digits : List Nat) :
    value base (d :: digits) = value base digits + base ^ digits.length * d := by
  rw [value, List.reverse_cons, Nat.ofDigits_append, Nat.ofDigits_singleton, List.length_reverse]
  rfl

theorem value_append (l l' : List Nat) :
    value base (l ++ l') = value base l' + base ^ l'.length * value base l := by
  rw [value, List.reverse_append, Nat.ofDigits_append, List.length_reverse]
  rfl

theorem value_concat (digits : List Nat) (d : Nat) :
    value base (digits ++ [d]) = value base digits * base + d := by
  rw [value_append, value_cons, value_nil, List.length_singleton, List.length_nil]
  rw [Nat.pow_one, Nat.pow_zero, Nat.one_mul, Nat.zero_add, Nat.add_comm, Nat.mul_comm]

/-- What bounds a string with room for `n + 1` more digits still bounds it after one of them. -/
theorem value_concat_le {digits : List Nat} {d n bound : Nat} (hd : d < base)
    (h : (value base digits + 1) * base ^ (n + 1) ≤ bound) :
    (value base (digits ++ [d]) + 1) * base ^ n ≤ bound ∧ value base digits * base + d < bound := by
  have hle : (value base (digits ++ [d]) + 1) * base ^ n ≤ bound := by
    apply Nat.le_trans _ h
    rw [Nat.pow_succ', ← Nat.mul_assoc, value_concat, Nat.succ_mul (value base digits)]
    apply Nat.mul_le_mul_right
    omega
  have hpos : 0 < base ^ n := Nat.pow_pos (by omega)
  have := Nat.le_mul_of_pos_right (value base (digits ++ [d]) + 1) hpos
  rw [value_concat] at this hle
  exact ⟨by rwa [value_concat], by omega⟩

theorem value_replicate_append (k : Nat) (digits : List Nat) :
    value base (List.replicate k 0 ++ digits) = value base digits := by
  rw [value, List.reverse_append, List.reverse_replicate, Nat.ofDigits_append_replicate_zero]
  rfl

theorem value_lt (hbase : 1 < base) {digits : List Nat} (h : ∀ d ∈ digits, d < base) :
    value base digits < base ^ digits.length := by
  rw [value, ← List.length_reverse]
  apply Nat.ofDigits_lt_base_pow_length hbase
  intro d hd
  exact h d (List.mem_reverse.mp hd)

theorem value_reverse_digits (n : Nat) : value base (Nat.digits base n).reverse = n := by
  rw [value, List.reverse_reverse, Nat.ofDigits_digits]

theorem takeWhile_eq_replicate (digits : List Nat) :
    digits.takeWhile isZero = List.replicate (leadingZeros digits) 0 := by
  apply List.eq_replicate_of_mem
  intro d hd
  simpa [isZero] using List.mem_takeWhile_imp hd

theorem replicate_append_dropWhile (digits : List Nat) :
    List.replicate (leadingZeros digits) 0 ++ digits.dropWhile isZero = digits := by
  rw [← takeWhile_eq_replicate, List.takeWhile_append_dropWhile]

theorem value_dropWhile (digits : List Nat) : value base (digits.dropWhile isZero) = value base digits := by
  rw [← value_replicate_append (leadingZeros digits), replicate_append_dropWhile]

/-- Without its leading zeros a string is the canonical one of its number. -/
theorem dropWhile_eq (hbase : 1 < base) {digits : List Nat} (h : ∀ d ∈ digits, d < base) :
    digits.dropWhile isZero = (Nat.digits base (value base digits)).reverse := by
  have hlt : ∀ d ∈ (digits.dropWhile isZero).reverse, d < base := by
    intro d hd
    exact h d ((List.dropWhile_sublist _).subset (List.mem_reverse.mp hd))
  rw [← value_dropWhile, value, Nat.digits_ofDigits base hbase _ hlt, List.reverse_reverse]
  intro hne
  have hne' : digits.dropWhile isZero ≠ [] := by simpa using hne
  have := List.head_dropWhile_not isZero hne'
  rw [List.getLast_reverse]
  simpa [isZero] using this

theorem leadingZeros_replicate_append {k : Nat} {digits : List Nat} (h : digits.dropWhile isZero = digits) :
    leadingZeros (List.replicate k 0 ++ digits) = k := by
  have hnil : digits.takeWhile isZero = [] := by
    have := List.takeWhile_append_dropWhile (p := isZero) (l := digits)
    rw [h] at this
    simpa using this
  have hall : ∀ d ∈ List.replicate k 0, isZero d = true := by
    intro d hd
    rw [List.eq_of_mem_replicate hd]
    rfl
  rw [leadingZeros, List.takeWhile_append_of_pos hall, hnil, List.append_nil, List.length_replicate]

theorem dropWhile_reverse_digits (hbase : 1 < base) (n : Nat) :
    (Nat.digits base n).reverse.dropWhile isZero = (Nat.digits base n).reverse := by
  rw [dropWhile_eq hbase, value_reverse_digits]
  intro d hd
  exact Nat.digits_lt_base hbase (List.mem_reverse.mp hd)

theorem recode_lt (htarget : 1 < target) {digits : List Nat} : ∀ d ∈ recode base target digits, d < target := by
  intro d hd
  rw [recode, List.mem_append] at hd
  cases hd with
  | inl hzero =>
    rw [List.eq_of_mem_replicate hzero]
    omega
  | inr hdigit => exact Nat.digits_lt_base htarget (List.mem_reverse.mp hdigit)

theorem recode_recode (hbase : 1 < base) (htarget : 1 < target) {digits : List Nat} (h : ∀ d ∈ digits, d < base) :
    recode target base (recode base target digits) = digits := by
  rw [recode, recode, value_replicate_append, value_reverse_digits,
    leadingZeros_replicate_append (dropWhile_reverse_digits htarget _), ← dropWhile_eq hbase h,
    replicate_append_dropWhile]

theorem length_recode (digits : List Nat) : (recode base target digits).length =
    leadingZeros digits + (Nat.digits target (value base (digits.dropWhile isZero))).length := by
  rw [recode, List.length_append, List.length_replicate, List.length_reverse, value_dropWhile]

theorem length_eq_add (digits : List Nat) :
    digits.length = leadingZeros digits + (digits.dropWhile isZero).length := by
  have := congrArg List.length (replicate_append_dropWhile digits)
  rw [List.length_append, List.length_replicate] at this
  exact this.symm

/-- The digits of a larger base are no more. -/
theorem length_recode_le (hbase : 1 < base) (hle : base ≤ target) {digits : List Nat} (h : ∀ d ∈ digits, d < base) :
    (recode base target digits).length ≤ digits.length := by
  have hlt : ∀ d ∈ digits.dropWhile isZero, d < base := fun d hd => h d ((List.dropWhile_sublist _).subset hd)
  rw [length_recode, length_eq_add digits, Nat.add_le_add_iff_left, Nat.digits_length_le_iff (by omega)]
  apply Nat.lt_of_lt_of_le (value_lt hbase hlt)
  exact Nat.pow_le_pow_left hle _

/-- Two digits of the smaller base give at least one of the larger base. -/
theorem le_length_recode (htarget : 1 < target) (hle : target ≤ base ^ 2) {digits : List Nat} :
    digits.length ≤ 2 * (recode base target digits).length := by
  have hlt := Nat.lt_base_pow_length_digits (b := target) (m := value base (digits.dropWhile isZero)) htarget
  rw [length_recode, length_eq_add digits]
  generalize hk : (Nat.digits target (value base (digits.dropWhile isZero))).length = k at hlt
  generalize hrest : digits.dropWhile isZero = rest at hlt
  cases rest with
  | nil =>
    rw [List.length_nil]
    omega
  | cons d rest =>
    have hpos : 0 < base := by
      apply Nat.pos_of_ne_zero
      intro hz
      rw [hz] at hle
      omega
    have hd : 0 < d := by
      have hne : digits.dropWhile isZero ≠ [] := by simp [hrest]
      have := List.head_dropWhile_not isZero hne
      simp only [hrest, List.head_cons] at this
      simpa [isZero, Nat.pos_iff_ne_zero] using this
    have hle' : base ^ rest.length ≤ value base (d :: rest) := by
      rw [value_cons]
      have := Nat.mul_le_mul_left (base ^ rest.length) hd
      omega
    have hpow : target ^ k ≤ base ^ (2 * k) := by
      rw [Nat.pow_mul]
      exact Nat.pow_le_pow_left hle k
    have : base ^ rest.length < base ^ (2 * k) := by omega
    have hbase : 1 < base := by
      apply Nat.lt_of_le_of_ne hpos
      intro heq
      rw [← heq, Nat.one_pow] at hle
      omega
    have := (Nat.pow_lt_pow_iff_right hbase).mp this
    rw [List.length_cons]
    omega

/--
`digits = digits * m + carry` in place, least significant digit first, in an array of `cells` cells of which the
first ones are the digits. Fails when the array is too short.
-/
def mulAdd (base m : Nat) : Nat → List Nat → Nat → Option (List Nat)
  | 0, _, carry => if carry = 0 then some [] else none
  | cells + 1, digits, carry =>
    if carry = 0 ∧ digits = [] then
      some []
    else
      let carry' := carry + m * digits.headD 0
      (mulAdd base m cells digits.tail (carry' / base)).map (fun rest => carry' % base :: rest)

theorem headD_digits (hbase : 1 < base) (n : Nat) : (Nat.digits base n).headD 0 = n % base := by
  cases n with
  | zero => simp
  | succ n => simp [Nat.digits_def' hbase]

theorem tail_digits (hbase : 1 < base) (n : Nat) : (Nat.digits base n).tail = Nat.digits base (n / base) := by
  cases n with
  | zero => simp
  | succ n => simp [Nat.digits_def' hbase]

theorem mulAdd_digits (hbase : 1 < base) {m : Nat} (hm : 0 < m) (cells n carry : Nat)
    (h : n * m + carry < base ^ cells) :
    mulAdd base m cells (Nat.digits base n) carry = some (Nat.digits base (n * m + carry)) := by
  induction cells generalizing n carry with
  | zero =>
    have hzero : n * m + carry = 0 := by simpa using h
    have hcarry : carry = 0 := by omega
    rw [mulAdd, if_pos hcarry, hzero, Nat.digits_zero]
  | succ cells ih =>
    have hcarry : (carry + m * (n % base)) / base + n / base * m = (n * m + carry) / base := by
      have hsplit : n * m + carry = carry + m * (n % base) + base * (n / base * m) := by
        conv => lhs; rw [← Nat.mod_add_div n base]
        rw [Nat.add_mul, Nat.mul_comm (n % base) m, Nat.mul_assoc]
        omega
      rw [hsplit, Nat.add_mul_div_left _ _ (by omega)]
    have hmod : (carry + m * (n % base)) % base = (n * m + carry) % base := by
      rw [Nat.add_mod, Nat.mul_mod, Nat.mod_mod, ← Nat.mul_mod, ← Nat.add_mod, Nat.add_comm, Nat.mul_comm]
    rw [mulAdd]
    split
    . next hend =>
      have hn : n = 0 := Nat.digits_eq_nil_iff_eq_zero.mp hend.2
      simp [hend.1, hn]
    . next hmore =>
      have hpos : 0 < n * m + carry := by
        apply Nat.pos_of_ne_zero
        intro hzero
        apply hmore
        have hn : n * m = 0 := by omega
        rw [Nat.digits_eq_nil_iff_eq_zero]
        exact ⟨by omega, (Nat.mul_eq_zero.mp hn).resolve_right (by omega)⟩
      simp only [headD_digits hbase, tail_digits hbase]
      rw [ih, Option.map_some, Nat.add_comm (n / base * m), hcarry, hmod, ← Nat.digits_def' hbase hpos]
      rw [Nat.add_comm, hcarry]
      apply Nat.div_lt_of_lt_mul
      rw [← Nat.pow_succ']
      exact h

/-- Long division of a string of digits; `r` is the remainder so far. -/
def divmod (base m : Nat) : Nat → List Nat → List Nat × Nat
  | r, [] => ([], r)
  | r, d :: digits =>
    let next := divmod base m ((r * base + d) % m) digits
    ((r * base + d) / m :: next.1, next.2)

theorem length_divmod (m r : Nat) (digits : List Nat) : (divmod base m r digits).1.length = digits.length := by
  induction digits generalizing r with
  | nil => rfl
  | cons d digits ih => rw [divmod, List.length_cons, ih, List.length_cons]

theorem divmod_remainder_lt {m r : Nat} (hr : r < m) (digits : List Nat) : (divmod base m r digits).2 < m := by
  induction digits generalizing r with
  | nil => exact hr
  | cons d digits ih =>
    rw [divmod]
    exact ih (Nat.mod_lt _ (by omega))

theorem divmod_lt {m r : Nat} (hr : r < m) {digits : List Nat} (h : ∀ d ∈ digits, d < base) :
    ∀ d ∈ (divmod base m r digits).1, d < base := by
  induction digits generalizing r with
  | nil => simp [divmod]
  | cons d digits ih =>
    rw [divmod, List.forall_mem_cons]
    rw [List.forall_mem_cons] at h
    constructor
    . apply Nat.div_lt_of_lt_mul
      have := Nat.mul_le_mul_right base (show r + 1 ≤ m from hr)
      rw [Nat.succ_mul] at this
      omega
    . exact ih (Nat.mod_lt _ (by omega)) h.2

theorem divmod_value (base m r : Nat) (digits : List Nat) :
    value base (divmod base m r digits).1 * m + (divmod base m r digits).2 =
      r * base ^ digits.length + value base digits := by
  induction digits generalizing r with
  | nil => simp [divmod, value_nil]
  | cons d digits ih =>
    rw [divmod, value_cons, value_cons, length_divmod, Nat.add_mul, Nat.add_right_comm, ih, List.length_cons,
      Nat.pow_succ]
    generalize base ^ digits.length = p
    have hdiv := Nat.div_add_mod (r * base + d) m
    calc
      (r * base + d) % m * p + value base digits + p * ((r * base + d) / m) * m
        = p * (m * ((r * base + d) / m) + (r * base + d) % m) + value base digits := by
          rw [Nat.mul_add, Nat.mul_comm _ p, Nat.mul_assoc, Nat.mul_comm _ m]
          omega
      _ = r * (p * base) + (value base digits + p * d) := by
          rw [hdiv, Nat.mul_add, Nat.mul_comm p (r * base), Nat.mul_assoc, Nat.mul_comm base p]
          omega

/--
Takes the remainders of the string by `target`, last digit first, in front of `out`, which has `cells` cells left.
A leading digit that became zero is dropped, one a round.
-/
def convert (base target : Nat) : Nat → List Nat → List Nat → Option (List Nat)
  | _, [], out => some out
  | 0, _ :: _, _ => none
  | cells + 1, d :: digits, out =>
    let next := divmod base target 0 (d :: digits)
    convert base target cells (if next.1.headD 0 = 0 then next.1.tail else next.1) (next.2 :: out)

section

variable {digits out out' : List Nat} {cells : Nat}

theorem value_drop_zero (digits : List Nat) :
    value base (if digits.headD 0 = 0 then digits.tail else digits) = value base digits := by
  split
  . next hzero =>
    cases digits with
    | nil => rfl
    | cons d digits =>
      rw [List.headD_cons] at hzero
      rw [hzero, List.tail_cons, value_cons, Nat.mul_zero, Nat.add_zero]
  . rfl

theorem convert_value (h : convert base target cells digits out = some out') :
    value target out' = value target out + target ^ out.length * value base digits := by
  induction cells generalizing digits out with
  | zero =>
    cases digits with
    | nil =>
      cases h
      rw [value_nil, Nat.mul_zero, Nat.add_zero]
    | cons d digits => cases h
  | succ cells ih =>
    cases digits with
    | nil =>
      cases h
      rw [value_nil, Nat.mul_zero, Nat.add_zero]
    | cons d digits =>
      have hdiv := divmod_value base target 0 (d :: digits)
      rw [Nat.zero_mul, Nat.zero_add] at hdiv
      rw [convert] at h
      rw [ih h, value_drop_zero, value_cons, List.length_cons, ← hdiv, Nat.pow_succ, Nat.mul_add,
        Nat.mul_comm _ target, Nat.mul_assoc]
      rw [Nat.mul_left_comm target, Nat.mul_comm target]
      omega

theorem convert_lt (htarget : 0 < target) (hout : ∀ d ∈ out, d < target)
    (h : convert base target cells digits out = some out') : ∀ d ∈ out', d < target := by
  induction cells generalizing digits out with
  | zero =>
    cases digits with
    | nil =>
      cases h
      exact hout
    | cons d digits => cases h
  | succ cells ih =>
    cases digits with
    | nil =>
      cases h
      exact hout
    | cons d digits =>
      rw [convert] at h
      apply ih _ h
      rw [List.forall_mem_cons]
      exact ⟨divmod_remainder_lt htarget _, hout⟩

/-- What `convert` returns, leading zeros dropped. -/
theorem convert_dropWhile (htarget : 1 < target) (h : convert base target cells digits [] = some out') :
    out'.dropWhile isZero = (Nat.digits target (value base digits)).reverse := by
  rw [dropWhile_eq htarget (convert_lt (by omega) (by simp) h), convert_value h]
  simp [value_nil]

theorem drop_zero_lt {m : Nat} (h : ∀ d ∈ digits, d < m) :
    ∀ d ∈ (if digits.headD 0 = 0 then digits.tail else digits), d < m := by
  split
  . intro d hd
    exact h d (List.mem_of_mem_tail hd)
  . exact h

/-- To a larger base each round takes a digit. -/
theorem convert_isSome_of_le (hle : base ≤ target) (h : ∀ d ∈ digits, d < base)
    (hcells : digits.length ≤ cells) : (convert base target cells digits out).isSome = true := by
  induction cells generalizing digits out with
  | zero =>
    rw [List.eq_nil_of_length_eq_zero (by omega : digits.length = 0)]
    rfl
  | succ cells ih =>
    cases digits with
    | nil => rfl
    | cons d digits =>
      have hd : d < base := h d List.mem_cons_self
      have hhead : (divmod base target 0 (d :: digits)).1.headD 0 = 0 := by
        rw [divmod, List.headD_cons, Nat.zero_mul, Nat.zero_add]
        exact Nat.div_eq_of_lt (by omega)
      rw [convert]
      apply ih
      . exact drop_zero_lt (divmod_lt (by omega) h)
      . rw [if_pos hhead, List.length_tail, length_divmod, List.length_cons]
        rw [List.length_cons] at hcells
        omega

/-- To a smaller base, but one that two digits of cover a digit, two rounds take a digit. -/
theorem convert_isSome_of_le_sq (hle : base ≤ target * target) (h : ∀ d ∈ digits, d < base)
    (hcells : 2 * digits.length ≤ cells ∨ 2 * digits.length ≤ cells + 1 ∧ digits.headD 0 < target) :
    (convert base target cells digits out).isSome = true := by
  induction cells generalizing digits out with
  | zero =>
    rw [List.eq_nil_of_length_eq_zero (by omega : digits.length = 0)]
    rfl
  | succ cells ih =>
    cases digits with
    | nil => rfl
    | cons d digits =>
      have hd : d < base := h d List.mem_cons_self
      have htarget : 0 < target := by
        apply Nat.pos_of_ne_zero
        intro hz
        rw [hz] at hle
        omega
      have hhead : (divmod base target 0 (d :: digits)).1.headD 0 = d / target := by
        rw [divmod, List.headD_cons, Nat.zero_mul, Nat.zero_add]
      have hlt : d / target < target := Nat.div_lt_of_lt_mul (by omega)
      rw [List.length_cons, List.headD_cons] at hcells
      rw [convert]
      apply ih
      . exact drop_zero_lt (divmod_lt htarget h)
      . simp only [hhead]
        split
        . next hzero =>
          rw [List.length_tail, length_divmod, List.length_cons]
          omega
        . next hne =>
          rw [length_divmod, List.length_cons, hhead]
          have : ¬d < target := fun hsmall => hne (Nat.div_eq_of_lt hsmall)
          omega

end

end Radix
