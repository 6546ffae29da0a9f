import RSX280.FpResult

/-!
# Decimal addition (`libs/bcdflt/fadd.mac`)

The mantissa of the number with the smaller exponent is moved to the right until the exponents are the same,
and the mantissas are added or subtracted. Of the number moved, the digits behind the last byte of the other
one are lost.
-/

namespace RSX280.Bcdflt

open Bcd (AllBcd IsBcd num dec)

/-! ### The routines -/

/-- The mantissa of `?DNOR0` and `?DNOR1`: moved to the right by `a` bytes. -/
def DNOR : ℕ → List ℕ → List ℕ
  | 0, m => m
  | a + 1, m => DNOR a (0 :: m.dropLast)

/-- `xor 80h`: the other sign. -/
def negated (e : ℕ) : ℕ := (e + 0x80) % 256

/-- From `fadd3` on: the exponents are equal. -/
def fadd3 (FR0 FR1 : Fp) : Fp × Bool :=
  if FR0.exp < 128 ↔ FR1.exp < 128 then
    let r := Bcd.add FR0.man FR1.man false
    if !r.2 then NORM ⟨FR0.exp, r.1⟩
    else NORM ⟨(FR0.exp + 1) % 256, 1 :: (DNOR 1 r.1).tail⟩
  else
    let r := Bcd.sub FR0.man FR1.man false
    if !r.2 then NORM ⟨FR0.exp, r.1⟩
    else NORM ⟨negated FR0.exp, (Bcd.sub (List.replicate 5 0) r.1 false).1⟩

/-- From `fadd2` on: the exponent of `FR1` is not the larger one. -/
def fadd2 (FR0 FR1 : Fp) : Fp × Bool :=
  let a := FR0.exp % 128 - FR1.exp % 128
  if a = 0 then fadd3 FR0 FR1
  else if 5 ≤ a then NORM FR0
  else fadd3 FR0 ⟨(FR1.exp + a) % 256, DNOR a FR1.man⟩

/-- `FADD`: `FR0`, and the carry. -/
def FADD (FR0 FR1 : Fp) : Fp × Bool :=
  if FR1.exp % 128 ≤ FR0.exp % 128 then fadd2 FR0 FR1 else fadd2 FR1 FR0

/-- `FSUB`. -/
def FSUB (FR0 FR1 : Fp) : Fp × Bool := FADD FR0 ⟨negated FR1.exp, FR1.man⟩

/-! ### What they should do -/

/-- The number without the digits that count less than `u`. -/
def trunc (u x : ℚ) : ℚ := (if 0 ≤ x then 1 else -1) * (⌊|x| / u⌋₊ * u)

/-- The sum with the smaller number cut at the last byte of the larger one. -/
def sum (a b : Fp) : ℚ :=
  if b.exp % 128 ≤ a.exp % 128 then value a + trunc (ulp a) (value b) else value b + trunc (ulp b) (value a)

/-- The smallest power of 100 that the mantissa of neither number gets to. -/
def top (a b : Fp) : ℚ := 100 ^ ((max (a.exp % 128) (b.exp % 128) : ℕ) - 63 : ℤ)

/-- The result is the exact sum, of which only a sixth byte is lost. -/
structure Sum (q : ℚ) (top : ℚ) (r : Fp × Bool) : Prop where
  result : Result q r
  exact_result : |q| < top → 100 ^ (-49 : ℤ) ≤ |q| → |q| < 100 ^ 49 → value r.1 = q

section

variable {a b : Fp} {m m₀ m₁ : List ℕ} {d e e₁ : ℕ}

/-! ### Moving to the right -/

theorem Mantissa.right (hm : Mantissa m) : Mantissa (0 :: m.dropLast) ∧ num (0 :: m.dropLast) = num m / 100 := by
  have length : m.dropLast.length = 4 := by
    rw [List.length_dropLast, hm.length]
  have split := List.dropLast_append_getLast hm.ne_nil
  have bcd : AllBcd (m.dropLast ++ [m.getLast hm.ne_nil]) := split.symm ▸ hm.bcd
  obtain ⟨front, last⟩ := Bcd.allBcd_append.mp bcd
  have digit := (last _ (List.mem_singleton_self _)).lt
  have zero : dec 0 = 0 := rfl
  have whole : num m = num m.dropLast * 100 + dec (m.getLast hm.ne_nil) := by
    conv_lhs => rw [← split, Bcd.num_append]
    simp only [num, List.length_singleton, List.length_nil, pow_zero, pow_one, Nat.mul_one, Nat.add_zero]
  refine ⟨⟨Bcd.allBcd_cons.mpr ⟨by decide, front⟩, congrArg Nat.succ length⟩, ?_⟩
  rw [num, zero, whole]
  omega

theorem DNOR_spec (hm : Mantissa m) : Mantissa (DNOR d m) ∧ num (DNOR d m) = num m / 100 ^ d := by
  induction d generalizing m with
  | zero => exact ⟨hm, (Nat.div_one _).symm⟩
  | succ d ih =>
    obtain ⟨hr, value⟩ := hm.right
    obtain ⟨hm', eq⟩ := ih hr
    refine ⟨hm', eq.trans ?_⟩
    rw [value, Nat.div_div_eq_div_mul, pow_succ']

/-! ### Equal exponents -/

theorem sgn_negated (byte : e < 256) : sgn (negated e) = -sgn e := by
  unfold sgn negated
  rcases Nat.lt_or_ge e 128 with plus | minus
  · rw [if_pos plus, if_neg (by omega)]
  · rw [if_pos (by omega), if_neg (by omega), neg_neg]

theorem ulp_negated (m m' : List ℕ) : ulp ⟨negated e, m⟩ = ulp ⟨e, m'⟩ := by
  have mod : negated e % 128 = e % 128 := by
    unfold negated
    omega
  unfold ulp
  dsimp only
  rw [mod]

/-- A sum with a mantissa of five bytes. -/
theorem NORM_sum {t : ℚ} (hm : Mantissa m) (byte : e < 256) (room : 4 ≤ e % 128) :
    Sum (sgn e * (num m * ulp ⟨e, m⟩)) t (NORM ⟨e, m⟩) := by
  have pos := ulp_pos ⟨e, m⟩
  obtain ⟨abs_eq, sign⟩ := sgn_spec e (x := num m * ulp ⟨e, m⟩) (by positivity)
  have result : Result (sgn e * (num m * ulp ⟨e, m⟩)) (NORM ⟨e, m⟩) :=
    NORM_result hm byte room sign abs_eq.ge (by rw [abs_eq]; linarith) fun _ => abs_eq
  exact ⟨result, fun _ low high => NORM_exact hm byte room rfl result low high⟩

/-- `fadd3` returns the sum of two numbers with one exponent. -/
theorem fadd3_sum {t : ℚ} (h₀ : Mantissa m₀) (h₁ : Mantissa m₁) (byte : e < 256) (least : 15 ≤ e % 128)
    (most : e % 128 ≤ 113) (ht : t = 100 ^ 5 * ulp ⟨e, m₀⟩) :
    Sum (sgn e * (num m₀ * ulp ⟨e, m₀⟩) + sgn e₁ * (num m₁ * ulp ⟨e, m₀⟩)) t (fadd3 ⟨e, m₀⟩ ⟨e₁, m₁⟩) := by
  have pos := ulp_pos ⟨e, m₀⟩
  have same_ulp (m : List ℕ) : ulp ⟨e, m⟩ = ulp ⟨e, m₀⟩ := rfl
  rw [fadd3]
  dsimp only
  split
  · next same =>
    have sign : sgn e₁ = sgn e := by
      unfold sgn
      simp only [same]
    have add := Bcd.add_spec false h₀.bcd h₁.bcd (h₀.length.trans h₁.length.symm)
    have value := add.value
    have hr : Mantissa (Bcd.add m₀ m₁ false).1 := ⟨add.bcd, add.length.trans h₀.length⟩
    have whole : sgn e * (num m₀ * ulp ⟨e, m₀⟩) + sgn e * (num m₁ * ulp ⟨e, m₀⟩) =
        sgn e * (((num m₀ + num m₁ : ℕ) : ℚ) * ulp ⟨e, m₀⟩) := by
      push_cast
      ring
    rw [h₀.length, Bool.toNat_false, Nat.add_zero] at value
    rw [sign, whole, ← value]
    cases carry : (Bcd.add m₀ m₁ false).2 with
    | false =>
      rw [Bool.not_false, if_pos rfl, Bool.toNat_false, Nat.mul_zero, Nat.add_zero, ← same_ulp]
      exact NORM_sum hr byte (by omega)
    | true =>
      rw [Bool.not_true, if_neg Bool.false_ne_true, Bool.toNat_true, Nat.mul_one]
      generalize (Bcd.add m₀ m₁ false).1 = r at hr
      obtain ⟨hr', value'⟩ := hr.right
      have tail : 1 :: (DNOR 1 r).tail = 1 :: r.dropLast := rfl
      have length : r.dropLast.length = 4 := Nat.succ.inj hr'.length
      have hm : Mantissa (1 :: r.dropLast) :=
        ⟨Bcd.allBcd_cons.mpr ⟨by decide, (Bcd.allBcd_cons.mp hr'.bcd).2⟩, congrArg Nat.succ length⟩
      have one : dec 1 = 1 := rfl
      have zero : dec 0 = 0 := rfl
      have digits : num (1 :: r.dropLast) = 100 ^ 4 + num r / 100 := by
        rw [← value', num, num, length, one, zero]
        ring
      have next : (e + 1) % 256 = e + 1 := by omega
      have step : ulp ⟨e + 1, 1 :: r.dropLast⟩ = 100 * ulp ⟨e, m₀⟩ := by
        have exps : (((e + 1) % 128 : ℕ) : ℤ) - 68 = 1 + (((e % 128 : ℕ) : ℤ) - 68) := by omega
        change (100 : ℚ) ^ ((((e + 1) % 128 : ℕ) : ℤ) - 68) = _
        rw [exps, hundred_zpow, zpow_one]
        rfl
      obtain ⟨abs_eq, sign⟩ := sgn_spec e (x := ((num r + 100 ^ 5 : ℕ) : ℚ) * ulp ⟨e, m₀⟩) (by positivity)
      have same : e + 1 < 128 ↔ e < 128 := by omega
      have below : 100 * (num r / 100) ≤ num r := Nat.mul_div_le _ _
      have above : num r < 100 * (num r / 100) + 100 := by omega
      have below' : (100 : ℚ) * (num r / 100 : ℕ) ≤ num r := by exact_mod_cast below
      have above' : (num r : ℚ) < 100 * (num r / 100 : ℕ) + 100 := by exact_mod_cast above
      rw [tail, next]
      refine ⟨NORM_result hm (by omega) (by omega) (fun ne => (sign ne).trans same.symm) ?_ ?_ ?_, fun small => ?_⟩
      · rw [abs_eq, digits, step]
        push_cast
        nlinarith
      · rw [abs_eq, digits, step]
        push_cast
        nlinarith
      · rw [digits]
        omega
      · rw [abs_eq, ht] at small
        push_cast at small
        have : (0 : ℚ) ≤ num r := Nat.cast_nonneg _
        nlinarith
  · next other =>
    have sign : sgn e₁ = -sgn e := by
      unfold sgn
      rcases Nat.lt_or_ge e 128 with plus | minus
      · rw [if_pos plus, if_neg fun plus₁ => other (iff_of_true plus plus₁)]
      · rw [if_neg (Nat.not_lt_of_le minus), neg_neg, if_pos]
        by_contra minus₁
        exact other (iff_of_false (Nat.not_lt_of_le minus) minus₁)
    obtain ⟨bcd, length, value⟩ := Bcd.sub_spec false h₀.bcd h₁.bcd (h₀.length.trans h₁.length.symm)
    have hr : Mantissa (Bcd.sub m₀ m₁ false).1 := ⟨bcd, length.trans h₀.length⟩
    rw [h₀.length, Bool.toNat_false, Nat.add_zero] at value
    rw [sign]
    cases borrow : (Bcd.sub m₀ m₁ false).2 with
    | false =>
      rw [borrow, Bool.toNat_false, Nat.mul_zero, Nat.add_zero] at value
      have whole : sgn e * (num m₀ * ulp ⟨e, m₀⟩) + -sgn e * (num m₁ * ulp ⟨e, m₀⟩) =
          sgn e * (num (Bcd.sub m₀ m₁ false).1 * ulp ⟨e, (Bcd.sub m₀ m₁ false).1⟩) := by
        rw [← value, same_ulp (Bcd.sub m₀ m₁ false).1]
        push_cast
        ring
      rw [Bool.not_false, if_pos rfl, whole]
      exact NORM_sum hr byte (by omega)
    | true =>
      rw [borrow, Bool.toNat_true, Nat.mul_one] at value
      generalize (Bcd.sub m₀ m₁ false).1 = r at hr value
      obtain ⟨bcd', length', value'⟩ := Bcd.sub_spec (x := List.replicate 5 0) false
        (Bcd.allBcd_replicate_zero 5) hr.bcd (List.length_replicate.trans hr.length.symm)
      rw [List.length_replicate, Bcd.num_replicate_zero, Bool.toNat_false, Nat.add_zero, Nat.zero_add] at value'
      rw [List.length_replicate] at length'
      have lt := hr.lt
      have lt₀ := h₀.lt
      have lt₁ := h₁.lt
      have digits : num (Bcd.sub (List.replicate 5 0) r false).1 + num m₀ = num m₁ := by
        have lt' : num (Bcd.sub (List.replicate 5 0) r false).1 < 100 ^ 5 := Mantissa.lt ⟨bcd', length'⟩
        cases h : (Bcd.sub (List.replicate 5 0) r false).2 with
        | false =>
          rw [h, Bool.toNat_false] at value'
          omega
        | true =>
          rw [h, Bool.toNat_true] at value'
          omega
      generalize (Bcd.sub (List.replicate 5 0) r false).1 = z at bcd' length' digits
      have whole : sgn e * (num m₀ * ulp ⟨e, m₀⟩) + -sgn e * (num m₁ * ulp ⟨e, m₀⟩) =
          sgn (negated e) * (num z * ulp ⟨negated e, z⟩) := by
        rw [sgn_negated byte, ulp_negated z m₀, ← digits]
        push_cast
        ring
      have mod : negated e % 128 = e % 128 ∧ negated e < 256 := by
        unfold negated
        omega
      rw [Bool.not_true, if_neg Bool.false_ne_true, whole]
      exact NORM_sum ⟨bcd', length'⟩ mod.2 (by omega)

/-! ### `FADD` -/

/-- A register that is a normal number, with any sign for zero. -/
structure Arg (fr : Fp) : Prop where
  byte : fr.exp < 256
  mantissa : Mantissa fr.man
  normal : (fr.exp % 128 = 0 ∧ num fr.man = 0) ∨ (15 ≤ fr.exp % 128 ∧ fr.exp % 128 ≤ 113)

theorem Normal.arg (h : Normal a) : Arg a := by
  rcases h with rfl | h
  · exact ⟨by decide, ⟨by decide, rfl⟩, Or.inl ⟨rfl, Bcd.num_replicate_zero 5⟩⟩
  · exact ⟨h.byte, ⟨h.bcd, h.length⟩, Or.inr ⟨h.least, h.most⟩⟩

theorem Arg.negated (h : Arg a) : Arg ⟨negated a.exp, a.man⟩ := by
  have byte := h.byte
  have mod : Bcdflt.negated a.exp % 128 = a.exp % 128 ∧ Bcdflt.negated a.exp < 256 := by
    unfold Bcdflt.negated
    omega
  exact ⟨mod.2, h.mantissa, by dsimp only; rw [mod.1]; exact h.normal⟩

/-- What is cut off of the number moved by `d` bytes. -/
theorem trunc_eq (he : e % 128 = e₁ % 128 + d) :
    trunc (ulp ⟨e, m⟩) (value ⟨e₁, m₁⟩) = sgn e₁ * ((num m₁ / 100 ^ d : ℕ) * ulp ⟨e, m⟩) := by
  have pos := ulp_pos ⟨e, m⟩
  have step : ulp ⟨e, m⟩ = 100 ^ d * ulp ⟨e₁, m₁⟩ := by
    have exps : (((e % 128 : ℕ) : ℤ)) - 68 = d + (((e₁ % 128 : ℕ) : ℤ) - 68) := by
      rw [he]
      push_cast
      ring
    change (100 : ℚ) ^ (((e % 128 : ℕ) : ℤ) - 68) = _
    rw [exps, hundred_zpow, zpow_natCast]
    rfl
  have pos₁ := ulp_pos ⟨e₁, m₁⟩
  have floor : ⌊|value ⟨e₁, m₁⟩| / ulp ⟨e, m⟩⌋₊ = num m₁ / 100 ^ d := by
    rw [abs_value, step, mul_div_mul_right _ _ pos₁.ne']
    have cast : ((100 : ℚ) ^ d) = ((100 ^ d : ℕ) : ℚ) := by push_cast; rfl
    rw [cast, Nat.floor_div_eq_div]
  rw [trunc, floor]
  by_cases zero : num m₁ = 0
  · rw [zero, Nat.zero_div, Nat.cast_zero, zero_mul, mul_zero, mul_zero]
  · have some : 0 < (num m₁ : ℚ) * ulp ⟨e₁, m₁⟩ := mul_pos (by exact_mod_cast Nat.pos_of_ne_zero zero) pos₁
    congr 1
    rw [value_sgn]
    unfold sgn
    dsimp only
    split_ifs with plus pos minus
    · rfl
    · exact absurd (by linarith) pos
    · linarith
    · rfl

theorem fadd3_zero (h₀ : Mantissa m₀) (h₁ : Mantissa m₁) (none : num m₀ = 0) (none₁ : num m₁ = 0) :
    fadd3 ⟨e, m₀⟩ ⟨e₁, m₁⟩ = (ZFR0, false) := by
  obtain rfl := h₀.zero none
  obtain rfl := h₁.zero none₁
  have add : Bcd.add (List.replicate 5 0) (List.replicate 5 0) false = (List.replicate 5 0, false) := by decide
  have sub : Bcd.sub (List.replicate 5 0) (List.replicate 5 0) false = (List.replicate 5 0, false) := by decide
  rw [fadd3]
  dsimp only
  rw [add, sub]
  split <;> exact NORM_zero h₀ none

theorem sum_zero {t : ℚ} : Sum 0 t (ZFR0, false) := ⟨result_zero, fun _ _ _ => value_ZFR0⟩

/-- `fadd2` adds to the number with the larger exponent. -/
theorem fadd2_sum (ha : Arg a) (hb : Arg b) (le : b.exp % 128 ≤ a.exp % 128) :
    Sum (value a + trunc (ulp a) (value b)) (100 ^ 5 * ulp a) (fadd2 a b) := by
  obtain ⟨e, m₀⟩ := a
  obtain ⟨e₁, m₁⟩ := b
  have byte : e < 256 := ha.byte
  have hm₀ : Mantissa m₀ := ha.mantissa
  have hm₁ : Mantissa m₁ := hb.mantissa
  obtain ⟨d, he⟩ : ∃ d, e % 128 = e₁ % 128 + d := ⟨e % 128 - e₁ % 128, by dsimp only at le; omega⟩
  have diff : e % 128 - e₁ % 128 = d := by omega
  rw [trunc_eq he, value_sgn, fadd2]
  dsimp only
  rw [diff]
  rcases ha.normal with ⟨zero, none⟩ | ⟨least, most⟩
  · -- both numbers are zero
    have none : num m₀ = 0 := none
    have none₁ : num m₁ = 0 := (hb.normal.resolve_right fun least => by
      dsimp only at zero least
      omega).2
    obtain rfl : d = 0 := by
      dsimp only at zero
      omega
    rw [if_pos rfl, fadd3_zero hm₀ hm₁ none none₁, none, none₁]
    simp only [Nat.zero_div, Nat.cast_zero, zero_mul, mul_zero, add_zero]
    exact sum_zero
  by_cases equal : d = 0
  · subst equal
    rw [if_pos rfl, pow_zero, Nat.div_one]
    exact fadd3_sum hm₀ hm₁ byte least most rfl
  rw [if_neg equal]
  by_cases far : 5 ≤ d
  · have lost : num m₁ / 100 ^ d = 0 := by
      rw [Nat.div_eq_zero_iff]
      exact Or.inr (hm₁.lt.trans_le (Nat.pow_le_pow_right (by decide) far))
    rw [if_pos far, lost, Nat.cast_zero, zero_mul, mul_zero, add_zero]
    exact NORM_sum hm₀ byte (by dsimp only at least; omega)
  · obtain ⟨hm, value⟩ := DNOR_spec (d := d) hm₁
    rw [if_neg far, ← value]
    have sign : sgn e₁ = sgn ((e₁ + d) % 256) := by
      have byte₁ : e₁ < 256 := hb.byte
      have same : (e₁ + d) % 256 < 128 ↔ e₁ < 128 := by omega
      unfold sgn
      simp only [same]
    rw [sign]
    exact fadd3_sum hm₀ hm byte least most rfl

theorem top_eq (le : b.exp % 128 ≤ a.exp % 128) : top a b = 100 ^ 5 * ulp a := by
  have exps : ((max (a.exp % 128) (b.exp % 128) : ℕ) : ℤ) - 63 = 5 + (((a.exp % 128 : ℕ) : ℤ) - 68) := by
    rw [max_eq_left le]
    ring
  rw [top, exps, hundred_zpow]
  rfl

theorem FADD_arg (ha : Arg a) (hb : Arg b) : Sum (sum a b) (top a b) (FADD a b) := by
  rw [FADD, sum]
  split
  · next le =>
    rw [top_eq le]
    exact fadd2_sum ha hb le
  · next gt =>
    have le := Nat.le_of_not_le gt
    have comm : top a b = top b a := by rw [top, top, Nat.max_comm]
    rw [comm, top_eq le]
    exact fadd2_sum hb ha le

/-- `FADD` returns the sum. -/
theorem FADD_sum (ha : Normal a) (hb : Normal b) : Sum (sum a b) (top a b) (FADD a b) :=
  FADD_arg ha.arg hb.arg

/-- `FSUB` returns the difference. -/
theorem FSUB_sum (ha : Normal a) (hb : Normal b) :
    Sum (sum a ⟨negated b.exp, b.man⟩) (top a b) (FSUB a b) := by
  have mod : negated b.exp % 128 = b.exp % 128 := by
    unfold negated
    omega
  have same : top a ⟨negated b.exp, b.man⟩ = top a b := by
    rw [top, top]
    dsimp only
    rw [mod]
  rw [← same]
  exact FADD_arg ha.arg hb.arg.negated

theorem value_negated (byte : b.exp < 256) : value ⟨negated b.exp, b.man⟩ = -value b := by
  rw [value_sgn, value_sgn, sgn_negated byte, ulp_negated b.man b.man, neg_mul]

end

end RSX280.Bcdflt
