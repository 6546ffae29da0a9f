import RSX280.Fmul

/-!
# Decimal division (`libs/bcdflt/fdiv.mac`)

The dividend is in `?FRX`. For each byte of the quotient ten times the divisor is subtracted as often as that
is possible, and then the divisor, and both registers are moved to the left by a byte. Six bytes are computed,
because the first one may be zero.
-/

namespace RSX280.Bcdflt

open Bcd (AllBcd IsBcd num dec rol)

/-! ### The routines -/

/-- The loops `fdv3` and `fdv6` with what is behind them: `y` is subtracted from `?FRX` and counted in `d`, the
last byte of `FR0`, and is added again when there is a borrow, or when the count is zero. -/
def fdv3 (y : List ℕ) : ℕ → List ℕ → ℕ → List ℕ × ℕ
  | 0, FRX, d => (FRX, d)
  | fuel + 1, FRX, d =>
    let r := Bcd.sub FRX y false
    if r.2 then (ADDFR r.1 y, d)
    else if (d + 1) % 256 = 0 then (ADDFR r.1 y, 0)
    else fdv3 y fuel r.1 (d + 1)

/-- The loop from `fdv3` on, with `b` in `B`. -/
def fdv1 (FR1 : Fp) : ℕ → List ℕ × List ℕ → List ℕ × List ℕ
  | 0, r => r
  | b + 1, (FR0, FRX) =>
    let high := fdv3 (FR2 FR1) 256 FRX (FR0.getLastD 0)
    let low := fdv3 (cleared FR1) 256 high.1 (16 * high.2 % 256)
    let FR0 := FR0.dropLast ++ [low.2]
    if b = 0 then (FR0, low.1)
    else fdv1 FR1 b (FR0.tail ++ [low.1.headD 0], low.1.tail ++ [0])

/-- `FDIV`: `FR0`, and the carry. -/
def FDIV (FR0 FR1 : Fp) : Fp × Bool :=
  if FR1.exp = 0 then (FR0, true)
  else if FR0.exp = 0 then (FR0, false)
  else
    let A := (FR0.exp % 128 + 256 - FR1.exp % 128 + 0x40) % 256
    if 128 ≤ A then (FR0, true)
    else
      let r := RORDP (fdv1 FR1 6 (List.replicate 6 0, cleared FR0))
      NORMX ⟨MDSGN FR0 FR1 + A, r.1.tail⟩ (r.2.headD 0)

section

variable {a b : Fp} {f x y : List ℕ} {d n k : ℕ}

/-! ### The digits -/

/-- The number is subtracted `n` times. -/
theorem fdv3_spec {s : ℕ} (hx : AllBcd x) (hy : AllBcd y) (hl : x.length = y.length) (small : s < num y)
    (eq : num x = n * num y + s) (hd : d + n < 256) (fuel : n < k) :
    ∃ x', fdv3 y k x d = (x', d + n) ∧ AllBcd x' ∧ x'.length = y.length ∧ num x' = s := by
  induction n generalizing x d k with
  | zero =>
    obtain ⟨k, rfl⟩ := Nat.exists_eq_succ_of_ne_zero (Nat.ne_of_gt fuel)
    rw [Nat.zero_mul, Nat.zero_add] at eq
    obtain ⟨bcd, length, value⟩ := Bcd.sub_spec false hx hy hl
    have lt := bcd.lt
    rw [Bool.toNat_false, Nat.add_zero] at value
    rw [fdv3]
    cases borrow : (Bcd.sub x y false).2 with
    | false =>
      rw [borrow, Bool.toNat_false] at value
      omega
    | true =>
      rw [borrow, Bool.toNat_true, Nat.mul_one] at value
      have sum := Bcd.add_spec false bcd hy (length.trans hl)
      have back := sum.value
      have lt' := sum.bcd.lt
      rw [sum.length] at lt'
      rw [Bool.toNat_false, Nat.add_zero, value, length] at back
      rw [length] at lt'
      have same : num (ADDFR (Bcd.sub x y false).1 y) = num x := by
        rw [ADDFR]
        have lt_x := hx.lt
        cases carry : (Bcd.add (Bcd.sub x y false).1 y false).2 with
        | false =>
          rw [carry, Bool.toNat_false] at back
          omega
        | true =>
          rw [carry, Bool.toNat_true] at back
          omega
      rw [if_pos rfl]
      exact ⟨_, rfl, sum.bcd, sum.length.trans (length.trans hl), same.trans eq⟩
  | succ n ih =>
    obtain ⟨k, rfl⟩ := Nat.exists_eq_succ_of_ne_zero (Nat.ne_of_gt (Nat.zero_lt_of_lt fuel))
    rw [Nat.succ_mul] at eq
    obtain ⟨bcd, length, value⟩ := Bcd.sub_spec false hx hy hl
    have lt := bcd.lt
    rw [Bool.toNat_false, Nat.add_zero] at value
    rw [fdv3]
    cases borrow : (Bcd.sub x y false).2 with
    | true =>
      rw [borrow, Bool.toNat_true, Nat.mul_one] at value
      rw [length] at lt
      omega
    | false =>
      rw [borrow, Bool.toNat_false] at value
      obtain ⟨x', run, more⟩ := ih (k := k) (d := d + 1) bcd (length.trans hl) (by omega) (by omega)
        (Nat.lt_of_succ_lt_succ fuel)
      rw [if_neg Bool.false_ne_true, if_neg (by omega), run]
      exact ⟨x', by rw [Nat.add_assoc, Nat.add_comm 1], more⟩

theorem head_zero (hl : x.length = 6) (small : num x < 100 ^ 5) : ∃ y, x = 0 :: y := by
  obtain ⟨c, y, rfl⟩ := List.exists_cons_of_length_eq_add_one hl
  rw [num, Nat.succ.inj hl] at small
  have top : dec c = 0 := by omega
  exact ⟨y, by rw [Bcd.IsBcd.dec_eq_zero.mp top]⟩

/-- One byte of the quotient. -/
theorem fdv_byte (hb : Mantissa b.man) (hx : AllBcd x) (hl : x.length = 6) (lt : num x < 100 * num b.man) :
    ∃ u d x', fdv3 (FR2 b) 256 x 0 = (u, d) ∧ ∃ c, fdv3 (cleared b) 256 u (16 * d % 256) = (x', c) ∧ IsBcd c ∧
      AllBcd x' ∧ x'.length = 6 ∧ num x' < num b.man ∧ num x = dec c * num b.man + num x' := by
  obtain ⟨bcd₁, length₁, value₁⟩ := cleared_spec hb
  obtain ⟨bcd₂, length₂, value₂⟩ := FR2_spec hb
  have pos : 0 < num b.man := by omega
  have high : num x / (10 * num b.man) < 10 := by
    rw [Nat.div_lt_iff_lt_mul (by omega)]
    omega
  have rest := Nat.mod_lt (num x) (show 0 < 10 * num b.man by omega)
  have low : num x % (10 * num b.man) / num b.man < 10 := by
    rw [Nat.div_lt_iff_lt_mul pos]
    exact rest
  have split := Nat.div_add_mod (num x) (10 * num b.man)
  have split' := Nat.div_add_mod (num x % (10 * num b.man)) (num b.man)
  have rest' := Nat.mod_lt (num x % (10 * num b.man)) pos
  generalize num x / (10 * num b.man) = h at high split
  generalize num x % (10 * num b.man) = r at rest low split split' rest'
  generalize r / num b.man = l at low split'
  generalize r % num b.man = s at split' rest'
  obtain ⟨u, run, bcd_u, length_u, value_u⟩ := fdv3_spec (n := h) (d := 0) (k := 256) (s := r) hx bcd₂
    (hl.trans length₂.symm) (by rw [value₂]; exact rest) (by rw [value₂, ← split]; ring) (by omega) (by omega)
  obtain ⟨x', run', bcd', length', value'⟩ := fdv3_spec (n := l) (d := 16 * h) (k := 256) (s := s) bcd_u bcd₁
    (length_u.trans (length₂.trans length₁.symm)) (by rw [value₁]; exact rest')
    (by rw [value₁, value_u, ← split']; ring) (by omega) (by omega)
  rw [Nat.zero_add] at run
  refine ⟨u, h, x', run, 16 * h + l, ?_, ?_, bcd', length'.trans length₁, value'.trans_lt rest', ?_⟩
  · rw [Nat.mod_eq_of_lt (by omega)]
    exact run'
  · unfold IsBcd
    omega
  · have byte : dec (16 * h + l) = 10 * h + l := by
      unfold dec
      omega
    rw [byte, value', ← split, ← split']
    ring

/-! ### The loop -/

/-- `FR0` has the bytes `f` of the quotient so far and a zero behind them. -/
theorem fdv1_spec (hb : Mantissa b.man) (hf : AllBcd f) (lf : f.length = 5) (hx : AllBcd x) (hl : x.length = 6)
    (lt : num x < 100 * num b.man) (hn : n ≤ 5) (room : num f < 100 ^ (5 - n)) :
    ∃ q x', fdv1 b (n + 1) (f ++ [0], x) = (q, x') ∧ AllBcd q ∧ q.length = 6 ∧ num x' < num b.man ∧
      num b.man * num q + num x' = (100 * num b.man * num f + num x) * 100 ^ n := by
  induction n generalizing f x with
  | zero =>
    obtain ⟨u, d, x', run, c, run', hc, bcd, length, small, value⟩ := fdv_byte hb hx hl lt
    refine ⟨f ++ [c], x', ?_, Bcd.allBcd_append.mpr ⟨hf, List.forall_mem_singleton.mpr hc⟩, ?_, small, ?_⟩
    · rw [fdv1, List.getLastD_concat, run]
      dsimp only
      rw [run', if_pos rfl, List.dropLast_concat]
    · rw [List.length_append, lf]
      rfl
    · rw [Bcd.num_append, pow_zero, Nat.mul_one, value]
      simp only [num, List.length_singleton, List.length_nil, pow_zero, pow_one, Nat.mul_one, Nat.add_zero]
      ring
  | succ n ih =>
    obtain ⟨u, d, x', run, c, run', hc, bcd, length, small, value⟩ := fdv_byte hb hx hl lt
    have bound := hb.lt
    have hcl := hc.lt
    have power : 100 ^ (5 - n) = 100 * 100 ^ (5 - (n + 1)) := by
      rw [show 5 - n = 5 - (n + 1) + 1 by omega, pow_succ']
    have le : 100 ^ (5 - n) ≤ 100 ^ 5 := Nat.pow_le_pow_right (by decide) (Nat.sub_le 5 n)
    have bcd_fc : AllBcd (f ++ [c]) := Bcd.allBcd_append.mpr ⟨hf, List.forall_mem_singleton.mpr hc⟩
    have value_fc : num (f ++ [c]) = 100 * num f + dec c := by
      rw [Bcd.num_append]
      simp only [num, List.length_singleton, List.length_nil, pow_zero, pow_one, Nat.mul_one, Nat.add_zero]
      ring
    have length_fc : (f ++ [c]).length = 6 := by
      rw [List.length_append, lf]
      rfl
    -- the bytes that are moved out are zero
    obtain ⟨f', eq_f⟩ := head_zero length_fc (by rw [value_fc]; omega)
    obtain ⟨y, eq_x⟩ := head_zero length (by omega)
    have zero : dec 0 = 0 := rfl
    have value_f' : num f' = 100 * num f + dec c := by
      rw [← value_fc, eq_f, num, zero, Nat.zero_mul, Nat.zero_add]
    have length_f' : f'.length = 5 := by
      rw [eq_f] at length_fc
      exact Nat.succ.inj length_fc
    have value_y : num y = num x' := by
      rw [eq_x, num, zero, Nat.zero_mul, Nat.zero_add]
    have length_y : y.length = 5 := by
      rw [eq_x] at length
      exact Nat.succ.inj length
    rw [eq_f] at bcd_fc
    rw [eq_x] at bcd
    have value_next : num (y ++ [0]) = 100 * num x' := by
      rw [Bcd.num_append, value_y]
      simp only [num, zero, List.length_singleton, List.length_nil, pow_zero, pow_one, Nat.mul_one, Nat.add_zero]
      ring
    obtain ⟨q, x'', rest, bcd_q, length_q, small', value'⟩ := ih (f := f') (x := y ++ [0])
      (Bcd.allBcd_cons.mp bcd_fc).2 length_f'
      (Bcd.allBcd_append.mpr ⟨(Bcd.allBcd_cons.mp bcd).2, by decide⟩)
      (by rw [List.length_append, length_y]; rfl) (by rw [value_next]; omega) (by omega)
      (by rw [value_f']; omega)
    refine ⟨q, x'', ?_, bcd_q, length_q, small', ?_⟩
    · rw [fdv1, List.getLastD_concat, run]
      dsimp only
      rw [run', if_neg (Nat.succ_ne_zero n), List.dropLast_concat, eq_f, eq_x]
      exact rest
    · rw [value', value_next, value_f', value, pow_succ]
      ring

/-! ### `FDIV` -/

theorem FDIV_nonzero (ha : Nonzero a) (hb : Nonzero b) (room : b.exp % 128 < a.exp % 128 + 64) :
    Result (value a / value b) (FDIV a b) := by
  have hma : Mantissa a.man := ⟨ha.bcd, ha.length⟩
  have hmb : Mantissa b.man := ⟨hb.bcd, hb.length⟩
  have lowa := num_of_first ha.length ha.first
  have lowb := num_of_first hb.length hb.first
  have smalla := hma.lt
  have smallb := hmb.lt
  obtain ⟨bytea, leasta, mosta⟩ : a.exp < 256 ∧ 15 ≤ a.exp % 128 ∧ a.exp % 128 ≤ 113 := ⟨ha.byte, ha.least, ha.most⟩
  obtain ⟨byteb, leastb, mostb⟩ : b.exp < 256 ∧ 15 ≤ b.exp % 128 ∧ b.exp % 128 ≤ 113 := ⟨hb.byte, hb.least, hb.most⟩
  have sum : (a.exp % 128 + 256 - b.exp % 128 + 0x40) % 256 = a.exp % 128 + 64 - b.exp % 128 := by omega
  have posa := ulp_pos a
  have posb := ulp_pos b
  have hN : (0 : ℚ) < num b.man := by exact_mod_cast (show 0 < num b.man by omega)
  have quotient : value a / value b = sgn a.exp * sgn b.exp * (num a.man / num b.man * (ulp a / ulp b)) := by
    have inverse : (sgn b.exp)⁻¹ = sgn b.exp := by
      unfold sgn
      split <;> norm_num
    rw [value_sgn, value_sgn, div_eq_mul_inv, mul_inv, mul_inv, inverse]
    ring
  have ulps : ulp a / ulp b = 100 ^ (((a.exp % 128 : ℕ) : ℤ) - ((b.exp % 128 : ℕ) : ℤ)) := by
    unfold ulp
    rw [← zpow_sub₀ (by norm_num)]
    congr 1
    ring
  have abs_eq := abs_sgn_mul (x := num a.man / num b.man * (ulp a / ulp b)) (by positivity) a.exp b.exp
  rw [FDIV, if_neg (by omega), if_neg (by omega)]
  dsimp only
  rw [sum, quotient]
  split
  · next high =>
    -- the exponent is so large that the quotient is, too
    have big : (100 : ℚ) ^ 49 ≤ |value a / value b| := by
      have digits : (100 : ℚ) ^ (-1 : ℤ) ≤ num a.man / num b.man := by
        rw [le_div_iff₀ hN]
        have la : (100 ^ 4 : ℚ) ≤ num a.man := by exact_mod_cast lowa
        have lb : (num b.man : ℚ) < 100 ^ 5 := by exact_mod_cast smallb
        rw [zpow_neg_one]
        linarith
      rw [quotient, abs_eq, ulps]
      calc (100 : ℚ) ^ 49 ≤ 100 ^ (-1 : ℤ) * 100 ^ (64 : ℤ) := by norm_num
        _ ≤ num a.man / num b.man * 100 ^ (((a.exp % 128 : ℕ) : ℤ) - ((b.exp % 128 : ℕ) : ℤ)) :=
          mul_le_mul digits (zpow_le_zpow_right₀ (by norm_num) (by omega)) (by positivity) (by positivity)
    rw [← quotient]
    exact ⟨fun below => absurd (below.trans (by norm_num)) (not_lt.mpr big), fun _ => rfl,
      fun _ under => absurd under (not_lt.mpr big)⟩
  · next fits =>
    obtain ⟨bcd₁, length₁, value₁⟩ := cleared_spec hma
    have zeros : num (List.replicate 5 0) = 0 := Bcd.num_replicate_zero 5
    obtain ⟨q, x', run, bcd, length, small, eq⟩ := fdv1_spec (f := List.replicate 5 0) (n := 5) hmb
      (Bcd.allBcd_replicate_zero 5) rfl bcd₁ length₁ (by rw [value₁]; omega) (Nat.le_refl 5)
      (by rw [zeros]; exact Nat.one_pos)
    have shape : List.replicate 6 0 = List.replicate 5 0 ++ [0] := rfl
    rw [zeros, value₁, Nat.mul_zero, Nat.zero_add] at eq
    rw [shape, run]
    have ne : q ≠ [] := by
      rintro rfl
      cases length
    obtain ⟨f, w, rfl⟩ : ∃ f w, q = f ++ [w] :=
      ⟨q.dropLast, q.getLast ne, (List.dropLast_append_getLast ne).symm⟩
    obtain ⟨hf, hw⟩ := Bcd.allBcd_append.mp bcd
    have hw : IsBcd w := hw w (List.mem_singleton_self w)
    have hf : Mantissa f := by
      refine ⟨hf, ?_⟩
      rw [List.length_append, List.length_singleton] at length
      exact Nat.succ.inj length
    have digits : num (f ++ [w]) = 100 * num f + dec w := by
      rw [Bcd.num_append]
      simp only [num, List.length_singleton, List.length_nil, pow_zero, pow_one, Nat.mul_one, Nat.add_zero]
      ring
    have moved : RORDP (f ++ [w], x') = (0 :: f, w :: x'.dropLast) := by
      rw [RORDP]
      dsimp only
      rw [List.dropLast_concat, List.getLastD_concat]
    rw [moved]
    rw [digits] at eq
    have below : num b.man * (100 * num f + dec w) ≤ num a.man * 100 ^ 5 := by omega
    have above : num a.man * 100 ^ 5 < num b.man * (100 * num f + dec w + 1) := by
      rw [Nat.mul_succ]
      omega
    have large : 100 ^ 4 ≤ 100 * num f + dec w := by
      by_contra less
      have le : 100 * num f + dec w + 1 ≤ 100 ^ 4 := by omega
      have := Nat.mul_le_mul_left (num b.man) le
      omega
    have exponent : MDSGN a b + (a.exp % 128 + 64 - b.exp % 128) < 256 ∧
        (MDSGN a b + (a.exp % 128 + 64 - b.exp % 128)) % 128 = a.exp % 128 + 64 - b.exp % 128 ∧
        (MDSGN a b + (a.exp % 128 + 64 - b.exp % 128) - 1) % 128 = a.exp % 128 + 63 - b.exp % 128 := by
      unfold MDSGN
      split_ifs <;> omega
    obtain ⟨byte, mod, mod'⟩ := exponent
    have units : 0 < ulp a / ulp b := div_pos posa posb
    have unit : ulp ⟨MDSGN a b + (a.exp % 128 + 64 - b.exp % 128) - 1, f⟩ = ulp a / ulp b / 100 ^ 5 := by
      have exps : ((a.exp % 128 + 63 - b.exp % 128 : ℕ) : ℤ) - 68 =
          (((a.exp % 128 : ℕ) : ℤ) - ((b.exp % 128 : ℕ) : ℤ)) + -5 := by omega
      change (100 : ℚ) ^ (((MDSGN a b + (a.exp % 128 + 64 - b.exp % 128) - 1) % 128 : ℕ) - 68 : ℤ) = _
      rw [mod', exps, hundred_zpow, ← ulps]
      norm_num
      ring
    have sign := sgn_mul byteb bytea (a.exp % 128 + 64 - b.exp % 128) (by omega)
    have positive : 0 < (num a.man / num b.man : ℚ) * (ulp a / ulp b) := by
      have : (0 : ℚ) < num a.man := by exact_mod_cast (show 0 < num a.man by omega)
      positivity
    change Result _ (NORMX ⟨MDSGN a b + (a.exp % 128 + 64 - b.exp % 128), f⟩ w)
    refine NORMX_result hf hw byte (by omega) ?_ large ?_ ?_
    · rw [← sign]
      exact (sgn_spec _ positive.le).2 (mul_ne_zero (sgn_ne_zero _) positive.ne')
    · have below' : ((100 * num f + dec w : ℕ) : ℚ) / 100 ^ 5 ≤ num a.man / num b.man := by
        rw [div_le_div_iff₀ (by norm_num) hN, mul_comm]
        exact_mod_cast below
      have scaled := mul_le_mul_of_nonneg_right below' units.le
      rw [abs_eq, unit]
      linarith
    · have above' : (num a.man / num b.man : ℚ) < ((100 * num f + dec w : ℕ) + 1 : ℚ) / 100 ^ 5 := by
        rw [div_lt_div_iff₀ hN (by norm_num), mul_comm _ (num b.man : ℚ)]
        exact_mod_cast above
      have scaled := mul_lt_mul_of_pos_right above' units
      rw [abs_eq, unit]
      linarith

/-- `FDIV` returns the quotient if its exponent can be computed. -/
theorem FDIV_result (ha : Normal a) (hb : Nonzero b) (room : a = ZFR0 ∨ b.exp % 128 < a.exp % 128 + 64) :
    Result (value a / value b) (FDIV a b) := by
  rcases ha with rfl | ha
  · have run : FDIV ZFR0 b = (ZFR0, false) := by
      have least := hb.least
      rw [FDIV, if_neg (by omega)]
      rfl
    rw [value_ZFR0, zero_div, run]
    exact result_zero
  rcases room with rfl | room
  · exact absurd rfl ha.first
  · exact FDIV_nonzero ha hb room

end

end RSX280.Bcdflt
