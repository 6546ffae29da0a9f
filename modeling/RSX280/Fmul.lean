import RSX280.FpResult

/-!
# Decimal multiplication (`libs/bcdflt/fmul.mac`, `fpmisc.mac`)

The first factor is in `?FRX`, behind `FR0`. Its bytes are taken from the end one after the other, the other
factor is added to `FR0` as often as the byte says, once for each half of the byte, and both registers are
moved to the right by a byte. At the end the product is in both, with its first byte behind the exponent.
-/

namespace RSX280.Bcdflt

open Bcd (AllBcd IsBcd num dec rol)

/-! ### The routines -/

/-- `?MDSGN`: the sign of a product. -/
def MDSGN (FR0 FR1 : Fp) : ℕ := if FR0.exp < 128 ↔ FR1.exp < 128 then 0 else 0x80

/-- The six bytes of a register after `?MDPRE`, with zero for the exponent. -/
def cleared (fr : Fp) : List ℕ := 0 :: fr.man

/-- `FR2` after `?MDPRE`: ten times as much as `FR1`. -/
def FR2 (FR1 : Fp) : List ℕ := (rol 0 FR1.man).2 :: (rol 0 FR1.man).1

/-- `?ADDFR`. -/
def ADDFR (x y : List ℕ) : List ℕ := (Bcd.add x y false).1

/-- The loops `fml2` and `fml4`: `y` is added `b` times. -/
def fml2 (y : List ℕ) : ℕ → List ℕ → List ℕ
  | 0, x => x
  | b + 1, x => fml2 y b (ADDFR x y)

/-- `?RORDP`: both registers are moved to the right by a byte. -/
def RORDP (r : List ℕ × List ℕ) : List ℕ × List ℕ :=
  (0 :: r.1.dropLast, r.1.getLastD 0 :: r.2.dropLast)

/-- The loop `fml1`. -/
def fml1 (FR1 : Fp) : ℕ → List ℕ × List ℕ → List ℕ × List ℕ
  | 0, r => r
  | b + 1, (FR0, FRX) =>
    let FR0 := fml2 (cleared FR1) (FRX.getLastD 0 % 16) FR0
    let FR0 := fml2 (FR2 FR1) (FRX.getLastD 0 / 16) FR0
    fml1 FR1 b (RORDP (FR0, FRX))

/-- `FMUL`: `FR0`, and the carry. -/
def FMUL (FR0 FR1 : Fp) : Fp × Bool :=
  if FR0.exp = 0 then (FR0, false)
  else if FR1.exp = 0 then (ZFR0, false)
  else
    let A := (FR0.exp % 128 + 256 - 0x40 + FR1.exp % 128 + 1) % 256
    if 128 ≤ A then (FR0, true)
    else
      let r := fml1 FR1 5 (List.replicate 6 0, cleared FR0)
      NORMX ⟨MDSGN FR0 FR1 + A, r.1.tail⟩ (r.2.headD 0)

section

variable {a b : Fp} {m x y : List ℕ} {e n d : ℕ}

/-! ### Adding -/

theorem ADDFR_spec (hx : AllBcd x) (hy : AllBcd y) (hl : x.length = y.length)
    (lt : num x + num y < 100 ^ x.length) :
    AllBcd (ADDFR x y) ∧ (ADDFR x y).length = x.length ∧ num (ADDFR x y) = num x + num y := by
  have sum := Bcd.add_spec false hx hy hl
  have value := sum.value
  rw [Bool.toNat_false, Nat.add_zero] at value
  refine ⟨sum.bcd, sum.length, ?_⟩
  rw [ADDFR]
  cases carry : (Bcd.add x y false).2 with
  | false => rwa [carry, Bool.toNat_false, Nat.mul_zero, Nat.add_zero] at value
  | true =>
    rw [carry, Bool.toNat_true] at value
    omega

theorem fml2_spec (hx : AllBcd x) (hy : AllBcd y) (hl : x.length = y.length)
    (lt : num x + n * num y < 100 ^ x.length) :
    AllBcd (fml2 y n x) ∧ (fml2 y n x).length = x.length ∧ num (fml2 y n x) = num x + n * num y := by
  induction n generalizing x with
  | zero => exact ⟨hx, rfl, by rw [fml2, Nat.zero_mul, Nat.add_zero]⟩
  | succ n ih =>
    rw [Nat.succ_mul] at lt
    obtain ⟨bcd, length, value⟩ := ADDFR_spec hx hy hl (by omega)
    obtain ⟨bcd', length', value'⟩ := ih bcd (length.trans hl) (by rw [length, value]; omega)
    refine ⟨bcd', length'.trans length, value'.trans ?_⟩
    rw [value, Nat.succ_mul]
    omega

theorem cleared_spec (hb : Mantissa b.man) :
    AllBcd (cleared b) ∧ (cleared b).length = 6 ∧ num (cleared b) = num b.man := by
  have zero : dec 0 = 0 := rfl
  refine ⟨Bcd.allBcd_cons.mpr ⟨by decide, hb.bcd⟩, congrArg Nat.succ hb.length, ?_⟩
  rw [cleared, num, zero, Nat.zero_mul, Nat.zero_add]

theorem FR2_spec (hb : Mantissa b.man) :
    AllBcd (FR2 b) ∧ (FR2 b).length = 6 ∧ num (FR2 b) = 10 * num b.man := by
  obtain ⟨bcd, length, digit, value⟩ := Bcd.rol_spec (d := 0) (by decide) hb.bcd
  have byte : IsBcd (rol 0 b.man).2 := by
    unfold IsBcd
    omega
  have units : dec (rol 0 b.man).2 = (rol 0 b.man).2 := by
    unfold dec
    omega
  refine ⟨Bcd.allBcd_cons.mpr ⟨byte, bcd⟩, congrArg Nat.succ (length.trans hb.length), ?_⟩
  rw [FR2, num, units, length]
  rw [Nat.add_zero] at value
  rw [← value]
  ring

/-! ### The loop -/

/-- One byte of the first factor is used up. -/
theorem fml1_byte (hb : Mantissa b.man) (hx : AllBcd x) (hl : x.length = 6) (hd : IsBcd d)
    (lt : num x < num b.man) : ∃ f z, fml2 (FR2 b) (d / 16) (fml2 (cleared b) (d % 16) x) = f ++ [z] ∧
      AllBcd f ∧ f.length = 5 ∧ IsBcd z ∧ 100 * num f + dec z = num x + dec d * num b.man := by
  obtain ⟨bcd₁, length₁, value₁⟩ := cleared_spec hb
  obtain ⟨bcd₂, length₂, value₂⟩ := FR2_spec hb
  have small := hb.lt
  have whole : dec d * num b.man = d % 16 * num b.man + d / 16 * (10 * num b.man) := by
    unfold dec
    ring
  have bound : num x + dec d * num b.man < 100 ^ 6 := by
    have := hd.lt
    nlinarith
  obtain ⟨bcd, length, value⟩ := fml2_spec (n := d % 16) hx bcd₁ (hl.trans length₁.symm)
    (by rw [value₁, hl]; omega)
  rw [value₁] at value
  obtain ⟨bcd', length', value'⟩ := fml2_spec (n := d / 16) bcd bcd₂ (length.trans (hl.trans length₂.symm))
    (by rw [value₂, value, length, hl]; omega)
  rw [value₂, value] at value'
  generalize fml2 (FR2 b) (d / 16) (fml2 (cleared b) (d % 16) x) = r at bcd' length' value'
  have len : r.length = 6 := length'.trans (length.trans hl)
  have ne : r ≠ [] := by
    rintro rfl
    cases len
  have split := List.dropLast_append_getLast ne
  rw [← split] at bcd' value' len
  obtain ⟨front, last⟩ := Bcd.allBcd_append.mp bcd'
  refine ⟨r.dropLast, r.getLast ne, split.symm, front, ?_, last _ (List.mem_singleton_self _), ?_⟩
  · rw [List.length_append, List.length_singleton] at len
    exact Nat.succ.inj len
  · rw [Bcd.num_append] at value'
    simp only [num, List.length_singleton, List.length_nil, pow_zero, pow_one, Nat.mul_one, Nat.add_zero] at value'
    rw [whole]
    omega

/-- The product so far is in `FR0` and in the first bytes `p` of `?FRX`. -/
theorem fml1_spec {p t : List ℕ} (hb : Mantissa b.man) (hx : AllBcd x) (hl : x.length = 6)
    (lt : num x < num b.man) (hp : AllBcd p) (ht : AllBcd t) (hn : t.length = n) (y : List ℕ) :
    ∃ x' p', fml1 b n (x, p ++ y ++ t) = (x', p' ++ y) ∧ AllBcd x' ∧ x'.length = 6 ∧ num x' < num b.man ∧
      AllBcd p' ∧ p'.length = p.length + n ∧
      num x' * 100 ^ p'.length + num p' = num x * 100 ^ p.length + num p + num b.man * num t * 100 ^ p.length := by
  induction n generalizing x p t with
  | zero =>
    obtain rfl := List.length_eq_zero_iff.mp hn
    refine ⟨x, p, by rw [fml1, List.append_nil], hx, hl, lt, hp, rfl, ?_⟩
    rw [show num [] = 0 from rfl, Nat.mul_zero, Nat.zero_mul, Nat.add_zero]
  | succ n ih =>
    have ne : t ≠ [] := by
      rintro rfl
      cases hn
    obtain ⟨t, d, rfl⟩ : ∃ s d, t = s ++ [d] := ⟨t.dropLast, t.getLast ne, (List.dropLast_append_getLast ne).symm⟩
    obtain ⟨ht, hd⟩ := Bcd.allBcd_append.mp ht
    have hd : IsBcd d := hd d (List.mem_singleton_self d)
    have hn : t.length = n := by
      rw [List.length_append, List.length_singleton] at hn
      exact Nat.succ.inj hn
    obtain ⟨f, z, eq, hf, lf, hz, value⟩ := fml1_byte hb hx hl hd lt
    have zero : num (0 :: f) = num f := by
      have : dec 0 = 0 := rfl
      rw [num, this, Nat.zero_mul, Nat.zero_add]
    have less : num (0 :: f) < num b.man := by
      rw [zero]
      have := hd.lt
      nlinarith
    obtain ⟨x', p', run, bcd', length', lt', hp', lp', value'⟩ := ih (x := 0 :: f) (p := z :: p)
      (Bcd.allBcd_cons.mpr ⟨by decide, hf⟩) (congrArg Nat.succ lf) less (Bcd.allBcd_cons.mpr ⟨hz, hp⟩) ht hn
    refine ⟨x', p', ?_, bcd', length', lt', hp', by rw [lp', List.length_cons]; omega, ?_⟩
    · have last : (p ++ y ++ (t ++ [d])).getLastD 0 = d := by
        rw [← List.append_assoc, List.getLastD_concat]
      have rest : (p ++ y ++ (t ++ [d])).dropLast = p ++ y ++ t := by
        rw [← List.append_assoc, List.dropLast_concat]
      rw [fml1, last, eq, RORDP]
      dsimp only
      rw [rest, List.dropLast_concat, List.getLastD_concat]
      exact run
    · rw [value', zero, Bcd.num_append, num, List.length_cons, pow_succ]
      simp only [num, List.length_singleton, List.length_nil, pow_zero, pow_one, Nat.mul_one, Nat.add_zero]
      have scaled := congrArg (100 ^ p.length * ·) value
      linarith

/-! ### `FMUL` -/

theorem sgn_mul (hb : b.exp < 256) (ha : a.exp < 256) (n : ℕ) (hn : n < 128) :
    sgn (MDSGN a b + n) = sgn a.exp * sgn b.exp := by
  unfold sgn MDSGN
  split_ifs <;> first | omega | norm_num

theorem abs_sgn_mul {x : ℚ} (hx : 0 ≤ x) (e₀ e₁ : ℕ) : |sgn e₀ * sgn e₁ * x| = x := by
  have one (e : ℕ) : |sgn e| = 1 := by
    unfold sgn
    split <;> norm_num
  rw [abs_mul, abs_mul, one, one, one_mul, one_mul, abs_of_nonneg hx]

theorem FMUL_nonzero (ha : Nonzero a) (hb : Nonzero b) (room : 63 < a.exp % 128 + b.exp % 128) :
    Result (value a * value b) (FMUL a b) := by
  have hma : Mantissa a.man := ⟨ha.bcd, ha.length⟩
  have hmb : Mantissa b.man := ⟨hb.bcd, hb.length⟩
  have lowa := num_of_first ha.length ha.first
  have lowb := num_of_first hb.length hb.first
  obtain ⟨bytea, leasta, mosta⟩ : a.exp < 256 ∧ 15 ≤ a.exp % 128 ∧ a.exp % 128 ≤ 113 := ⟨ha.byte, ha.least, ha.most⟩
  obtain ⟨byteb, leastb, mostb⟩ : b.exp < 256 ∧ 15 ≤ b.exp % 128 ∧ b.exp % 128 ≤ 113 := ⟨hb.byte, hb.least, hb.most⟩
  have sum : (a.exp % 128 + 256 - 0x40 + b.exp % 128 + 1) % 256 = a.exp % 128 + b.exp % 128 - 63 := by omega
  have product : value a * value b = sgn a.exp * sgn b.exp * (((num b.man * num a.man : ℕ) : ℚ) * (ulp a * ulp b)) := by
    rw [value_sgn, value_sgn]
    push_cast
    ring
  have ulps : ulp a * ulp b = 100 ^ (((a.exp % 128 : ℕ) : ℤ) + ((b.exp % 128 : ℕ) : ℤ) - 136) := by
    unfold ulp
    rw [← hundred_zpow]
    congr 1
    ring
  have posa := ulp_pos a
  have posb := ulp_pos b
  have abs_eq := abs_sgn_mul (x := ((num b.man * num a.man : ℕ) : ℚ) * (ulp a * ulp b)) (by positivity) a.exp b.exp
  rw [FMUL, if_neg (by omega), if_neg (by omega)]
  dsimp only
  rw [sum, product]
  split
  · next high =>
    -- the exponent is so large that the product is, too
    have big : (100 : ℚ) ^ 49 ≤ |value a * value b| := by
      have digits : (100 ^ 4 * 100 ^ 4 : ℚ) ≤ ((num b.man * num a.man : ℕ) : ℚ) := by
        exact_mod_cast Nat.mul_le_mul lowb lowa
      rw [product, abs_eq, ulps]
      calc (100 : ℚ) ^ 49 ≤ 100 ^ 4 * 100 ^ 4 * 100 ^ (55 : ℤ) := by norm_num
        _ ≤ ((num b.man * num a.man : ℕ) : ℚ) * 100 ^ (((a.exp % 128 : ℕ) : ℤ) + ((b.exp % 128 : ℕ) : ℤ) - 136) :=
          mul_le_mul digits (zpow_le_zpow_right₀ (by norm_num) (by omega)) (by positivity) (by positivity)
    rw [← product]
    exact ⟨fun below => absurd (below.trans (by norm_num)) (not_lt.mpr big), fun _ => rfl,
      fun _ under => absurd under (not_lt.mpr big)⟩
  · next fits =>
    have zeros : num (List.replicate 6 0) = 0 := Bcd.num_replicate_zero 6
    obtain ⟨x', p', run, bcd, length, lt, hp, lp, eq⟩ := fml1_spec (x := List.replicate 6 0) (p := []) hmb
      (Bcd.allBcd_replicate_zero 6) rfl (by rw [zeros]; omega) (List.forall_mem_nil _) hma.bcd hma.length [0]
    have shape : cleared a = [] ++ [0] ++ a.man := rfl
    rw [shape, run]
    dsimp only
    have len : p'.length = 5 := lp
    rw [len, zeros] at eq
    have none : num [] = 0 := rfl
    rw [none, Nat.zero_mul, List.length_nil, pow_zero, Nat.mul_one, Nat.zero_add] at eq
    obtain ⟨c, f, rfl⟩ := List.exists_cons_of_length_eq_add_one length
    obtain ⟨w, s, rfl⟩ := List.exists_cons_of_length_eq_add_one len
    obtain ⟨hc, hf⟩ := Bcd.allBcd_cons.mp bcd
    obtain ⟨hw, hs⟩ := Bcd.allBcd_cons.mp hp
    have hf : Mantissa f := ⟨hf, Nat.succ.inj length⟩
    have ls : s.length = 4 := Nat.succ.inj len
    have rest := hs.lt
    rw [num, hf.length] at lt eq
    rw [num, ls] at eq
    rw [ls] at rest
    have bound := hmb.lt
    have top : dec c = 0 := by omega
    rw [top, Nat.zero_mul, Nat.zero_add] at eq
    have below : (100 * num f + dec w) * 100 ^ 4 ≤ num b.man * num a.man := by omega
    have above : num b.man * num a.man < (100 * num f + dec w + 1) * 100 ^ 4 := by omega
    have large : 100 ^ 4 * 100 ^ 4 ≤ num b.man * num a.man := Nat.mul_le_mul lowb lowa
    have exponent : MDSGN a b + (a.exp % 128 + b.exp % 128 - 63) < 256 ∧
        (MDSGN a b + (a.exp % 128 + b.exp % 128 - 63)) % 128 = a.exp % 128 + b.exp % 128 - 63 ∧
        (MDSGN a b + (a.exp % 128 + b.exp % 128 - 63) - 1) % 128 = a.exp % 128 + b.exp % 128 - 64 := by
      unfold MDSGN
      split_ifs <;> omega
    obtain ⟨byte, mod, mod'⟩ := exponent
    have unit : ulp ⟨MDSGN a b + (a.exp % 128 + b.exp % 128 - 63) - 1, f⟩ = 100 ^ 4 * (ulp a * ulp b) := by
      have exps : ((a.exp % 128 + b.exp % 128 - 64 : ℕ) : ℤ) - 68 =
          4 + (((a.exp % 128 : ℕ) : ℤ) + ((b.exp % 128 : ℕ) : ℤ) - 136) := by omega
      unfold ulp
      dsimp only
      rw [mod', exps, hundred_zpow, ← ulps]
      rfl
    have sign := sgn_mul byteb bytea (a.exp % 128 + b.exp % 128 - 63) (by omega)
    have positive : 0 < ((num b.man * num a.man : ℕ) : ℚ) * (ulp a * ulp b) := by
      have : 0 < num b.man * num a.man := by omega
      positivity
    change Result _ (NORMX ⟨MDSGN a b + (a.exp % 128 + b.exp % 128 - 63), f⟩ w)
    refine NORMX_result hf hw byte (by omega) ?_ (by omega) ?_ ?_
    · rw [← sign]
      exact (sgn_spec _ positive.le).2 (mul_ne_zero (sgn_ne_zero _) positive.ne')
    · rw [abs_eq, unit, ← mul_assoc]
      refine mul_le_mul_of_nonneg_right ?_ (by positivity)
      exact_mod_cast below
    · have units : 0 < ulp a * ulp b := mul_pos posa posb
      have above' : ((num b.man * num a.man : ℕ) : ℚ) < ((100 * num f + dec w : ℕ) + 1 : ℚ) * 100 ^ 4 := by
        exact_mod_cast above
      have scaled := mul_lt_mul_of_pos_right above' units
      rw [abs_eq, unit]
      linarith

/-- `FMUL` returns the product if its exponent can be computed. -/
theorem FMUL_result (ha : Normal a) (hb : Normal b)
    (room : a = ZFR0 ∨ b = ZFR0 ∨ 63 < a.exp % 128 + b.exp % 128) : Result (value a * value b) (FMUL a b) := by
  rcases ha with rfl | ha
  · rw [value_ZFR0, zero_mul]
    exact result_zero
  rcases hb with rfl | hb
  · have run : FMUL a ZFR0 = (ZFR0, false) := by
      have least := ha.least
      rw [FMUL, if_neg (by omega)]
      rfl
    rw [value_ZFR0, mul_zero, run]
    exact result_zero
  rcases room with rfl | rfl | room
  · exact absurd rfl ha.first
  · exact absurd rfl hb.first
  · exact FMUL_nonzero ha hb room

end

end RSX280.Bcdflt
