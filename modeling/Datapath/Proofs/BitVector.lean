import Mathlib
import Datapath.Proofs.Engine

/-!
# Datapath.Proofs.BitVector

What terms mean as bit-vector arithmetic, and that the catalog respects it.

An operand is read from its bits: its value modulo a power of two, in two's
complement if its sign slot says so. An operation works on the integers it reads and
cuts the result to its output width. Nothing is assumed about subtraction and right
shifts beyond that they are functions of the output width and the two integers, since
no rule of the catalog looks into them.

Two facts carry the proofs. Whatever its sign, an operand is congruent to its bits
modulo the power of its width (`operand_wrap_modEq`), so cutting does no harm if at
least the bits of the final result are kept. And an integer in the range of a width
and sign is read back exactly (`operand_wrap`), so the widths that rules compute for
intermediate results lose nothing. Conditions are tests of binary64 constants; they
are decided correctly as long as the constants are whole numbers below `2 ^ 53`.
-/

namespace Datapath

variable {w s a : ℕ} {x y : ℤ}

/-! ## Operands -/

/-- An integer cut to `w` bits. -/
def wrap (w : ℕ) (x : ℤ) : ℕ := (x % 2 ^ w).toNat

/-- The integer that the low `w` bits of `a` stand for, in two's complement if the
sign `s` is one. -/
def operand (w s a : ℕ) : ℤ :=
  let bits := a % 2 ^ w
  if s = 1 ∧ 2 ^ w ≤ 2 * bits then (bits : ℤ) - 2 ^ w else bits

/-- The integers that `w` bits with the sign `s` stand for. -/
def InRange (w s : ℕ) (x : ℤ) : Prop :=
  if s = 1 then -2 ^ w ≤ 2 * x ∧ 2 * x < 2 ^ w else 0 ≤ x ∧ x < 2 ^ w

/-- Cutting is how bit-vectors are made of integers. -/
theorem wrap_eq_toNat (w : ℕ) (x : ℤ) : wrap w x = (BitVec.ofInt w x).toNat := by
  rw [BitVec.toNat_ofInt, wrap]
  norm_cast

/-- Operands are read as bit-vectors are. -/
theorem operand_eq_bitVec (w s a : ℕ) :
    operand w s a =
      if s = 1 then (BitVec.ofNat w a).toInt else ((BitVec.ofNat w a).toNat : ℤ) := by
  unfold operand
  dsimp only
  rw [BitVec.toInt_eq_toNat_cond, BitVec.toNat_ofNat]
  by_cases hs : s = 1
  · rw [if_pos hs]
    split
    · next h => rw [if_neg (by omega)]; norm_cast
    · next h => rw [if_pos (by omega)]
  · rw [if_neg hs, if_neg fun h => hs h.1]

theorem natCast_wrap (w : ℕ) (x : ℤ) : (wrap w x : ℤ) = x % 2 ^ w :=
  Int.toNat_of_nonneg (Int.emod_nonneg _ (by positivity))

/-- Numbers that differ by a multiple of the power of the width are cut to the same
bits. -/
theorem wrap_congr (h : x ≡ y [ZMOD 2 ^ w]) : wrap w x = wrap w y := by
  unfold wrap
  rw [h]

theorem wrap_mod (w : ℕ) (x : ℤ) : wrap w x % 2 ^ w = wrap w x := by
  refine Nat.mod_eq_of_lt ?_
  have hlt : (wrap w x : ℤ) < 2 ^ w := by
    rw [natCast_wrap]
    exact Int.emod_lt_of_pos x (by positivity)
  exact_mod_cast hlt

/-- The sign decides between two integers that differ by a power of the width. -/
theorem operand_modEq (w s a : ℕ) : operand w s a ≡ a [ZMOD 2 ^ w] := by
  have hbits : ((a % 2 ^ w : ℕ) : ℤ) ≡ a [ZMOD 2 ^ w] := by
    push_cast
    exact Int.mod_modEq _ _
  unfold operand
  dsimp only
  split
  · refine Int.ModEq.trans ?_ hbits
    exact Int.modEq_iff_dvd.2 ⟨1, by ring⟩
  · exact hbits

/-- Reading back bits that were cut off loses only multiples of a power of the
width. -/
theorem operand_wrap_modEq (w s : ℕ) (x : ℤ) :
    operand w s (wrap w x) ≡ x [ZMOD 2 ^ w] := by
  refine (operand_modEq w s _).trans ?_
  rw [natCast_wrap]
  exact Int.mod_modEq _ _

/-- What is read is in the range of its width and sign, whatever the bits are. -/
theorem operand_inRange (w s a : ℕ) : InRange w s (operand w s a) := by
  have hlt : a % 2 ^ w < 2 ^ w := Nat.mod_lt _ (by positivity)
  have hpow : ((2 ^ w : ℕ) : ℤ) = 2 ^ w := by push_cast; rfl
  unfold InRange operand
  dsimp only
  generalize a % 2 ^ w = bits at hlt
  rw [← hpow]
  split
  · next hs =>
    split
    · omega
    · next h =>
      have hsmall : ¬ 2 ^ w ≤ 2 * bits := fun hle => h ⟨hs, hle⟩
      omega
  · next hs =>
    rw [if_neg fun h => hs h.1]
    omega

/-- An integer in the range of a width is read back exactly. If it is negative,
cutting adds the power of the width to it, and reading, which then finds the top bit
set, subtracts it again. -/
theorem operand_wrap (h : InRange w s x) : operand w s (wrap w x) = x := by
  have hpow : ((2 ^ w : ℕ) : ℤ) = 2 ^ w := by push_cast; rfl
  have hpos : 0 < 2 ^ w := Nat.two_pow_pos w
  have hwrap := natCast_wrap w x
  unfold InRange at h
  unfold operand
  dsimp only
  rw [wrap_mod]
  rw [← hpow] at h hwrap ⊢
  generalize 2 ^ w = size at h hpos hwrap ⊢
  generalize wrap w x = bits at hwrap ⊢
  -- `size` is at least one and `bits` is `x` modulo `size`; what is left is
  -- arithmetic
  by_cases hneg : x < 0
  · have hs : s = 1 := by
      by_contra hs
      rw [if_neg hs] at h
      omega
    rw [if_pos hs] at h
    have hmod : x % size = x + size := by
      rw [← Int.add_emod_right]
      exact Int.emod_eq_of_lt (by omega) (by omega)
    rw [hmod] at hwrap
    rw [if_pos ⟨hs, by omega⟩]
    omega
  · -- a number in range that is not negative is its own residue
    have hlt : x < size := by split at h <;> omega
    rw [Int.emod_eq_of_lt (by omega) hlt] at hwrap
    rw [if_neg, hwrap]
    intro hsign
    obtain ⟨hs, hle⟩ := hsign
    rw [if_pos hs] at h
    omega

/-! ## Intermediate results that lose nothing -/

theorem inRange_unsigned : InRange w 0 x ↔ 0 ≤ x ∧ x < 2 ^ w := by
  rw [InRange, if_neg (by decide)]

theorem operand_unsigned (w a : ℕ) : operand w 0 a = (a % 2 ^ w : ℕ) := by
  unfold operand
  dsimp only
  exact if_neg fun h => absurd h.1 (by decide)

/-- A sum fits in one bit more than the wider summand. -/
theorem inRange_add {wa wb : ℕ} (hx : InRange wa 0 x) (hy : InRange wb 0 y)
    (hw : max wa wb + 1 ≤ w) : InRange w 0 (x + y) := by
  rw [inRange_unsigned] at hx hy ⊢
  have ha : (2 : ℤ) ^ wa ≤ 2 ^ max wa wb :=
    pow_le_pow_right₀ one_le_two (le_max_left _ _)
  have hb : (2 : ℤ) ^ wb ≤ 2 ^ max wa wb :=
    pow_le_pow_right₀ one_le_two (le_max_right _ _)
  have hle : (2 : ℤ) ^ (max wa wb + 1) ≤ 2 ^ w := pow_le_pow_right₀ one_le_two hw
  rw [pow_succ] at hle
  constructor <;> linarith [hx.1, hx.2, hy.1, hy.2]

/-- A product fits in as many bits as both factors have. -/
theorem inRange_mul {wa wb : ℕ} (hx : InRange wa 0 x) (hy : InRange wb 0 y)
    (hw : wa + wb ≤ w) : InRange w 0 (x * y) := by
  rw [inRange_unsigned] at hx hy ⊢
  refine ⟨mul_nonneg hx.1 hy.1, ?_⟩
  calc x * y < 2 ^ wa * 2 ^ wb := mul_lt_mul'' hx.2 hy.2 hx.1 hy.1
    _ = 2 ^ (wa + wb) := (pow_add _ _ _).symm
    _ ≤ 2 ^ w := pow_le_pow_right₀ one_le_two hw

/-- A shift by at most `k` fits in `k` more bits, whatever the sign. Both bounds of
the range are multiplied by the same power of two. -/
theorem inRange_shift {k n : ℕ} (hx : InRange w s x) (hn : n ≤ k) :
    InRange (w + k) s (x * 2 ^ n) := by
  have hn0 : (0 : ℤ) < 2 ^ n := by positivity
  have hle : (2 : ℤ) ^ w * 2 ^ n ≤ 2 ^ (w + k) := by
    rw [← pow_add]
    exact pow_le_pow_right₀ one_le_two (by omega)
  unfold InRange at hx ⊢
  split
  · next hs =>
    rw [if_pos hs] at hx
    have hlow : -2 ^ w * 2 ^ n ≤ 2 * x * 2 ^ n :=
      mul_le_mul_of_nonneg_right hx.1 hn0.le
    have hhigh : 2 * x * 2 ^ n < 2 ^ w * 2 ^ n := mul_lt_mul_of_pos_right hx.2 hn0
    constructor <;> linarith
  · next hs =>
    rw [if_neg hs] at hx
    have hhigh : x * 2 ^ n < 2 ^ w * 2 ^ n := mul_lt_mul_of_pos_right hx.2 hn0
    exact ⟨mul_nonneg hx.1 hn0.le, by linarith⟩

/-- The amount of a shift by `w` bits, which is at most `2 ^ w - 1`. -/
theorem toNat_operand_le (w a : ℕ) : (operand w 0 a).toNat ≤ 2 ^ w - 1 := by
  have hlt : a % 2 ^ w < 2 ^ w := Nat.mod_lt _ (by positivity)
  rw [operand_unsigned, Int.toNat_natCast]
  omega

theorem operand_nonneg (w a : ℕ) : 0 ≤ operand w 0 a := by
  rw [operand_unsigned]
  exact Int.natCast_nonneg _

theorem wrap_shift_wrap {wo : ℕ} (hw : wo ≤ w) (s : ℕ) (x : ℤ) (n : ℕ) :
    wrap wo (operand w s (wrap w x) * 2 ^ n) = wrap wo (x * 2 ^ n) := by
  have hdvd : (2 : ℤ) ^ wo ∣ 2 ^ w := pow_dvd_pow 2 hw
  exact wrap_congr (((operand_wrap_modEq w s x).of_dvd hdvd).mul_right _)

/-! ## Meaning -/

/-- What an operator makes of two integers, cut to the output width. Those that no
rule of the catalog is about may be any functions. -/
def operation (other : Operator → ℕ → ℤ → ℤ → ℕ) : Operator → ℕ → ℤ → ℤ → ℕ
  | .add, w, x, y => wrap w (x + y)
  | .mul, w, x, y => wrap w (x * y)
  | .shl, w, x, y => wrap w (x * 2 ^ y.toNat)
  | op, w, x, y => other op w x y

/-- Terms as bit-vector arithmetic on natural numbers, given the symbols. A literal
that is no whole number counts as zero; there is none where all constants are
`Exact`. -/
def bitVector (env : String → ℕ) (other : Operator → ℕ → ℤ → ℤ → ℕ) :
    Interpretation ℕ where
  literal v := (v.toInt?.getD 0).toNat
  sign s := s.code
  symbol := env
  derived
    | .sum, x, y => max x y + 1
    | .shift, x, y => x + (2 ^ y - 1)
  binary op w wa sa a wb sb b :=
    operation other op w (operand wa sa a) (operand wb sb b)

/-- The meaning of a ground term. -/
def meaning (env : String → ℕ) (other : Operator → ℕ → ℤ → ℤ → ℕ)
    (term : Pattern) : ℕ :=
  (bitVector env other).value (fun _ => 0) term

/-- The numbers for which width arithmetic is not rounded. -/
def Exact (v : Binary64) : Prop := ∃ n : ℕ, n < 2 ^ 53 ∧ v.toInt? = some (n : ℤ)

/-- The number below the bound can be searched for, so `Exact` is decidable. -/
theorem exact_iff (v : Binary64) : Exact v ↔ ∃ z ∈ v.toInt?, 0 ≤ z ∧ z < 2 ^ 53 := by
  constructor
  · intro hexact
    obtain ⟨n, hn, hv⟩ := hexact
    exact ⟨n, hv, Int.natCast_nonneg n, by exact_mod_cast hn⟩
  · intro hwhole
    obtain ⟨z, hv, hz, hlt⟩ := hwhole
    refine ⟨z.toNat, (Int.toNat_lt hz).2 hlt, ?_⟩
    rw [Int.toNat_of_nonneg hz]
    exact hv

instance : DecidablePred Exact := fun v => decidable_of_iff' _ (exact_iff v)

variable {env : String → ℕ} {other : Operator → ℕ → ℤ → ℤ → ℕ}

theorem zeroBlind_exact : EGraph.ZeroBlind Exact := by
  intro v u hvu hexact
  obtain ⟨n, hn, hv⟩ := hexact
  exact ⟨n, hn, by rw [← Binary64.toInt?_congr hvu, hv]⟩

theorem node_literal {v : Binary64} {n : ℕ} (hv : v.toInt? = some (n : ℤ)) :
    (bitVector env other).node (.literal v) = n := by
  show (v.withoutMinusZero.toInt?.getD 0).toNat = n
  rw [Binary64.toInt?_congr (Binary64.withoutMinusZero_idem v), hv, Option.getD_some,
    Int.toNat_natCast]

/-- A value that has an exact constant is that number. The constant may be that of a
literal, or the code of a sign. -/
theorem reads_of_hasConstant {d : ℕ} {v : Binary64}
    (h : (bitVector env other).HasConstant d v)
    (hv : Exact v) : Binary64.Reads v d ∧ d < 2 ^ 53 := by
  obtain ⟨n, hn, hint⟩ := hv
  have hd : d = n := by
    rcases h with rfl | ⟨s, rfl, hs⟩
    · exact node_literal hint
    · have hcode : v.toInt? = some (s.code : ℤ) := by
        rw [← Binary64.toInt?_congr (Binary64.withoutMinusZero_idem v), hs,
          Binary64.toInt?_ofNat (by cases s <;> decide)]
      rw [hcode] at hint
      exact_mod_cast Option.some.inj hint
  rw [hd]
  exact ⟨Binary64.reads_of_toInt? hint hn, hn⟩

/-- Widths are computed exactly as long as their values are exact: rounding begins at
numbers that are not. -/
theorem foldsOn_exact : (bitVector env other).FoldsOn Exact := by
  intro fn x y a b hx hy ha hb hab
  obtain ⟨hxa, -⟩ := reads_of_hasConstant hx ha
  obtain ⟨hyb, -⟩ := reads_of_hasConstant hy hb
  obtain ⟨n, hn, hint⟩ := hab
  rw [node_literal hint]
  cases fn with
  | sum => exact (reads_sumWidth hxa hyb).eq_of_toInt? hint hn
  | shift => exact (reads_shiftWidth hxa hyb).eq_of_toInt? hint hn

/-! ## The catalog -/

/-- Sums do not depend on the order of their operands. -/
theorem validates_commuteAdd :
    (bitVector env other).ValidatesOn Exact Catalog.commuteAdd.toEquation := by
  intro ρ _
  exact congrArg (wrap (ρ "wo")) (add_comm _ _)

theorem validates_commuteMul :
    (bitVector env other).ValidatesOn Exact Catalog.commuteMul.toEquation := by
  intro ρ _
  exact congrArg (wrap (ρ "wo")) (mul_comm _ _)

/-- The amounts of two shifts add up, when their sum is not cut. -/
theorem shift_shift (x : ℤ) {w wb wc b c : ℕ} (hw : max wb wc + 1 ≤ w) :
    x * 2 ^ (operand wb 0 b).toNat * 2 ^ (operand wc 0 c).toNat =
      x * 2 ^ (operand w 0 (wrap w (operand wb 0 b + operand wc 0 c))).toNat := by
  have hsum := inRange_add (operand_inRange wb 0 b) (operand_inRange wc 0 c) hw
  rw [operand_wrap hsum,
    Int.toNat_add (operand_nonneg _ _) (operand_nonneg _ _), pow_add,
    mul_assoc]

/-- Two shifts to the left are one by the sum of the amounts, when the intermediate
result keeps at least the bits of the final one. What is cut off the intermediate
result is then cut off in the end anyway, and the computed width of the sum has room
for the carry. -/
theorem validates_mergeLeftShift :
    (bitVector env other).ValidatesOn Exact Catalog.mergeLeftShift.toEquation := by
  intro ρ henabled
  obtain ⟨values, hvalues, hcheck⟩ := henabled
  obtain ⟨vo, _, ⟨hvo, hxo⟩, hrest, rfl⟩ := List.forall₂_cons_left_iff.1 hvalues
  obtain ⟨vab, _, ⟨hvab, hxab⟩, -, rfl⟩ := List.forall₂_cons_left_iff.1 hrest
  obtain ⟨hro, -⟩ := reads_of_hasConstant hvo hxo
  obtain ⟨hrab, hltab⟩ := reads_of_hasConstant hvab hxab
  have hle : ρ "wo" ≤ ρ "wab" := Binary64.le_of_ge hrab hltab hro hcheck
  -- the intermediate width only has to be as large as `wo`
  show wrap (ρ "wo") (operand (ρ "wab") (ρ "sa") (wrap (ρ "wab") _) * _) =
      wrap (ρ "wo") _
  rw [wrap_shift_wrap hle]
  exact congrArg (wrap (ρ "wo")) (shift_shift _ le_rfl)

/-- A shift by a sum is two shifts, when the sum was not cut. The intermediate width
that the rule computes has room for the greatest first shift, so nothing is lost
there. -/
theorem validates_unmergeLeftShift :
    (bitVector env other).ValidatesOn Exact Catalog.unmergeLeftShift.toEquation := by
  intro ρ henabled
  obtain ⟨values, hvalues, hcheck⟩ := henabled
  obtain ⟨vbc, _, ⟨hvbc, hxbc⟩, h₁, rfl⟩ := List.forall₂_cons_left_iff.1 hvalues
  obtain ⟨vb, _, ⟨hvb, hxb⟩, h₂, rfl⟩ := List.forall₂_cons_left_iff.1 h₁
  obtain ⟨vc, _, ⟨hvc, hxc⟩, -, rfl⟩ := List.forall₂_cons_left_iff.1 h₂
  obtain ⟨hrbc, hltbc⟩ := reads_of_hasConstant hvbc hxbc
  obtain ⟨hrb, -⟩ := reads_of_hasConstant hvb hxb
  obtain ⟨hrc, -⟩ := reads_of_hasConstant hvc hxc
  have hle : max (ρ "wb") (ρ "wc") + 1 ≤ ρ "wbc" :=
    Binary64.le_of_ge hrbc hltbc (reads_sumWidth hrb hrc) hcheck
  -- the first shift is read back exactly
  have hinner := operand_wrap (inRange_shift
    (operand_inRange (ρ "wa") (ρ "sa") (ρ "a")) (toNat_operand_le (ρ "wb") (ρ "b")))
  refine congrArg (wrap (ρ "wo")) ?_
  refine (shift_shift _ hle).symm.trans ?_
  exact congrArg (· * 2 ^ (operand (ρ "wc") 0 (ρ "c")).toNat) hinner.symm

/-- A two that is not cut, or only where it does not matter, doubles. -/
theorem wrap_mul_two {wo wb sb : ℕ} (x : ℤ)
    (h : (sb = 0 ∧ 1 < wb) ∨ (sb = 1 ∧ 2 < wb) ∨ wo ≤ wb) :
    wrap wo (x * operand wb sb 2) = wrap wo (x + x) := by
  have hexact {k : ℕ} (hk : k < wb) : 2 ^ (k + 1) ≤ 2 ^ wb :=
    Nat.pow_le_pow_right (by decide) hk
  rcases h with ⟨rfl, hw⟩ | ⟨rfl, hw⟩ | hw
  · have htwo : operand wb 0 2 = 2 := by
      rw [operand_unsigned, Nat.mod_eq_of_lt (by have := hexact hw; omega)]
      rfl
    rw [htwo, mul_two]
  · have htwo : operand wb 1 2 = 2 := by
      have hpow := hexact hw
      unfold operand
      dsimp only
      rw [Nat.mod_eq_of_lt (by omega), if_neg (by omega)]
      rfl
    rw [htwo, mul_two]
  · refine wrap_congr ?_
    rw [← mul_two]
    exact ((operand_modEq wb sb 2).of_dvd (pow_dvd_pow 2 hw)).mul_left _

/-- A product with two is a sum, when the two is not cut or the output is no wider
than it. The condition of the rule is a test of three alternatives, which
`wrap_mul_two` takes one by one. -/
theorem validates_multToAdd :
    (bitVector env other).ValidatesOn Exact Catalog.multToAdd.toEquation := by
  intro ρ henabled
  obtain ⟨values, hvalues, hcheck⟩ := henabled
  obtain ⟨vb, _, ⟨hvb, hxb⟩, h₁, rfl⟩ := List.forall₂_cons_left_iff.1 hvalues
  obtain ⟨vs, _, ⟨hvs, hxs⟩, h₂, rfl⟩ := List.forall₂_cons_left_iff.1 h₁
  obtain ⟨vo, _, ⟨hvo, hxo⟩, -, rfl⟩ := List.forall₂_cons_left_iff.1 h₂
  obtain ⟨hrb, hltb⟩ := reads_of_hasConstant hvb hxb
  obtain ⟨hrs, hlts⟩ := reads_of_hasConstant hvs hxs
  obtain ⟨hro, -⟩ := reads_of_hasConstant hvo hxo
  have hcases : ((vs.numEq (.ofNat 0) && vb.gt (.ofNat 1)) ||
      (vs.numEq (.ofNat 1) && vb.gt (.ofNat 2)) || vo.le vb) = true := hcheck
  simp only [Bool.or_eq_true, Bool.and_eq_true] at hcases
  -- the numbers that the tests compare with are small enough to be compared exactly
  have hnum {k : ℕ} (hk : k < 3) : k < 2 ^ 53 := lt_trans hk (by decide)
  have hsign {k : ℕ} (hk : k < 3) (h : vs.numEq (.ofNat k) = true) : ρ "sb" = k :=
    Binary64.eq_of_numEq hrs hlts (Binary64.reads_ofNat (hnum hk)) (hnum hk) h
  have hwide {k : ℕ} (hk : k < 3) (h : vb.gt (.ofNat k) = true) : k < ρ "wb" :=
    Binary64.lt_of_gt hrb hltb (Binary64.reads_ofNat (hnum hk)) (hnum hk) h
  have hwidth : (ρ "sb" = 0 ∧ 1 < ρ "wb") ∨ (ρ "sb" = 1 ∧ 2 < ρ "wb") ∨
      ρ "wo" ≤ ρ "wb" := by
    rcases hcases with (⟨hs, hb⟩ | ⟨hs, hb⟩) | hle
    · exact Or.inl ⟨hsign (by decide) hs, hwide (by decide) hb⟩
    · exact Or.inr (Or.inl ⟨hsign (by decide) hs, hwide (by decide) hb⟩)
    · exact Or.inr (Or.inr (Binary64.le_of_le hro hrb hltb hle))
  have htwo : (bitVector env other).node (.literal (.ofNat 2)) = 2 :=
    node_literal (Binary64.toInt?_ofNat (by decide))
  show wrap (ρ "wo") (_ * operand (ρ "wb") (ρ "sb")
    ((bitVector env other).node (.literal (.ofNat 2)))) = _
  rw [htwo]
  exact wrap_mul_two _ hwidth

/-- A shifted product is the product with the shifted first factor, when neither the
product nor the shifted factor is cut. -/
theorem validates_leftShiftMult :
    (bitVector env other).ValidatesOn Exact Catalog.leftShiftMult.toEquation := by
  intro ρ henabled
  obtain ⟨values, hvalues, hcheck⟩ := henabled
  obtain ⟨vab, _, ⟨hvab, hxab⟩, h₁, rfl⟩ := List.forall₂_cons_left_iff.1 hvalues
  obtain ⟨va, _, ⟨hva, hxa⟩, h₂, rfl⟩ := List.forall₂_cons_left_iff.1 h₁
  obtain ⟨vb, _, ⟨hvb, hxb⟩, h₃, rfl⟩ := List.forall₂_cons_left_iff.1 h₂
  obtain ⟨vo, _, -, h₄, rfl⟩ := List.forall₂_cons_left_iff.1 h₃
  obtain ⟨vc, _, -, -, rfl⟩ := List.forall₂_cons_left_iff.1 h₄
  obtain ⟨hrab, hltab⟩ := reads_of_hasConstant hvab hxab
  obtain ⟨hra, -⟩ := reads_of_hasConstant hva hxa
  obtain ⟨hrb, -⟩ := reads_of_hasConstant hvb hxb
  have hfits : (productFits vab va vb && shiftFits vo vab vc &&
      productFits vo (shiftWidth va vc) vb) = true := hcheck
  simp only [Bool.and_eq_true] at hfits
  have hle : ρ "wa" + ρ "wb" ≤ ρ "wab" :=
    Binary64.le_of_ge hrab hltab (hra.add hrb) hfits.1.1
  -- neither the product nor the shifted factor is cut
  have hproduct := operand_wrap (inRange_mul (operand_inRange (ρ "wa") 0 (ρ "a"))
    (operand_inRange (ρ "wb") 0 (ρ "b")) hle)
  have hshifted := operand_wrap (inRange_shift (operand_inRange (ρ "wa") 0 (ρ "a"))
    (toNat_operand_le (ρ "wc") (ρ "c")))
  show wrap (ρ "wo") (operand (ρ "wab") 0
      (wrap (ρ "wab") (operand (ρ "wa") 0 (ρ "a") * operand (ρ "wb") 0 (ρ "b"))) *
        2 ^ (operand (ρ "wc") 0 (ρ "c")).toNat) =
    wrap (ρ "wo") (operand (ρ "wa" + (2 ^ ρ "wc" - 1)) 0
      (wrap (ρ "wa" + (2 ^ ρ "wc" - 1))
        (operand (ρ "wa") 0 (ρ "a") * 2 ^ (operand (ρ "wc") 0 (ρ "c")).toNat)) *
        operand (ρ "wb") 0 (ρ "b"))
  rw [hproduct, hshifted]
  exact congrArg (wrap (ρ "wo")) (mul_right_comm _ _ _)

/-- Every rule of the catalog respects the meaning of terms. -/
theorem validates_catalog {r : Rule} (hr : r ∈ catalog) :
    (bitVector env other).ValidatesOn Exact r.toEquation := by
  simp only [catalog, List.mem_cons, List.not_mem_nil, or_false] at hr
  rcases hr with rfl | rfl | rfl | rfl | rfl | rfl
  · exact validates_commuteAdd
  · exact validates_commuteMul
  · exact validates_mergeLeftShift
  · exact validates_unmergeLeftShift
  · exact validates_multToAdd
  · exact validates_leftShiftMult

/-! ## The prover -/

/-- The constants of all numbers are those of the classes. -/
theorem within_of_classIds {ok : Binary64 → Prop} {g : EGraph} (hw : g.WellFormed)
    (h : ∀ id ∈ g.classIds, ∀ c ∈ (g.record id).constant, ok c) :
    EGraph.Within ok g := by
  intro id hid c hc
  exact h _ ((EGraph.mem_classIds hw).2 ⟨hw.root_lt hid, hw.root_root id⟩) c hc

/-- Terms that the catalog proves equivalent have the same meaning whatever the
symbols are, provided no width was rounded. -/
theorem meaning_eq_of_prove {rules : List Rule} (hrules : ∀ r ∈ rules, r ∈ catalog)
    {lhs rhs : String} {o : Options} {v : Verdict} {g : EGraph}
    (hrun : prove lhs rhs (rules.map Rule.toEquation) o = .ok (v, g))
    (hexact : ∀ id ∈ g.classIds, ∀ c ∈ (g.record id).constant, Exact c)
    (heq : v.equivalent = true) :
    ∃ p q, Pattern.parse lhs = .ok p ∧ Pattern.parse rhs = .ok q ∧
      p.vars = [] ∧ q.vars = [] ∧
      ∀ env other, meaning env other p = meaning env other q := by
  have hwithin := within_of_classIds (EGraph.wellFormed_of_prove hrun) hexact
  have hsound (env : String → ℕ) (other : Operator → ℕ → ℤ → ℤ → ℕ) :=
    EGraph.value_eq_of_prove_within (M := bitVector env other) foldsOn_exact
      zeroBlind_exact (List.forall_mem_map.2 fun r hr =>
        validates_catalog (hrules r hr)) hrun hwithin heq
  obtain ⟨p, q, hp, hq, hpv, hqv, -⟩ := hsound (fun _ => 0) fun _ _ _ _ => 0
  refine ⟨p, q, hp, hq, hpv, hqv, fun env other => ?_⟩
  -- parsing does not depend on the symbols, so the terms are the same for all of
  -- them
  obtain ⟨p', q', hp', hq', -, -, hval⟩ := hsound env other
  cases hp.symm.trans hp'
  cases hq.symm.trans hq'
  exact hval _

/-- Doubling and adding to itself, for a factor of two bits. -/
theorem meaning_eq_of_prove_multToAdd :
    ∃ v g, prove "(* 9 8 sign A 2 unsign 2)" "(+ 9 8 sign A 8 sign A)"
        ([Catalog.multToAdd].map Rule.toEquation) {} = .ok (v, g) ∧
        v.equivalent = true ∧
      (∀ id ∈ g.classIds, ∀ c ∈ (g.record id).constant, Exact c) ∧
      ∃ p q, Pattern.parse "(* 9 8 sign A 2 unsign 2)" = .ok p ∧
        Pattern.parse "(+ 9 8 sign A 8 sign A)" = .ok q ∧ p.vars = [] ∧ q.vars = [] ∧
        ∀ env other, meaning env other p = meaning env other q := by
  have hrun : (prove "(* 9 8 sign A 2 unsign 2)" "(+ 9 8 sign A 8 sign A)"
      ([Catalog.multToAdd].map Rule.toEquation) {}).toOption.map (fun r =>
        r.1.equivalent && decide (∀ id ∈ r.2.classIds,
          ∀ c ∈ (r.2.record id).constant, Exact c)) = some true := by
    decide +kernel
  obtain ⟨⟨v, g⟩, hok, hboth⟩ := Option.map_eq_some_iff.1 hrun
  obtain ⟨heq, hexact⟩ := Bool.and_eq_true_iff.1 hboth
  have hcatalog : ∀ r ∈ [Catalog.multToAdd], r ∈ catalog := fun r hr => by
    obtain rfl := List.mem_singleton.1 hr
    simp [catalog]
  have hprove := toOption_inv hok
  have hconst := of_decide_eq_true hexact
  exact ⟨v, g, hprove, heq, hconst, meaning_eq_of_prove hcatalog hprove hconst heq⟩

end Datapath
