import Datapath.Binary64.Decimal
import Datapath.Proofs.Rounding

/-!
# Datapath.Proofs.Decimals

Numbers read back from their text.

A text stands for a decimal, and rounding the decimal gives a value. The digits of a
text may differ from those of the decimal that was written by zeros at the end, which
the exponent makes up for, and rounding does not see this
(`Decimal.toBinary64_shift`). As the shortest decimal of a value is one that rounds
to it, every finite value without a sign is read back from its text
(`exists_readDecimal`), and different values have different texts (`render_inj`).
-/

namespace Datapath

/-! ## Where the first part of a list ends -/

section

variable {α : Type} {p : α → Bool} {before before' after after' : List α}

/-- What is left after a part that passes a test, if what follows does not begin with
more of it. -/
theorem dropWhile_append_eq (hbefore : ∀ c ∈ before, p c = true)
    (hafter : ∀ c ∈ after.head?, p c = false) :
    (before ++ after).dropWhile p = after := by
  rw [List.dropWhile_append_of_pos hbefore]
  cases after with
  | nil => rfl
  | cons c after => simp [hafter c rfl]

/-- The part itself is what was taken. -/
theorem takeWhile_append_eq (hbefore : ∀ c ∈ before, p c = true)
    (hafter : ∀ c ∈ after.head?, p c = false) :
    (before ++ after).takeWhile p = before := by
  rw [List.takeWhile_append_of_pos hbefore]
  cases after with
  | nil => simp
  | cons c after => simp [hafter c rfl]

/-- Two parts are told apart if a test holds in the first, and not where the second
begins. -/
theorem append_inj_of_stop (hbefore : ∀ c ∈ before, p c = true)
    (hbefore' : ∀ c ∈ before', p c = true)
    (hafter : ∀ c ∈ after.head?, p c = false)
    (hafter' : ∀ c ∈ after'.head?, p c = false)
    (h : before ++ after = before' ++ after') : before = before' ∧ after = after' :=
  ⟨by
    rw [← takeWhile_append_eq hbefore hafter, h,
      takeWhile_append_eq hbefore' hafter'],
    by
    rw [← dropWhile_append_eq hbefore hafter, h,
      dropWhile_append_eq hbefore' hafter']⟩

end

namespace Binary64

variable {a b a' b' n u : ℕ} {s : Bool} {d : Decimal} {ds w f t : List Char}

/-! ## Rounding fractions -/

/-- A common factor does not change the rounded quotient. -/
theorem roundDiv_mul_right (a b : ℕ) {c : ℕ} (hc : 0 < c) :
    roundDiv (a * c) (b * c) = roundDiv a b := by
  have hlt : 2 * (a % b * c) < b * c ↔ 2 * (a % b) < b := by
    rw [← Nat.mul_assoc, Nat.mul_lt_mul_right hc]
  have heq : 2 * (a % b * c) = b * c ↔ 2 * (a % b) = b := by
    rw [← Nat.mul_assoc, Nat.mul_left_inj hc.ne']
  unfold roundDiv
  rw [Nat.mul_div_mul_right _ _ hc, Nat.mul_mod_mul_right]
  simp only [hlt, heq]

/-- A common factor does not change the nearest number that has few enough bits. -/
theorem nearest_mul_right (a b : ℕ) {c : ℕ} (hc : 0 < c) :
    nearest (a * c) (b * c) = nearest a b := by
  unfold nearest
  dsimp only
  rw [Nat.mul_div_mul_right _ _ hc, Nat.mul_right_comm, roundDiv_mul_right _ _ hc]

/-- Equal fractions have the same nearest number. -/
theorem nearest_eq_of_mul_eq (hb : 0 < b) (hb' : 0 < b') (h : a * b' = a' * b) :
    nearest a b = nearest a' b' := by
  rw [← nearest_mul_right a b hb', h, Nat.mul_comm b b', nearest_mul_right a' b' hb]

theorem round_eq_of_mul_eq (s : Bool) (hb : 0 < b) (hb' : 0 < b')
    (h : a * b' = a' * b) : round s a b = round s a' b' := by
  unfold round
  simp only [nearest_eq_of_mul_eq hb hb' h]

/-- A decimal is rounded as a fraction of whole numbers, with the power of ten above
or below the line. -/
theorem Decimal.toBinary64_eq (d : Decimal) (s : Bool) :
    d.toBinary64 s =
      round s (d.digits * 10 ^ d.exponent.toNat * unitsPerOne)
        (10 ^ (-d.exponent).toNat) := by
  unfold toBinary64
  simp only [Nat.pow_eq]
  split
  · next h => rw [show (-d.exponent).toNat = 0 by omega, pow_zero]
  · next h => rw [show d.exponent.toNat = 0 by omega, pow_zero, Nat.mul_one]

/-- Zeros at the end of the digits can be taken into the exponent. The two fractions
that are rounded are equal, whatever the sign of the exponent is. -/
theorem Decimal.toBinary64_shift (m k : ℕ) (e : ℤ) (s : Bool) :
    (⟨m * 10 ^ k, e⟩ : Decimal).toBinary64 s =
      (⟨m, e + k⟩ : Decimal).toBinary64 s := by
  rw [toBinary64_eq, toBinary64_eq]
  refine round_eq_of_mul_eq s (Nat.pow_pos (by decide)) (Nat.pow_pos (by decide)) ?_
  generalize unitsPerOne = unit
  have hexponent : k + e.toNat + (-(e + k)).toNat =
      (e + k).toNat + (-e).toNat := by omega
  calc m * 10 ^ k * 10 ^ e.toNat * unit * 10 ^ (-(e + k)).toNat
      = m * 10 ^ (k + e.toNat + (-(e + k)).toNat) * unit := by
        rw [pow_add, pow_add]
        ac_rfl
    _ = m * 10 ^ ((e + k).toNat + (-e).toNat) * unit := by rw [hexponent]
    _ = m * 10 ^ (e + k).toNat * unit * 10 ^ (-e).toNat := by
        rw [pow_add]
        ac_rfl

/-! ## The shortest decimal -/

/-- If the unit is a power of two, a number of units is a decimal with as many digits
after the point. -/
theorem toBinary64_pow_five {n : ℕ} (hunit : unitsPerOne = 2 ^ n) (u : ℕ)
    (s : Bool) : (⟨u * Nat.pow 5 n, -n⟩ : Decimal).toBinary64 s = round s u 1 := by
  rw [Decimal.toBinary64_eq]
  refine round_eq_of_mul_eq s (Nat.pow_pos (by decide)) Nat.one_pos ?_
  dsimp only
  rw [hunit, show (-(n : ℤ)).toNat = 0 by omega, show (- -(n : ℤ)).toNat = n by omega,
    Nat.pow_eq, pow_zero, Nat.mul_one, Nat.mul_one, Nat.mul_assoc, ← Nat.mul_pow]

/-- The expansion of a number of units, which is exact, rounds to it. -/
theorem toBinary64_expansion (u : ℕ) :
    (expansion u).toBinary64 false = round false u 1 := by
  have hunit := unitsPerOne_eq
  show (⟨u * Nat.pow 5 1074, -((1074 : ℕ) : ℤ)⟩ : Decimal).toBinary64 false = _
  generalize 1074 = n at hunit ⊢
  exact toBinary64_pow_five hunit u false

/-- A decimal is readable if it rounds to the number, so this is how it was
chosen. -/
theorem toBinary64_of_readable? {point : ℤ} (h : readable? u point n = some d) :
    d.toBinary64 false = round false u 1 := by
  unfold readable? at h
  dsimp only at h
  split at h
  · next hnear => exact Option.some.inj h ▸ hnear
  · split at h
    · next hfar => exact Option.some.inj h ▸ hfar
    · cases h

/-- The shortest decimal of a value rounds to it. -/
theorem toBinary64_shortest (u : ℕ) :
    (shortest u).toBinary64 false = round false u 1 := by
  unfold shortest
  dsimp only
  cases hfind : (List.range 17).findSome? fun i =>
    readable? u (pointPosition u) (i + 1) with
  | some d =>
      obtain ⟨i, -, hi⟩ := List.exists_of_findSome?_eq_some hfind
      exact toBinary64_of_readable? hi
  | none => exact toBinary64_expansion u

/-! ## Digits -/

/-- All characters are decimal digits. -/
def Digits (ds : List Char) : Prop := ∀ c ∈ ds, c.isDigit = true

theorem digits_toDigits (n : ℕ) : Digits (Nat.toDigits 10 n) := fun _ hc =>
  Nat.isDigit_of_mem_toDigits (by decide) (by decide) hc

theorem digitsValue_append (n : ℕ) (ds es : List Char) :
    digitsValue n (ds ++ es) = digitsValue (digitsValue n ds) es :=
  List.foldl_append

theorem digitsValue_toDigits (n : ℕ) : digitsValue 0 (Nat.toDigits 10 n) = n :=
  Nat.ofDigitChars_ten_toDigits

theorem digitsValue_zeros (n k : ℕ) :
    digitsValue n (List.replicate k '0') = n * 10 ^ k :=
  Nat.ofDigitChars_replicate_zero.trans (Nat.mul_comm _ _)

theorem digits_zeros (k : ℕ) : Digits (List.replicate k '0') := fun c hc => by
  rw [List.eq_of_mem_replicate hc]
  rfl

/-- What may follow the digits of a number: an exponent, or nothing. -/
def EndsDigits (t : List Char) : Prop := t = [] ∨ ∃ rest, t = 'e' :: rest

theorem takeWhile_digits (hd : Digits ds) (ht : t.takeWhile Char.isDigit = []) :
    (ds ++ t).takeWhile Char.isDigit = ds := by
  rw [List.takeWhile_append_of_pos hd, ht, List.append_nil]

theorem dropWhile_digits (hd : Digits ds) (ht : t.dropWhile Char.isDigit = t) :
    (ds ++ t).dropWhile Char.isDigit = t := by
  rw [List.dropWhile_append_of_pos hd, ht]

theorem EndsDigits.takeWhile (h : EndsDigits t) : t.takeWhile Char.isDigit = [] := by
  rcases h with rfl | ⟨rest, rfl⟩ <;> rfl

theorem EndsDigits.dropWhile (h : EndsDigits t) : t.dropWhile Char.isDigit = t := by
  rcases h with rfl | ⟨rest, rfl⟩ <;> rfl

/-! ## Reading decimals -/

/-- Digits without a point are a whole number, to which an exponent may be added. -/
theorem readDecimal_whole (hw : Digits w) (hne : w ≠ []) (ht : EndsDigits t) :
    readDecimal (w ++ t) =
      (readExponent t).map fun e => ⟨digitsValue 0 w, e⟩ := by
  unfold readDecimal
  dsimp only
  rw [takeWhile_digits hw ht.takeWhile, dropWhile_digits hw ht.dropWhile]
  rcases ht with rfl | ⟨rest, rfl⟩ <;> simp [hne, digitsValue]

/-- Digits after a point are read like those before it, and counted by the
exponent. -/
theorem readDecimal_point (hw : Digits w) (hne : w ≠ []) (hf : Digits f)
    (ht : EndsDigits t) :
    readDecimal (w ++ '.' :: (f ++ t)) = (readExponent t).map fun e =>
      ⟨digitsValue 0 (w ++ f), e - f.length⟩ := by
  have htake := takeWhile_digits (t := '.' :: (f ++ t)) hw rfl
  have hdrop := dropWhile_digits (t := '.' :: (f ++ t)) hw rfl
  unfold readDecimal
  simp only [htake, hdrop, takeWhile_digits hf ht.takeWhile,
    dropWhile_digits hf ht.dropWhile]
  simp [hne, digitsValue_append]

/-- An exponent is written with its sign and read back. -/
theorem readExponent_toDigits (e : ℤ) :
    readExponent ('e' :: (if e < 0 then '-' else '+') :: Nat.toDigits 10 e.natAbs) =
      some e := by
  have hne : (Nat.toDigits 10 e.natAbs).isEmpty = false := by
    rw [List.isEmpty_eq_false_iff]
    exact Nat.toDigits_ne_nil
  have hall : (Nat.toDigits 10 e.natAbs).all Char.isDigit = true :=
    List.all_eq_true.2 (digits_toDigits _)
  by_cases he : e < 0
  · simp [readExponent, takeSign, he, hne, hall, digitsValue_toDigits, abs_of_neg he]
  · simp [readExponent, takeSign, he, hne, hall, digitsValue_toDigits,
      abs_of_nonneg (not_lt.1 he)]

/-! ## Reading what was written -/

/-- Zeros after the digits are digits, too. -/
theorem readDecimal_padded (hd : Digits ds) (hne : ds ≠ []) (k : ℕ) :
    readDecimal (ds ++ List.replicate k '0') =
      some ⟨digitsValue 0 ds * 10 ^ k, 0⟩ := by
  have hread := readDecimal_whole (w := ds ++ List.replicate k '0') (t := [])
    (fun c hc => (List.mem_append.1 hc).elim (hd c) (digits_zeros k c))
      (by simp [hne]) (Or.inl rfl)
  rw [List.append_nil, digitsValue_append, digitsValue_zeros] at hread
  exact hread

/-- A point between two digits counts those after it. -/
theorem readDecimal_split (hd : Digits ds) (hne : ds ≠ []) {n : ℕ} (hn : n ≠ 0) :
    readDecimal (ds.take n ++ '.' :: ds.drop n) =
      some ⟨digitsValue 0 ds, 0 - (ds.length - n : ℕ)⟩ := by
  have hread := readDecimal_point (w := ds.take n) (f := ds.drop n) (t := [])
    (fun c hc => hd c (List.mem_of_mem_take hc))
    (by simp only [ne_eq, List.take_eq_nil_iff, hn, hne, or_self, not_false_eq_true])
    (fun c hc => hd c (List.mem_of_mem_drop hc)) (Or.inl rfl)
  rw [List.append_nil, List.take_append_drop, List.length_drop] at hread
  exact hread

/-- Zeros before the digits add nothing to their value. -/
theorem readDecimal_small (hd : Digits ds) (k : ℕ) :
    readDecimal ('0' :: '.' :: List.replicate k '0' ++ ds) =
      some ⟨digitsValue 0 ds, 0 - (k + ds.length : ℕ)⟩ := by
  have hread :=
    readDecimal_point (w := ['0']) (f := List.replicate k '0' ++ ds) (t := [])
    (by simp [Digits]) (by simp)
      (fun c hc => (List.mem_append.1 hc).elim (digits_zeros k c)
        (hd c)) (Or.inl rfl)
  rw [List.append_nil, digitsValue_append, digitsValue_append, digitsValue_zeros,
    List.length_append, List.length_replicate, show digitsValue 0 ['0'] = 0 from rfl,
    Nat.zero_mul] at hread
  exact hread

theorem endsDigits_exponent (e : ℤ) :
    EndsDigits ('e' :: (if e < 0 then '-' else '+') :: Nat.toDigits 10 e.natAbs) :=
  Or.inr ⟨_, rfl⟩

/-- A layout is read as a decimal of the value that its digits have at its point.
There are four layouts: digits padded by zeros, digits with a point inside, digits
after zeros, and digits with an exponent. -/
theorem exists_readDecimal_layout (hd : Digits ds) (hne : ds ≠ []) (point : ℤ) :
    ∃ d, readDecimal (layout ds point) = some d ∧
      ∀ s, d.toBinary64 s =
        (⟨digitsValue 0 ds, point - ds.length⟩ : Decimal).toBinary64 s := by
  unfold layout
  split
  · next h =>
    -- zeros up to the point move the exponent into the digits
    have hexponent : point - ds.length =
        0 + (point.toNat - ds.length : ℕ) := by omega
    refine ⟨_, readDecimal_padded hd hne _, fun s => ?_⟩
    rw [Decimal.toBinary64_shift, hexponent]
  suffices h : readDecimal _ = some ⟨digitsValue 0 ds, point - ds.length⟩ from
    ⟨_, h, fun s => rfl⟩
  split
  · next h =>
    have hexponent : (0 : ℤ) - (ds.length - point.toNat : ℕ) =
        point - ds.length := by omega
    rw [readDecimal_split hd hne (by omega), hexponent]
  split
  · next h =>
    have hexponent : (0 : ℤ) - ((-point).toNat + ds.length : ℕ) =
        point - ds.length := by omega
    rw [readDecimal_small hd, hexponent]
  -- what is left is written with an exponent, which counts from the first digit
  match ds, hne with
  | [c], _ =>
      have hread := readDecimal_whole hd (by simp) (endsDigits_exponent (point - 1))
      rw [readExponent_toDigits] at hread
      exact hread
  | c :: c' :: rest, _ =>
      have hexponent : point - 1 - ((c' :: rest).length : ℕ) =
          point - ((c :: c' :: rest).length : ℕ) := by
        simp only [List.length_cons]
        omega
      have hread := readDecimal_point (w := [c]) (f := c' :: rest)
        (fun x hx => hd x (by simp_all)) (by simp)
        (fun x hx => hd x (List.mem_cons_of_mem _ hx)) (endsDigits_exponent (point - 1))
      rw [readExponent_toDigits] at hread
      rw [← hexponent]
      exact hread

/-- The digits that are written are those of the decimal up to zeros at the end. They
are not empty, as the number is not zero. -/
theorem exists_toDigits (n : ℕ) (hn : n ≠ 0) : ∃ ds k, Digits ds ∧ ds ≠ [] ∧
    Nat.toDigits 10 n = ds ++ List.replicate k '0' ∧ n = digitsValue 0 ds * 10 ^ k ∧
    ((Nat.toDigits 10 n).reverse.dropWhile (· = '0')).reverse = ds := by
  have hsplit := (List.takeWhile_append_dropWhile (p := (· = '0'))
    (l := (Nat.toDigits 10 n).reverse)).symm
  have hzeros : ((Nat.toDigits 10 n).reverse.takeWhile (· = '0')).reverse =
      List.replicate ((Nat.toDigits 10 n).reverse.takeWhile (· = '0')).length '0' := by
    refine List.eq_replicate_iff.2 ⟨List.length_reverse, fun c hc => ?_⟩
    simpa using List.mem_takeWhile_imp (List.mem_reverse.1 hc)
  have hdigits := congrArg List.reverse hsplit
  rw [List.reverse_reverse, List.reverse_append, hzeros] at hdigits
  have hvalue := digitsValue_toDigits n
  -- so the digits that are kept have the value without the zeros
  rw [hdigits, digitsValue_append, digitsValue_zeros] at hvalue
  refine ⟨_, _, fun c hc => ?_, fun hnil => ?_, hdigits, hvalue.symm, rfl⟩
  · refine digits_toDigits n c ?_
    rw [hdigits]
    exact List.mem_append_left _ hc
  · rw [hnil] at hvalue
    exact hn (by simpa [digitsValue] using hvalue.symm)

/-- The text of a decimal is a layout of digits that have its value. -/
theorem exists_layout_render (hd : d.digits ≠ 0) : ∃ ds point, Digits ds ∧ ds ≠ [] ∧
    d.render = layout ds point ∧
    ∀ s, (⟨digitsValue 0 ds, point - ds.length⟩ : Decimal).toBinary64 s =
      d.toBinary64 s := by
  obtain ⟨ds, k, hds, hne, hdigits, hvalue, hstrip⟩ := exists_toDigits d.digits hd
  refine ⟨ds, (Nat.toDigits 10 d.digits).length + d.exponent, hds, hne,
    ?_, fun s => ?_⟩
  · unfold Decimal.render
    dsimp only
    rw [hstrip]
  · have hexponent :
        ((Nat.toDigits 10 d.digits).length + d.exponent : ℤ) - ds.length =
        d.exponent + k := by
      rw [hdigits, List.length_append, List.length_replicate]
      omega
    rw [hexponent, ← Decimal.toBinary64_shift, ← hvalue]

/-- The shortest decimal of a number that is not zero is not zero, since it rounds to
the number. -/
theorem shortest_digits_ne_zero (h : Fits u) (hu : u ≠ 0) :
    (shortest u).digits ≠ 0 := by
  intro hzero
  have hround (k : ℕ) : round false 0 (10 ^ k) = round false 0 1 :=
    round_eq_of_mul_eq false (Nat.pow_pos (by decide)) Nat.one_pos
      (by rw [Nat.zero_mul, Nat.zero_mul])
  have hshort := toBinary64_shortest u
  rw [round_of_fits false h, Decimal.toBinary64_eq, hzero, Nat.zero_mul,
    Nat.zero_mul, hround, round_of_fits false fits_zero] at hshort
  injection hshort with _ hzero
  exact hu hzero.symm

/-- A finite value without a sign is written as a layout of digits that have its
value. A whole number below `2 ^ 53` is written with all of its digits, and any other
number as its shortest decimal. -/
theorem exists_layout (h : Fits u) : ∃ ds point, Digits ds ∧ ds ≠ [] ∧
    renderUnits u = layout ds point ∧
    (⟨digitsValue 0 ds, point - ds.length⟩ : Decimal).toBinary64 false =
      finite false u h := by
  unfold renderUnits
  split
  · next hwhole =>
    obtain ⟨hdvd, hlt⟩ := hwhole
    -- few enough digits to be written without an exponent
    have hlength : (Nat.toDigits 10 (u / unitsPerOne)).length ≤ 16 :=
      (Nat.length_toDigits_le_iff (by decide) (by decide)).2
        (Nat.lt_trans hlt (by decide))
    refine ⟨Nat.toDigits 10 (u / unitsPerOne),
      (Nat.toDigits 10 (u / unitsPerOne)).length,
      digits_toDigits _, Nat.toDigits_ne_nil, ?_, ?_⟩
    · unfold layout
      rw [if_pos ⟨le_rfl, by omega⟩, Int.toNat_natCast, Nat.sub_self]
      exact (List.append_nil _).symm
    · rw [sub_self, digitsValue_toDigits,
        Decimal.toBinary64_eq, ← round_of_fits false h]
      show round false (u / unitsPerOne * 10 ^ 0 * unitsPerOne) (10 ^ 0) = _
      rw [pow_zero, Nat.mul_one, Nat.div_mul_cancel (Nat.dvd_of_mod_eq_zero hdvd)]
  · next hnot =>
    have hu : u ≠ 0 := fun hu => hnot
      ⟨by rw [hu, Nat.zero_mod], by
        rw [hu, Nat.zero_div]; exact Nat.pow_pos (by decide)⟩
    obtain ⟨ds, point, hds, hne, hlayout, hvalue⟩ :=
      exists_layout_render (shortest_digits_ne_zero h hu)
    exact ⟨ds, point, hds, hne, hlayout,
      by rw [hvalue, toBinary64_shortest, round_of_fits false h]⟩

/-- A finite value without a sign is read back from its text. -/
theorem exists_readDecimal (h : Fits u) :
    ∃ d, readDecimal (renderUnits u) = some d ∧
      d.toBinary64 false = finite false u h := by
  obtain ⟨ds, point, hds, hne, hlayout, hvalue⟩ := exists_layout h
  obtain ⟨d, hd, hvalues⟩ := exists_readDecimal_layout hds hne point
  exact ⟨d, by rw [hlayout, hd], by rw [hvalues, hvalue]⟩

theorem render_finite (u : ℕ) (h : Fits u) :
    render (finite false u h) = renderUnits u := by
  simp [render]

theorem renderUnits_zero : renderUnits 0 = ['0'] := by
  unfold renderUnits
  rw [if_pos ⟨Nat.zero_mod _, by rw [Nat.zero_div]; decide⟩, Nat.zero_div]
  rfl

theorem render_zero (s : Bool) (h : Fits 0) : render (finite s 0 h) = ['0'] := by
  simp [render, renderUnits_zero]

/-- Different finite values without a sign have different texts. -/
theorem render_inj {u' : ℕ} {h : Fits u} {h' : Fits u'}
    (heq : render (finite false u h) = render (finite false u' h')) :
    finite false u h = finite false u' h' := by
  rw [render_finite, render_finite] at heq
  obtain ⟨d, hd, hvalue⟩ := exists_readDecimal h
  obtain ⟨d', hd', hvalue'⟩ := exists_readDecimal h'
  rw [heq, hd'] at hd
  rw [← hvalue, ← hvalue', Option.some.inj hd]

/-! ## Characters -/

/-- A character that the text of a number without a sign may have. -/
def Numeral (c : Char) : Prop := c.isDigit = true ∨ c ∈ ['.', 'e', '-', '+']

theorem Digits.numeral (hd : Digits ds) : ∀ c ∈ ds, Numeral c :=
  fun c hc => Or.inl (hd c hc)

/-- The characters of an exponent may be in the text of a number. -/
theorem numeral_exponent (e : ℤ) :
    ∀ c ∈ 'e' :: (if e < 0 then '-' else '+') :: Nat.toDigits 10 e.natAbs,
      Numeral c := by
  refine List.forall_mem_cons.2 ⟨Or.inr (by decide),
    List.forall_mem_cons.2 ⟨Or.inr ?_, ?_⟩⟩
  · split <;> decide
  · exact (digits_toDigits _).numeral

/-- Every layout of digits is made of such characters, in each of its four forms. -/
theorem numeral_layout (hd : Digits ds) (point : ℤ) :
    ∀ c ∈ layout ds point, Numeral c := by
  have hpoint : Numeral '.' := Or.inr (by decide)
  unfold layout
  split
  · exact List.forall_mem_append.2 ⟨hd.numeral, (digits_zeros _).numeral⟩
  split
  · exact List.forall_mem_append.2
      ⟨fun c hc => hd.numeral c (List.mem_of_mem_take hc),
        List.forall_mem_cons.2 ⟨hpoint, fun c hc =>
          hd.numeral c (List.mem_of_mem_drop hc)⟩⟩
  split
  · exact List.forall_mem_append.2 ⟨List.forall_mem_cons.2 ⟨Or.inl rfl,
      List.forall_mem_cons.2 ⟨hpoint, (digits_zeros _).numeral⟩⟩, hd.numeral⟩
  · refine List.forall_mem_append.2 ⟨?_, numeral_exponent _⟩
    match ds with
    | [] | [_] => exact hd.numeral
    | d :: d' :: rest =>
        obtain ⟨hfirst, hrest⟩ := List.forall_mem_cons.1 hd.numeral
        exact List.forall_mem_cons.2 ⟨hfirst, List.forall_mem_cons.2 ⟨hpoint, hrest⟩⟩

/-- Every layout begins with a digit, as the point never comes first. -/
theorem exists_layout_eq_cons (hd : Digits ds) (hne : ds ≠ []) (point : ℤ) :
    ∃ c cs, layout ds point = c :: cs ∧ c.isDigit = true := by
  obtain ⟨d, rest, rfl⟩ := List.exists_cons_of_ne_nil hne
  have hfirst := hd d List.mem_cons_self
  unfold layout
  split
  · exact ⟨d, _, rfl, hfirst⟩
  split
  · next hpoint =>
    obtain ⟨k, hk⟩ : ∃ k, point.toNat = k + 1 := ⟨point.toNat - 1, by omega⟩
    rw [hk, List.take_succ_cons]
    exact ⟨d, _, rfl, hfirst⟩
  split
  · exact ⟨'0', _, rfl, rfl⟩
  · cases rest <;> exact ⟨d, _, rfl, hfirst⟩

/-- The text of a number starts with a digit and is made of digits, points, exponents
and signs. -/
theorem render_chars (u : ℕ) (h : Fits u) :
    ∃ c cs, render (finite false u h) = c :: cs ∧
    c.isDigit = true ∧ ∀ x ∈ c :: cs, x.isDigit = true ∨
      x ∈ ['.', 'e', '-', '+'] := by
  obtain ⟨ds, point, hds, hne, hlayout, -⟩ := exists_layout h
  obtain ⟨c, cs, hcons, hdigit⟩ := exists_layout_eq_cons hds hne point
  exact ⟨c, cs, by
    rw [render_finite, hlayout, hcons], hdigit, hcons ▸ numeral_layout hds point⟩

end Binary64

end Datapath
