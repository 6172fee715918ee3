import Datapath.Proofs.Grammar
import Datapath.Proofs.Shortest

/-!
# Datapath.Proofs.RoundTrip

Which patterns are read back from their text.

A pattern that was read is written with one token for each leaf, so reading its text
reads each leaf again (`Reader.run_tokens`). Leaves other than literals are written
as the word they were read from. A literal below `10 ^ 21` is written with digits
only, which stand for it. From there on the point is behind the 21st digit, and a
finite literal is written with an exponent, which no atom has; an infinite one is
written like the symbol of that name, and so is that symbol.
-/

namespace Datapath

/-! ## Texts of whole numbers -/

namespace Binary64

variable {n s k u w : ℕ} {point : ℤ} {x : Binary64} {cs : List Char}

attribute [local irreducible] unitsPerOne limit

/-- Rounding a whole number gives a whole number. -/
theorem unitsPerOne_dvd_nearest (n : ℕ) :
    unitsPerOne ∣ nearest (n * unitsPerOne) 1 := by
  rcases Nat.lt_or_ge n (2 ^ 53) with hn | hn
  · rw [nearest_of_fits (fits_whole hn.le)]
    exact dvd_mul_left _ _
  · -- the last place is not behind the point
    obtain ⟨e, he⟩ : ∃ e, unitsPerOne = 2 ^ e := ⟨_, unitsPerOne_eq⟩
    have hlog : 53 + e ≤ (n * unitsPerOne).log2 := by
      rw [Nat.le_log2 (Nat.mul_ne_zero (by omega) unitsPerOne_pos.ne'),
        pow_add, ← he]
      exact Nat.mul_le_mul_right _ hn
    have hdvd : unitsPerOne ∣ 2 ^ surplus (n * unitsPerOne) := by
      conv_lhs => rw [he]
      exact pow_dvd_pow 2 (by unfold surplus; omega)
    rw [nearest_one]
    exact hdvd.mul_left _

/-- The value of a whole number is whole or infinite. -/
theorem ofNat_cases (n : ℕ) : ofNat n = infinity false ∨
    ∃ w, ∃ hu : Fits (w * unitsPerOne),
      ofNat n = finite false (w * unitsPerOne) hu := by
  unfold ofNat round
  split
  · next h =>
    obtain ⟨w, hw⟩ := unitsPerOne_dvd_nearest n
    refine Or.inr ⟨w, ?_, ?_⟩
    · rw [Nat.mul_comm, ← hw]
      exact fits_nearest h
    · congr 1
      rw [hw, Nat.mul_comm]
  · exact Or.inl rfl

end Binary64

/-! ## Reading a text again -/

namespace Pattern

attribute [local irreducible] Binary64.unitsPerOne Binary64.limit

variable {p q : Pattern} {text : String} {v : Binary64} {rest : List Char}
  {ts : List Token}

/-- The tokens of a pattern's text, if each leaf is written as a word. -/
def tokens : Pattern → List Token
  | derived fn left right =>
    .lparen :: .word fn.symbol :: (left.tokens ++ right.tokens ++ [.rparen])
  | binary op w wa sa a wb sb b =>
    .lparen :: .word op.symbol ::
      (w.tokens ++ wa.tokens ++ sa.tokens ++ a.tokens ++ wb.tokens
      ++ sb.tokens ++ b.tokens ++ [.rparen])
  | p => [.word p.toText]

/-- All leaves have a property. -/
def Leaves (P : Pattern → Prop) (p : Pattern) : Prop :=
  ∀ q ∈ p.parts, q.slots = [] → P q

variable {P : Pattern → Prop}

theorem Leaves.slots (h : p.Leaves P) : ∀ q ∈ p.slots, q.Leaves P := fun _ hq r hr =>
  h r (mem_parts_trans (mem_parts_of_mem_slots hq) hr)

end Pattern

end Datapath
