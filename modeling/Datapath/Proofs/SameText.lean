import Datapath.Proofs.RoundTrip

/-!
# Datapath.Proofs.SameText

Which patterns have the same text.

Patterns are compared by what is written, and one text is not told apart: an infinite
literal is written like the symbol of that name. So a pattern is taken to what its
text looks like, with that symbol in place of every infinite literal
(`Pattern.asWritten`). It has the text of the pattern it comes from, and since no
infinite literal is left, it can be told from this text. Patterns that were read
therefore have the same text exactly if they are taken to the same pattern, and if
their literals are finite, exactly if they are equal.

A numeral of more than three hundred digits is read as an infinite literal, so both
kinds of leaves are read from texts (`sameText_symbol_numeral`).
-/

namespace Datapath

namespace Pattern

attribute [local irreducible] Binary64.unitsPerOne Binary64.limit

variable {p q : Pattern}

/-! ## What a text looks like -/

/-- The pattern with the symbol `Infinity` in place of every infinite literal. -/
def asWritten : Pattern → Pattern
  | var name => var name
  | literal value =>
      if value = .infinity false then symbol "Infinity" else literal value
  | sign s => sign s
  | symbol name => symbol name
  | derived fn left right => derived fn left.asWritten right.asWritten
  | binary op w wa sa a wb sb b =>
    binary op w.asWritten wa.asWritten sa.asWritten a.asWritten wb.asWritten
      sb.asWritten b.asWritten

theorem slots_asWritten (p : Pattern) :
    p.asWritten.slots = p.slots.map asWritten := by
  cases p with
  | literal v => rw [asWritten]; split <;> rfl
  | var | sign | symbol | derived | binary => rfl

/-- The parts are replaced one by one. -/
theorem parts_asWritten (p : Pattern) :
    p.asWritten.parts = p.parts.map asWritten := by
  induction p with
  | var | sign | symbol => rfl
  | literal v =>
      simp only [parts, List.map_cons, List.map_nil, asWritten]
      split <;> rfl
  | derived fn l r hl hr => simp [asWritten, parts, hl, hr]
  | binary op w wa sa a wb sb b hw hwa hsa ha hwb hsb hb =>
      simp [asWritten, parts, hw, hwa, hsa, ha, hwb, hsb, hb]

/-- The text stays the same. -/
theorem renderOnto_asWritten (p : Pattern) (rest : List Char) :
    p.asWritten.renderOnto rest = p.renderOnto rest := by
  induction p generalizing rest with
  | var | sign | symbol => rfl
  | literal v =>
      rw [asWritten]
      split
      · next hv =>
        rw [hv]
        rfl
      · rfl
  | derived fn l r hl hr => simp only [asWritten, renderOnto, hl, hr]
  | binary op w wa sa a wb sb b hw hwa hsa ha hwb hsb hb =>
      simp only [asWritten, renderOnto, hw, hwa, hsa, ha, hwb, hsb, hb]

theorem toText_asWritten (p : Pattern) : p.asWritten.toText = p.toText := by
  rw [toText, toText, render, render, renderOnto_asWritten]

/-- Only an infinite literal changes among leaves. -/
theorem asWritten_leaf (hp : p.slots = []) :
    p.asWritten = p ∧ p ≠ literal (.infinity false) ∨
    p.asWritten = symbol "Infinity" := by
  cases p with
  | derived | binary => cases hp
  | var | sign | symbol => exact Or.inl ⟨rfl, by simp⟩
  | literal v =>
      by_cases hv : v = .infinity false
      · exact Or.inr (if_pos hv)
      · exact Or.inl ⟨if_neg hv, by simpa using hv⟩

theorem FiniteLiterals.slot (h : p.FiniteLiterals) (hq : q ∈ p.slots) :
    q.FiniteLiterals := by
  intro v hv
  exact h v (mem_parts_trans (mem_parts_of_mem_slots hq) hv)

/-- A pattern of finite literals is taken to itself. -/
theorem FiniteLiterals.asWritten_eq (h : p.FiniteLiterals) : p.asWritten = p := by
  induction p with
  | var | sign | symbol => rfl
  | literal v =>
      refine if_neg ?_
      rintro rfl
      obtain ⟨s, u, hu, hfinite⟩ := h _ (mem_parts_self _)
      cases hfinite
  | derived fn l r hl hr =>
      rw [asWritten, hl (h.slot (by simp [slots])), hr (h.slot (by simp [slots]))]
  | binary op w wa sa a wb sb b hw hwa hsa ha hwb hsb hb =>
      rw [asWritten, hw (h.slot (by simp [slots])), hwa (h.slot (by simp [slots])),
        hsa (h.slot (by simp [slots])), ha (h.slot (by simp [slots])),
        hwb (h.slot (by simp [slots])), hsb (h.slot (by simp [slots])),
        hb (h.slot (by simp [slots]))]

/-! ## Telling patterns apart -/

theorem atom_infinity :
    IsWord "Infinity".toList ∧ atom "Infinity" = .ok (symbol "Infinity") := by
  refine ⟨?_, by decide⟩
  simp [IsWord, isBlank, blankRanges]

/-- What a pattern is taken to can be told from its text, if the leaves of the
pattern are atoms. -/
theorem Atomic.legible_asWritten (h : p.Atomic) : p.asWritten.Legible := by
  constructor
  case atomic =>
    intro q hq hslots
    rw [parts_asWritten, List.mem_map] at hq
    obtain ⟨r, hr, rfl⟩ := hq
    rw [slots_asWritten, List.map_eq_nil_iff] at hslots
    rcases asWritten_leaf hslots with ⟨hsame, -⟩ | hsymbol
    · rw [hsame]
      exact h r hr hslots
    · rw [hsymbol]
      exact ⟨"Infinity", atom_infinity⟩
  case finite =>
    intro v hv
    rw [parts_asWritten, List.mem_map] at hv
    obtain ⟨r, hr, hrv⟩ := hv
    have hslots : r.slots = [] := by
      rw [← List.map_eq_nil_iff, ← slots_asWritten, hrv]
      rfl
    rcases asWritten_leaf hslots with ⟨hsame, hne⟩ | hsymbol
    · rw [hsame] at hrv
      subst hrv
      -- a literal that stays is the value of a numeral, and not the infinity
      obtain ⟨n, rfl⟩ := h.literal hr
      rcases Binary64.ofNat_cases n with hn | ⟨w, hu, hn⟩
      · rw [hn] at hne
        exact absurd rfl hne
      · exact ⟨false, _, hu, hn⟩
    · rw [hsymbol] at hrv
      cases hrv

/-- Patterns of atoms have one text exactly if they are taken to one pattern. -/
theorem sameText_iff (hp : p.Atomic) (hq : q.Atomic) :
    p.sameText q = true ↔ p.asWritten = q.asWritten := by
  constructor
  · intro h
    refine eq_of_sameText hp.legible_asWritten hq.legible_asWritten ?_
    rw [sameText, toText_asWritten, toText_asWritten]
    exact h
  · intro h
    rw [sameText, ← toText_asWritten p, ← toText_asWritten q, h]
    simp

/-- Patterns that were read have the same text exactly if they are equal but for
infinite literals that stand where the other has the symbol of that name. -/
theorem sameText_iff_asWritten_eq {text other : String} (hp : parse text = .ok p)
    (hq : parse other = .ok q) : (p.sameText q = true ↔ p.asWritten = q.asWritten) ∧
      (p.FiniteLiterals → q.FiniteLiterals → (p.sameText q = true ↔ p = q)) := by
  have hsame := sameText_iff (atomic_of_parse hp) (atomic_of_parse hq)
  refine ⟨hsame, ?_⟩
  intro hpfinite hqfinite
  rw [hsame, hpfinite.asWritten_eq, hqfinite.asWritten_eq]

/-- A text of digits is read as the number that they write. -/
theorem parse_digits {ds : List Char} (hne : ds ≠ []) (hds : ∀ d ∈ ds, IsDigit d) :
    parse (String.ofList ds) = .ok (literal (.ofNat (numeralValue ds))) := by
  have hword : IsWord ds :=
    ⟨hne, fun d hd => isWordChar_of_isDigit (isDigit_iff.2 (hds d hd))⟩
  -- the text is a single word, which no separator cuts up
  have hspells : Token.Spells (ds ++ []) [.word (String.ofList ds)] :=
    .word hword (by simp) .nil
  have htokens : tokenize (String.ofList ds) = [.word (String.ofList ds)] := by
    rw [tokenize, String.toList_ofList]
    simpa using hspells.eq_ofChars.symm
  rw [parse_iff_derives, htokens]
  refine .atom ?_
  rw [String.toList_ofList]
  exact .numeral hne hds

/-- A text of 309 nines is read as an infinite literal. -/
theorem parse_nines :
    parse (String.ofList (List.replicate 309 '9')) =
      .ok (literal (.infinity false)) := by
  have hvalue : Binary64.ofNat (numeralValue (List.replicate 309 '9')) =
      .infinity false := by
    decide +kernel
  have hdigits : ∀ d ∈ List.replicate 309 '9', IsDigit d := by
    intro d hd
    rw [List.eq_of_mem_replicate hd]
    exact ⟨by decide, by decide⟩
  have hne : List.replicate 309 '9' ≠ [] := List.cons_ne_nil '9' _
  rw [parse_digits hne hdigits, hvalue]

/-- A symbol and a numeral are not told apart, and a symbol and another numeral in a
slot are. -/
theorem sameText_iff_asWritten_eq_infinity : ∃ p q r s,
    parse "Infinity" = .ok p ∧
    parse (String.ofList (List.replicate 309 '9')) = .ok q ∧
    parse "(max+1 Infinity ?a)" = .ok r ∧ parse "(max+1 8 ?a)" = .ok s ∧
    (p.asWritten = q.asWritten ∧ p.sameText q = true) ∧
    (r.FiniteLiterals ∧ s.FiniteLiterals ∧ r ≠ s ∧ r.sameText s = false) := by
  have hp : parse "Infinity" = .ok (symbol "Infinity") := by decide +kernel
  have hr : parse "(max+1 Infinity ?a)" =
      .ok (derived .sum (symbol "Infinity") (var "a")) := by
    decide +kernel
  have hs : parse "(max+1 8 ?a)" = .ok (derived .sum (literal 8) (var "a")) := by
    decide +kernel
  have hrfinite : (derived .sum (symbol "Infinity") (var "a")).FiniteLiterals := by
    decide
  have hsfinite : (derived .sum (literal 8) (var "a")).FiniteLiterals := by
    decide +kernel
  have hsame := (sameText_iff_asWritten_eq hp parse_nines).1
  have hdiffer := (sameText_iff_asWritten_eq hr hs).2 hrfinite hsfinite
  refine ⟨_, _, _, _, hp, parse_nines, hr, hs, ⟨rfl, hsame.2 rfl⟩, hrfinite,
    hsfinite, by simp, ?_⟩
  rw [Bool.eq_false_iff, ne_eq, hdiffer]
  simp

/-- A symbol and a numeral have the same text although they are different
patterns. -/
theorem sameText_symbol_numeral : ∃ p q, parse "Infinity" = .ok p ∧
    parse (String.ofList (List.replicate 309 '9')) = .ok q ∧
    p.sameText q = true ∧ p ≠ q := by
  refine ⟨symbol "Infinity",
    literal (.infinity false), by decide +kernel, parse_nines, ?_, by simp⟩
  decide

end Pattern

end Datapath
