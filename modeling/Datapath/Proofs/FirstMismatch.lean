import Datapath.Proofs.Completeness
import Datapath.Proofs.DeclaredWidths

/-!
# Datapath.Proofs.FirstMismatch

The check of declared widths finds the first mismatch.

An operand is addressed by the path of slot numbers that leads to its operation, and
by its number there (`Pattern.Place`). Places are ordered so that a node comes before
its sub-patterns, and slots and operands from left to right; for paths this is the
lexicographic order, in which a path comes before its extensions.
`Pattern.MismatchAt` says what a mismatch at a place is, with equality of patterns
where the check compares texts. For a pattern that was read and has finite literals
both are the same.

The check looks at the operands of a node and then into its slots, and takes the
first result (`ownMismatch?_eq`, `widthMismatch?_eq`). So by induction over the path
it finds nothing only if there is no mismatch, and by induction over the pattern what
it finds is before all others. The main result is `checkWidths_first`, which also
says which texts make a rule.
-/

namespace Datapath

/-- The first member of a list that is not mapped to nothing, and its place. -/
theorem exists_getElem?_of_findSome? {α β : Type} {f : α → Option β} {l : List α}
    {b : β} (h : l.findSome? f = some b) :
    ∃ (i : ℕ) (a : α), l[i]? = some a ∧ f a = some b ∧ ∀ j < i, ∀ c, l[j]? = some c →
      f c = none := by
  obtain ⟨before, a, after, rfl, ha, hbefore⟩ := List.findSome?_eq_some_iff.1 h
  refine ⟨before.length, a, by simp, ha, ?_⟩
  intro j hj c hc
  rw [List.getElem?_append_left hj] at hc
  exact hbefore c (List.mem_of_getElem? hc)

namespace Pattern

variable {p q : Pattern} {path : List ℕ} {i k : ℕ} {m n : WidthMismatch}

/-! ## Places -/

/-- The sub-pattern that a path of slot numbers leads to. -/
def partAt (p : Pattern) : List ℕ → Option Pattern
  | [] => some p
  | i :: path => p.slots[i]?.bind fun q => q.partAt path

/-- Where an operand stands: the path to its operation, and its number there. -/
structure Place where
  path : List ℕ
  operand : ℕ

/-- A node comes before its sub-patterns, and slots and operands come from left to
right. -/
def Place.Before (x y : Place) : Prop :=
  x.path < y.path ∨ x.path = y.path ∧ x.operand < y.operand

/-- A path leads through one of the slots first. -/
theorem partAt_cons :
    p.partAt (i :: path) = some q ↔
      ∃ r, p.slots[i]? = some r ∧ r.partAt path = some q := by
  simp [partAt, Option.bind_eq_some_iff]

/-- What is at the end of a path is a part. -/
theorem mem_parts_of_partAt (h : p.partAt path = some q) : q ∈ p.parts := by
  induction path generalizing p with
  | nil =>
      cases h
      exact mem_parts_self q
  | cons i path ih =>
      obtain ⟨r, hr, hq⟩ := partAt_cons.1 h
      exact mem_parts_trans
        (mem_parts_of_mem_slots (List.mem_of_getElem? hr)) (ih hq)

/-- Every sub-pattern is at the end of a path. -/
theorem mem_parts_iff : q ∈ p.parts ↔ ∃ path, p.partAt path = some q := by
  constructor
  · intro h
    induction p using layers with
    | var name =>
        obtain rfl := List.mem_singleton.1 h
        exact ⟨[], rfl⟩
    | node n ih =>
        rcases mem_parts_ofNode.1 h with rfl | ⟨c, hc, hq⟩
        · exact ⟨[], rfl⟩
        · obtain ⟨path, hpath⟩ := ih c hc hq
          obtain ⟨i, hi⟩ := List.getElem?_of_mem hc
          exact ⟨i :: path, partAt_cons.2 ⟨c, by rw [slots_ofNode, hi], hpath⟩⟩
  · rintro ⟨path, hpath⟩
    exact mem_parts_of_partAt hpath

/-- No place comes before itself, and of two different places one at most comes
before the other. -/
theorem Place.Before.not_before {x y : Place} (h : x.Before y) :
    x ≠ y ∧ ¬ y.Before x := by
  constructor
  · rintro rfl
    rcases h with h | ⟨-, h⟩
    · exact lt_irrefl _ h
    · exact lt_irrefl _ h
  · rintro (h' | ⟨heq', h'⟩) <;> rcases h with h | ⟨heq, h⟩
    · exact lt_asymm h h'
    · exact lt_irrefl _ (heq ▸ h')
    · exact lt_irrefl _ (heq' ▸ h)
    · exact lt_asymm h h'

/-! ## Mismatches -/

/-- The output width of an operation. -/
def outputWidth? : Pattern → Option Pattern
  | binary _ width .. => some width
  | _ => none

/-- Every operand that is an operation has its output width as declared width. -/
def WidthsAgree (p : Pattern) : Prop :=
  ∀ q ∈ p.parts, ∀ a ∈ q.operands, ∀ w ∈ a.2.outputWidth?, a.1 = w

/-- The operand at a place is an operation with another output width than is declared
for it. -/
structure MismatchAt (p : Pattern) (x : Place) (m : WidthMismatch) : Prop where
  parent : p.partAt x.path = some m.parent
  operand : m.parent.operands[x.operand]? = some (m.declared, m.child)
  actual : m.child.outputWidth? = some m.actual
  differ : m.declared ≠ m.actual

/-- The mismatch is at a place before all other places with a mismatch. -/
def FirstMismatch (p : Pattern) (m : WidthMismatch) : Prop :=
  ∃ x, p.MismatchAt x m ∧ ∀ y n, p.MismatchAt y n → y = x ∨ x.Before y

/-- There is one operand at a place, and what is wrong with it is determined. -/
theorem MismatchAt.unique {x : Place} (h : p.MismatchAt x m)
    (h' : p.MismatchAt x n) : m = n := by
  obtain ⟨parent, child, declared, actual⟩ := m
  obtain ⟨parent', child', declared', actual'⟩ := n
  obtain ⟨hparent, hoperand, hactual, -⟩ := h
  obtain ⟨hparent', hoperand', hactual', -⟩ := h'
  dsimp only at *
  obtain rfl := Option.some.inj (hparent.symm.trans hparent')
  obtain ⟨rfl, rfl⟩ := Prod.mk.inj (Option.some.inj (hoperand.symm.trans hoperand'))
  obtain rfl := Option.some.inj (hactual.symm.trans hactual')
  rfl

/-- So there is at most one first mismatch. -/
theorem FirstMismatch.unique (h : p.FirstMismatch m) (h' : p.FirstMismatch n) :
    m = n := by
  obtain ⟨x, hx, hfirst⟩ := h
  obtain ⟨y, hy, hfirst'⟩ := h'
  rcases hfirst y n hy with rfl | hxy
  · exact hx.unique hy
  · rcases hfirst' x m hx with rfl | hyx
    · exact hx.unique hy
    · exact absurd hyx hxy.not_before.2

/-- Widths agree if and only if there is no mismatch anywhere. -/
theorem widthsAgree_iff : p.WidthsAgree ↔ ∀ x m, ¬ p.MismatchAt x m := by
  constructor
  · intro h x m hm
    refine hm.differ
      (h _ (mem_parts_of_partAt hm.parent) _ (List.mem_of_getElem? hm.operand) _ ?_)
    exact hm.actual
  · intro h q hq a ha w hw
    obtain ⟨path, hpath⟩ := mem_parts_iff.1 hq
    obtain ⟨k, hk⟩ := List.getElem?_of_mem ha
    by_contra hne
    exact h ⟨path, k⟩ ⟨q, a.2, a.1, w⟩ ⟨hpath, hk, hw, hne⟩

/-- A mismatch below a node is one in a slot of it. -/
theorem mismatchAt_cons :
    p.MismatchAt ⟨i :: path, k⟩ m ↔
      ∃ q, p.slots[i]? = some q ∧ q.MismatchAt ⟨path, k⟩ m := by
  constructor
  · rintro ⟨hparent, hoperand, hactual, hdiffer⟩
    obtain ⟨q, hq, hparent⟩ := partAt_cons.1 hparent
    exact ⟨q, hq, hparent, hoperand, hactual, hdiffer⟩
  · rintro ⟨q, hq, hparent, hoperand, hactual, hdiffer⟩
    exact ⟨partAt_cons.2 ⟨q, hq, hparent⟩, hoperand, hactual, hdiffer⟩

/-! ## What the check finds -/

/-- A mismatch of an operand is found by its text. Texts that differ are of different
patterns, and in a legible pattern texts that are the same are of the same ones. -/
theorem operandMismatch?_eq_some {a : Pattern × Pattern} (h : p.Legible)
    (ha : a ∈ p.operands) : operandMismatch? p a.1 a.2 = some m ↔
      ∃ w, a.2.outputWidth? = some w ∧ a.1 ≠ w ∧ m = ⟨p, a.2, a.1, w⟩ := by
  obtain ⟨hdeclared, hchild⟩ := mem_parts_of_mem_operands ha
  obtain ⟨declared, child⟩ := a
  cases child with
  | var | literal | sign | symbol | derived => simp [operandMismatch?, outputWidth?]
  | binary op w wa sa a wb sb b =>
      have hw : w ∈ (binary op w wa sa a wb sb b).parts :=
        mem_parts_of_mem_slots (by simp [slots])
      by_cases heq : declared = w
      · simp [operandMismatch?, outputWidth?, sameText, heq]
      · have hdiffer : declared.sameText w = false := by
          rw [Bool.eq_false_iff]
          intro hsame
          exact heq (eq_of_sameText (h.part hdeclared)
            ((h.part hchild).part hw) hsame)
        simp [operandMismatch?, outputWidth?, hdiffer, heq, eq_comm]

/-- The mismatches of a node itself are those that the check finds in its
operands. -/
theorem mismatchAt_nil (h : p.Legible) : p.MismatchAt ⟨[], k⟩ m ↔
    ∃ a, p.operands[k]? = some a ∧ operandMismatch? p a.1 a.2 = some m := by
  constructor
  · rintro ⟨hparent, hoperand, hactual, hdiffer⟩
    obtain rfl := Option.some.inj hparent
    refine ⟨_, hoperand,
      (operandMismatch?_eq_some h (List.mem_of_getElem? hoperand)).2 ?_⟩
    exact ⟨_, hactual, hdiffer, rfl⟩
  · rintro ⟨a, ha, hm⟩
    obtain ⟨w, hw, hne, rfl⟩ :=
      (operandMismatch?_eq_some h (List.mem_of_getElem? ha)).1 hm
    exact ⟨rfl, ha, hw, hne⟩

theorem Legible.slot (h : p.Legible) (hq : p.slots[i]? = some q) : q.Legible :=
  h.part (mem_parts_of_mem_slots (List.mem_of_getElem? hq))

/-- If nothing is found, there is no mismatch. The induction is on the path, one slot
for each step of the search. -/
theorem not_mismatchAt (h : p.Legible) (hnone : p.widthMismatch? = none)
    (x : Place) : ¬ p.MismatchAt x m := by
  obtain ⟨path, k⟩ := x
  induction path generalizing p with
  | nil =>
      intro hm
      obtain ⟨a, ha, hm⟩ := (mismatchAt_nil h).1 hm
      rw [widthMismatch?_eq, ownMismatch?_eq, Option.or_eq_none_iff,
        List.findSome?_eq_none_iff] at hnone
      rw [hnone.1 a (List.mem_of_getElem? ha)] at hm
      cases hm
  | cons i path ih =>
      intro hm
      obtain ⟨q, hq, hm⟩ := mismatchAt_cons.1 hm
      rw [widthMismatch?_eq, Option.or_eq_none_iff,
        List.findSome?_eq_none_iff] at hnone
      exact ih (h.slot hq) (hnone.2 q (List.mem_of_getElem? hq)) hm

/-- What is found among the operands of a node is before all else. -/
theorem firstMismatch_of_own (h : p.Legible) (hown : p.ownMismatch? = some m) :
    p.FirstMismatch m := by
  rw [ownMismatch?_eq] at hown
  obtain ⟨k, a, ha, hm, hbefore⟩ := exists_getElem?_of_findSome? hown
  refine ⟨⟨[], k⟩, (mismatchAt_nil h).2 ⟨a, ha, hm⟩, ?_⟩
  rintro ⟨path, j⟩ n hn
  cases path with
  | nil =>
      obtain ⟨c, hc, hn⟩ := (mismatchAt_nil h).1 hn
      -- operands are searched from left to right
      rcases lt_trichotomy j k with hlt | rfl | hgt
      · rw [hbefore j hlt c hc] at hn
        cases hn
      · exact Or.inl rfl
      · exact Or.inr (Or.inr ⟨rfl, hgt⟩)
  | cons i path => exact Or.inr (Or.inl (List.nil_lt_cons i path))

/-- What is found is before all else. The check looks at the node first, whose
operands come before those in its slots, and then into the slots from left to
right. -/
theorem firstMismatch_of_widthMismatch? (h : p.Legible)
    (hsome : p.widthMismatch? = some m) : p.FirstMismatch m := by
  induction p using layers generalizing m with
  | var name => cases hsome
  | node layer ih =>
      rw [widthMismatch?_eq, Option.or_eq_some_iff] at hsome
      rcases hsome with hown | ⟨hown, hslots⟩
      · exact firstMismatch_of_own h hown
      · obtain ⟨i, q, hq, hm, hbefore⟩ := exists_getElem?_of_findSome? hslots
        have hmem : q ∈ layer.children := by
          rw [← slots_ofNode]
          exact List.mem_of_getElem? hq
        obtain ⟨x, hx, hfirst⟩ := ih q hmem (h.slot hq) hm
        refine ⟨⟨i :: x.path, x.operand⟩, mismatchAt_cons.2 ⟨q, hq, hx⟩, ?_⟩
        rintro ⟨path, k⟩ n hn
        cases path with
        | nil =>
            obtain ⟨a, ha, hn⟩ := (mismatchAt_nil h).1 hn
            rw [ownMismatch?_eq, List.findSome?_eq_none_iff] at hown
            rw [hown a (List.mem_of_getElem? ha)] at hn
            cases hn
        | cons j path =>
            obtain ⟨r, hr, hn⟩ := mismatchAt_cons.1 hn
            -- in earlier slots nothing was found, and later ones come after
            rcases lt_trichotomy j i with hlt | rfl | hgt
            · exact absurd hn (not_mismatchAt (h.slot hr) (hbefore j hlt r hr) _)
            · obtain rfl := Option.some.inj (hq.symm.trans hr)
              rcases hfirst _ n hn with rfl | hlt | ⟨heq, hlt⟩
              · exact Or.inl rfl
              · exact Or.inr (Or.inl (List.cons_lt_cons_iff.2 (Or.inr ⟨rfl, hlt⟩)))
              · exact Or.inr (Or.inr ⟨congrArg (j :: ·) heq, hlt⟩)
            · exact Or.inr (Or.inl (List.cons_lt_cons_iff.2 (Or.inl hgt)))

/-- The check fails with the mismatch that is found. -/
theorem checkWidths_eq_error :
    p.checkWidths = .error m ↔ p.widthMismatch? = some m := by
  unfold checkWidths
  cases p.widthMismatch? with
  | none => exact iff_of_false (by rintro ⟨⟩) (by rintro ⟨⟩)
  | some n =>
      constructor
      · rintro ⟨⟩
        rfl
      · rintro ⟨⟩
        rfl

/-- The check of a legible pattern passes if and only if its widths agree. -/
theorem Legible.checkWidths_ok_iff (h : p.Legible) :
    p.checkWidths = .ok () ↔ p.WidthsAgree := by
  rw [checkWidths_eq_ok, widthsAgree_iff]
  constructor
  · intro hnone x m
    exact not_mismatchAt h hnone x
  · intro hagree
    rw [Option.eq_none_iff_forall_ne_some]
    intro m hm
    obtain ⟨x, hx, -⟩ := firstMismatch_of_widthMismatch? h hm
    exact hagree x m hx

/-- If it fails, then with the first mismatch, and with no other. -/
theorem Legible.checkWidths_error_iff (h : p.Legible) :
    p.checkWidths = .error m ↔ p.FirstMismatch m := by
  rw [checkWidths_eq_error]
  constructor
  · exact firstMismatch_of_widthMismatch? h
  · intro hm
    cases hfound : p.widthMismatch? with
    | none =>
        obtain ⟨x, hx, -⟩ := hm
        exact absurd hx (not_mismatchAt h hfound x)
    | some n => rw [hm.unique (firstMismatch_of_widthMismatch? h hfound)]

end Pattern

/-! ## Rules -/

/-- Texts make a rule if they are read, both sides pass the check, and the left side
binds all variables. -/
theorem Rule.exists_ofTexts_iff {name lhs rhs : String}
    {condition : Option Condition} :
    (∃ r, Rule.ofTexts name lhs rhs condition = .ok r) ↔
      ∃ l r, Pattern.parse lhs = .ok l ∧ Pattern.parse rhs = .ok r ∧
        l.checkWidths = .ok () ∧
        r.checkWidths = .ok () ∧ (∀ v ∈ r.vars, v ∈ l.vars) ∧
        ∀ v ∈ Condition.varsOf condition, v ∈ l.vars := by
  constructor
  · rintro ⟨r, hr⟩
    obtain ⟨hl, hrhs, rfl⟩ := Rule.ofTexts_inv hr
    exact ⟨r.lhs, r.rhs, hl, hrhs, Pattern.checkWidths_eq_ok.2 r.lhs_consistent,
      Pattern.checkWidths_eq_ok.2 r.rhs_consistent, r.rhs_bound, r.condition_bound⟩
  · rintro ⟨l, r, hl, hr, hlwidths, hrwidths, hvars, hcondition⟩
    have hrule := Rule.ofTexts_eq
      ⟨name, l, r, condition, Pattern.checkWidths_eq_ok.1 hlwidths,
        Pattern.checkWidths_eq_ok.1 hrwidths, hvars, hcondition⟩ hl hr
    exact ⟨_, hrule⟩

/-- A pattern that was read and has finite literals passes the check exactly if every
operand that is an operation has its output width as declared width, and otherwise
the check fails with the first mismatch. Texts make a rule exactly if both are read
and pass the check, and all variables are bound. -/
theorem Pattern.checkWidths_first :
    (∀ text p, Pattern.parse text = .ok p → p.FiniteLiterals →
      (p.checkWidths = .ok () ↔ p.WidthsAgree) ∧ ∀ m, p.checkWidths = .error m ↔
        p.FirstMismatch m) ∧
    ∀ name lhs rhs condition, (∃ r, Rule.ofTexts name lhs rhs condition = .ok r) ↔
      ∃ l r, Pattern.parse lhs = .ok l ∧ Pattern.parse rhs = .ok r ∧
        l.checkWidths = .ok () ∧
        r.checkWidths = .ok () ∧ (∀ v ∈ r.vars, v ∈ l.vars) ∧
        ∀ v ∈ Condition.varsOf condition, v ∈ l.vars := by
  constructor
  · intro text p hp hfinite
    have hlegible := legible_of_parse hp hfinite
    refine ⟨hlegible.checkWidths_ok_iff, ?_⟩
    intro m
    exact hlegible.checkWidths_error_iff
  · intro name lhs rhs condition
    exact Rule.exists_ofTexts_iff

/-- Of two mismatches, the one in the second operand of the first slot is found. -/
theorem Pattern.checkWidths_first_slot : ∃ p m,
    Pattern.parse "(max+1 (+ 9 8 sign A 7 sign (* 6 5 sign B 4 sign C)) (- 3 2 sign (+ 1 1 sign A 1 sign B) 1 sign C))"
      = .ok p ∧
    p.FiniteLiterals ∧ p.checkWidths = .error m ∧ m.declared = .literal 7 ∧
    m.actual = .literal 6 ∧ p.FirstMismatch m ∧ ¬ p.WidthsAgree := by
  have hrun : (Pattern.parse "(max+1 (+ 9 8 sign A 7 sign (* 6 5 sign B 4 sign C)) (- 3 2 sign (+ 1 1 sign A 1 sign B) 1 sign C))"
      ).toOption.map (fun p => (decide p.FiniteLiterals,
        p.widthMismatch?.map fun m => (m.declared, m.actual))) =
      some (true, some (.literal 7, .literal 6)) := by
    decide +kernel
  obtain ⟨p, hp, hrun⟩ := Option.map_eq_some_iff.1 hrun
  obtain ⟨hfinite, hfound⟩ := Prod.mk.inj hrun
  obtain ⟨m, hm, hwidths⟩ := Option.map_eq_some_iff.1 hfound
  obtain ⟨hdeclared, hactual⟩ := Prod.mk.inj hwidths
  have hparse := toOption_inv hp
  have herror := Pattern.checkWidths_eq_error.2 hm
  obtain ⟨hok, hfirst⟩ :=
    Pattern.checkWidths_first.1 _ p hparse (of_decide_eq_true hfinite)
  refine ⟨p, m, hparse, of_decide_eq_true hfinite, herror, hdeclared, hactual,
    (hfirst m).1 herror, ?_⟩
  rw [← hok, herror]
  rintro ⟨⟩

end Datapath
