import Datapath.Proofs.Decimals
import Datapath.Proofs.Reading

/-!
# Datapath.Proofs.Writing

Patterns that are written alike.

The text of a pattern that was read determines it, if its literals are finite
(`eq_of_sameText`): atoms are words, so it can be seen where each ends, and the text
of an atom that is not a literal is the word that was read. An infinite literal is
excluded because it is written like the symbol of that name.
-/

namespace Datapath

/-- Neither NaN nor infinite. -/
def Binary64.IsFinite (v : Binary64) : Prop := ∃ s u h, v = finite s u h

instance : DecidablePred Binary64.IsFinite
  | .finite s u h => .isTrue ⟨s, u, h, rfl⟩
  | .infinity _ | .nan => .isFalse (by rintro ⟨_, _, _, h⟩; cases h)

/-! ## Where words end -/

/-- The text goes on with a blank or a closing parenthesis, or ends. -/
def Stops (rest : List Char) : Prop := ∀ c ∈ rest.head?, c = ' ' ∨ c = ')'

theorem stops_nil : Stops [] := by simp [Stops]

theorem stops_cons {c : Char} {rest : List Char} (h : c = ' ' ∨ c = ')') :
    Stops (c :: rest) := by
  simpa [Stops] using h

/-- A text without blanks and closing parentheses is told apart from what follows. -/
theorem append_inj_of_stops {w w' rest rest' : List Char}
    (hw : ∀ c ∈ w, c ≠ ' ' ∧ c ≠ ')') (hw' : ∀ c ∈ w', c ≠ ' ' ∧ c ≠ ')')
    (hr : Stops rest) (hr' : Stops rest') (h : w ++ rest = w' ++ rest') :
    w = w' ∧ rest = rest' := by
  have hword {v : List Char} (hv : ∀ c ∈ v, c ≠ ' ' ∧ c ≠ ')') :
      ∀ c ∈ v, (c ≠ ' ' && c ≠ ')') = true :=
    fun c hc => by simpa using hv c hc
  have hstop {r : List Char} (hs : Stops r) :
      ∀ c ∈ r.head?, (c ≠ ' ' && c ≠ ')') = false := fun c hc => by
    rcases hs c hc with rfl | rfl <;> rfl
  exact append_inj_of_stop (hword hw) (hword hw') (hstop hr) (hstop hr') h

/-- A word contains neither of them. -/
theorem IsWord.no_stop {w : List Char} (h : IsWord w) :
    ∀ c ∈ w, c ≠ ' ' ∧ c ≠ ')' := by
  intro c hc
  obtain ⟨hblank, -, hr⟩ := h.2 c hc
  refine ⟨?_, hr⟩
  rintro rfl
  exact absurd hblank (by decide)

theorem Head.symbol_no_stop (head : Head) :
    ∀ c ∈ head.symbol.toList, c ≠ ' ' ∧ c ≠ ')' := by
  rcases head with (_ | _) | (_ | _ | _ | _ | _ | _) <;>
    simp [Head.symbol, WidthFn.symbol, Operator.symbol]

theorem Head.symbol_inj {head head' : Head}
    (h : head.symbol.toList = head'.symbol.toList) : head = head' := by
  have hsymbol := String.toList_inj.1 h
  rcases head with (_ | _) | (_ | _ | _ | _ | _ | _) <;>
    rcases head' with (_ | _) | (_ | _ | _ | _ | _ | _) <;>
      first | rfl | exact absurd hsymbol (by decide)

namespace Pattern

variable {p q : Pattern} {rest rest' : List Char}

/-! ## Compounds -/

theorem mem_parts_of_mem_slots (h : q ∈ p.slots) : q ∈ p.parts := by
  cases p using layers with
  | var name => exact absurd h List.not_mem_nil
  | node n _ =>
      rw [slots_ofNode] at h
      exact mem_parts_child h

/-- The text of the slots of a compound, each after a blank. -/
def slotsOnto (ps : List Pattern) (rest : List Char) : List Char :=
  ps.foldr (fun q text => ' ' :: q.renderOnto text) rest

/-- A compound is written as its head and its slots in parentheses. -/
theorem exists_head (h : p.slots ≠ []) :
    ∃ head : Head, head.build? p.slots = some p ∧
    ∀ rest, p.renderOnto rest =
      '(' :: (head.symbol.toList ++ slotsOnto p.slots (')' :: rest)) := by
  cases p with
  | var | literal | sign | symbol => exact absurd rfl h
  | derived fn l r =>
      exact ⟨.width fn, rfl,
        fun rest => by simp [renderOnto, slots, slotsOnto, Head.symbol]⟩
  | binary op w wa sa a wb sb b =>
      exact ⟨.arith op, rfl,
        fun rest => by simp [renderOnto, slots, slotsOnto, Head.symbol]⟩

theorem stops_slotsOnto (ps : List Pattern) (rest : List Char) :
    Stops (slotsOnto ps (')' :: rest)) := by
  cases ps with
  | nil => exact stops_cons (Or.inr rfl)
  | cons q ps => exact stops_cons (Or.inl rfl)

/-- Slots that are written alike are equal if each of the first can be told from all
patterns. -/
theorem slotsOnto_inj {ok : Pattern → Prop} {ps qs : List Pattern}
    (hinj : ∀ p ∈ ps, ∀ q, ok q → ∀ r r', Stops r → Stops r' →
      p.renderOnto r = q.renderOnto r' → p = q ∧ r = r') (hqs : ∀ q ∈ qs, ok q)
    (h : slotsOnto ps (')' :: rest) = slotsOnto qs (')' :: rest')) :
    ps = qs ∧ rest = rest' := by
  induction ps generalizing qs with
  | nil =>
      cases qs with
      | nil => exact ⟨rfl, List.tail_eq_of_cons_eq h⟩
      | cons q qs => exact absurd (List.head_eq_of_cons_eq h) (by decide)
  | cons p ps ih =>
      cases qs with
      | nil => exact absurd (List.head_eq_of_cons_eq h) (by decide)
      | cons q qs =>
          -- the first slots are equal, and what follows them is written alike
          obtain ⟨rfl, hrest⟩ :=
            hinj p List.mem_cons_self q (hqs q List.mem_cons_self) _ _
              (stops_slotsOnto ps rest) (stops_slotsOnto qs rest')
              (List.tail_eq_of_cons_eq h)
          obtain ⟨rfl, hend⟩ := ih (fun p hp => hinj p (List.mem_cons_of_mem _ hp))
            (fun q hq => hqs q (List.mem_cons_of_mem _ hq)) hrest
          exact ⟨rfl, hend⟩

/-! ## Atoms -/

/-- The number that a literal is. -/
def literal? : Pattern → Option Binary64
  | literal value => some value
  | _ => none

/-- The literals of a pattern are finite. -/
def FiniteLiterals (p : Pattern) : Prop := ∀ v, .literal v ∈ p.parts → v.IsFinite

instance : DecidablePred FiniteLiterals := fun p =>
  decidable_of_iff (∀ q ∈ p.parts, ∀ v ∈ q.literal?, v.IsFinite) <| by
    constructor
    · exact fun h v hv => h _ hv v rfl
    · intro h q hq v hv
      cases q <;> cases hv
      exact h v hq

/-- The pattern can be told from its text: its leaves are atoms and its literals
finite. -/
structure Legible (p : Pattern) : Prop where
  atomic : p.Atomic
  finite : p.FiniteLiterals

theorem Legible.part (h : p.Legible) (hq : q ∈ p.parts) : q.Legible where
  atomic r hr := h.atomic r (mem_parts_trans hq hr)
  finite v hv := h.finite v (mem_parts_trans hq hv)

/-- A literal that can be told from its text has no sign. -/
theorem Legible.literal {v : Binary64} (h : (literal v).Legible) :
    ∃ u hu, v = .finite false u hu := by
  obtain ⟨n, hn⟩ := h.atomic.literal (mem_parts_self _)
  obtain ⟨s, u, hu, hv⟩ := h.finite v (mem_parts_self _)
  refine ⟨u, hu, ?_⟩
  rw [hv, Binary64.ofNat, Binary64.round] at hn
  split at hn
  · injection hn with hs
    rw [hv, hs]
  · cases hn

theorem isDigit_of_isSymbolStart {c : Char} (h : isSymbolStart c = true) :
    c.isDigit = false := by
  by_cases hc : c = '_'
  · rw [hc]
    rfl
  · grind [isSymbolStart, Char.isAlpha, Char.isUpper, Char.isLower, Char.isDigit]

/-- An atom other than a literal is written as the word that it was read from, which
does not start with a digit. -/
theorem atom_cases {w : String} (h : atom w = .ok p) : (∃ v, p = literal v) ∨
    p.render = w.toList ∧ ∀ c ∈ w.toList.head?, c.isDigit = false := by
  unfold atom at h
  split at h
  · cases h
  · next name hname =>
    cases h
    refine Or.inr ⟨?_, ?_⟩
    · rw [hname]
      simp [render, renderOnto]
    · rw [hname]
      simp
  · split at h
    · cases h
      exact Or.inl ⟨_, rfl⟩
    · split at h
      · next s hs =>
        cases h
        have hfound : [Sign.signed, .unsigned].find? (·.keyword = w) = some s := hs
        have hkeyword : s.keyword = w := by simpa using List.find?_some hfound
        refine Or.inr ⟨?_, ?_⟩
        · rw [← hkeyword]
          simp [render, renderOnto]
        · rw [← hkeyword]
          cases s <;> simp [Sign.keyword]
      · split at h
        · next hsymbol =>
          cases h
          refine Or.inr ⟨by simp [render, renderOnto], ?_⟩
          cases hw : w.toList with
          | nil => simp
          | cons c cs =>
              rw [hw, isSymbolName, Bool.and_eq_true] at hsymbol
              simpa using isDigit_of_isSymbolStart hsymbol.1
        · cases h

theorem isWordChar_of_isDigit {c : Char} (h : c.isDigit = true) :
    isBlank c = false ∧ c ≠ '(' ∧ c ≠ ')' := by
  have hrange : 48 ≤ c.toNat ∧ c.toNat ≤ 57 := by
    simpa [Char.isDigit, UInt32.le_iff_toNat_le] using h
  refine ⟨?_, ?_, ?_⟩
  · simp only [isBlank, blankRanges, List.any_cons, List.any_nil, Bool.or_false,
      Bool.or_eq_false_iff, Bool.and_eq_false_iff, decide_eq_false_iff_not]
    omega
  · rintro rfl
    cases h
  · rintro rfl
    cases h

/-- A number is a word that starts with a digit. -/
theorem render_literal {u : ℕ} (hu : Binary64.Fits u) :
    IsWord (literal (.finite false u hu)).render ∧
      ∃ c ∈ (literal (.finite false u hu)).render.head?, c.isDigit = true := by
  obtain ⟨c, cs, hrender, hdigit, hchars⟩ := Binary64.render_chars u hu
  have htext : (literal (.finite false u hu)).render = c :: cs := by
    rw [render, renderOnto, List.append_nil, hrender]
  rw [htext]
  refine ⟨⟨List.cons_ne_nil _ _, fun x hx => ?_⟩, c, rfl, hdigit⟩
  rcases hchars x hx with hx | hx
  · exact isWordChar_of_isDigit hx
  · simp only [List.mem_cons, List.not_mem_nil, or_false] at hx
    rcases hx with rfl | rfl | rfl | rfl <;> decide

/-- Atoms are written as words. -/
theorem Legible.isWord (h : p.Legible) (hp : p.slots = []) : IsWord p.render := by
  obtain ⟨w, hw, hatom⟩ := h.atomic p (mem_parts_self p) hp
  rcases atom_cases hatom with ⟨v, rfl⟩ | ⟨hrender, -⟩
  · obtain ⟨u, hu, rfl⟩ := h.literal
    exact (render_literal hu).1
  · rw [hrender]
    exact hw

/-- Atoms that are written alike are equal. -/
theorem atom_inj (hp : p.Legible) (hq : q.Legible) (hps : p.slots = [])
    (hqs : q.slots = []) (h : p.render = q.render) : p = q := by
  obtain ⟨w, -, hw⟩ := hp.atomic p (mem_parts_self p) hps
  obtain ⟨w', -, hw'⟩ := hq.atomic q (mem_parts_self q) hqs
  rcases atom_cases hw with ⟨v, rfl⟩ | ⟨hrender, hstart⟩ <;>
    rcases atom_cases hw' with ⟨v', rfl⟩ | ⟨hrender', hstart'⟩
  · obtain ⟨u, hu, rfl⟩ := hp.literal
    obtain ⟨u', hu', rfl⟩ := hq.literal
    rw [render, render, renderOnto, renderOnto, List.append_nil,
      List.append_nil] at h
    rw [Binary64.render_inj h]
  · obtain ⟨u, hu, rfl⟩ := hp.literal
    obtain ⟨c, hc, hdigit⟩ := (render_literal hu).2
    rw [h, hrender'] at hc
    rw [hstart' c hc] at hdigit
    cases hdigit
  · obtain ⟨u, hu, rfl⟩ := hq.literal
    obtain ⟨c, hc, hdigit⟩ := (render_literal hu).2
    rw [← h, hrender] at hc
    rw [hstart c hc] at hdigit
    cases hdigit
  · -- neither is a literal, so both were read from one word
    rw [hrender, hrender'] at h
    rw [String.toList_inj.1 h, hw'] at hw
    exact (Except.ok.inj hw).symm

/-! ## Patterns -/

/-- An atom is never written like a compound. -/
theorem renderOnto_ne (hp : p.Legible) (hps : p.slots = []) (hqs : q.slots ≠ []) :
    p.renderOnto rest ≠ q.renderOnto rest' := by
  intro h
  obtain ⟨head, -, hhead⟩ := exists_head hqs
  obtain ⟨hne, hword⟩ := hp.isWord hps
  obtain ⟨c, cs, hcs⟩ := List.exists_cons_of_ne_nil hne
  rw [renderOnto_eq, hcs, hhead] at h
  rw [hcs] at hword
  exact (hword c List.mem_cons_self).2.1 (List.head_eq_of_cons_eq h)

/-- Patterns that can be told from their texts are equal if they are written alike,
whatever follows. -/
theorem renderOnto_inj (hp : p.Legible) (hq : q.Legible) (hr : Stops rest)
    (hr' : Stops rest') (h : p.renderOnto rest = q.renderOnto rest') :
    p = q ∧ rest = rest' := by
  have hatoms {p q : Pattern} {r r' : List Char} (hp : p.Legible) (hq : q.Legible)
      (hr : Stops r) (hr' : Stops r') (hps : p.slots = [])
      (h : p.renderOnto r = q.renderOnto r') : p = q ∧ r = r' := by
    by_cases hqs : q.slots = []
    · rw [renderOnto_eq, renderOnto_eq] at h
      obtain ⟨htext, hrest⟩ := append_inj_of_stops (hp.isWord hps).no_stop
        (hq.isWord hqs).no_stop hr hr' h
      exact ⟨atom_inj hp hq hps hqs htext, hrest⟩
    · exact absurd h (renderOnto_ne hp hps hqs)
  induction p using layers generalizing q rest rest' with
  | var name => exact hatoms hp hq hr hr' rfl h
  | node n ih =>
      by_cases hps : (ofNode n).slots = []
      · exact hatoms hp hq hr hr' hps h
      by_cases hqs : q.slots = []
      · exact absurd h.symm (renderOnto_ne hq hqs hps)
      obtain ⟨head, hbuild, htext⟩ := exists_head hps
      obtain ⟨head', hbuild', htext'⟩ := exists_head hqs
      rw [htext, htext'] at h
      -- the heads end at the blank before the first slot
      obtain ⟨hsymbol, hslots⟩ :=
        append_inj_of_stops head.symbol_no_stop head'.symbol_no_stop
          (stops_slotsOnto _ _) (stops_slotsOnto _ _) (List.tail_eq_of_cons_eq h)
      rw [slots_ofNode] at hslots hbuild
      obtain ⟨hchildren, hrest⟩ := slotsOnto_inj
        (fun c hc c' (hc' : Legible c') r r' hr hr' h =>
          ih c hc (hp.part (mem_parts_child hc)) hc' hr hr' h)
        (fun c hc => hq.part (mem_parts_of_mem_slots hc)) hslots
      rw [hchildren, Head.symbol_inj hsymbol, hbuild'] at hbuild
      exact ⟨(Option.some.inj hbuild).symm, hrest⟩

/-- Patterns that can be told from their texts are equal if they are written
alike. -/
theorem eq_of_sameText (hp : p.Legible) (hq : q.Legible) (h : p.sameText q = true) :
    p = q := by
  have htext : p.toText = q.toText := of_decide_eq_true h
  exact (renderOnto_inj hp hq stops_nil stops_nil (String.ofList_inj.1 htext)).1

theorem legible_of_parse {text : String} (h : parse text = .ok p)
    (hfinite : p.FiniteLiterals) : p.Legible :=
  ⟨atomic_of_parse h, hfinite⟩

end Pattern

end Datapath
