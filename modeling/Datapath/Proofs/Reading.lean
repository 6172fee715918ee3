import Datapath.Proofs.Calls
import Datapath.Proofs.Layers

/-!
# Datapath.Proofs.Reading

What patterns that were read from text are made of.

The leaves of such a pattern are atoms of words (`atom_of_parse`), so a literal is
the value of a numeral, and a symbol is a name that is neither a numeral nor a
keyword. The reader works on a stack, and what holds of the patterns on it holds of
the result (`run_forall`).
-/

namespace Datapath

/-! ## Words -/

/-- A word is not empty and has neither blanks nor parentheses. -/
def IsWord (cs : List Char) : Prop :=
  cs ≠ [] ∧ ∀ c ∈ cs, isBlank c = false ∧ c ≠ '(' ∧ c ≠ ')'

namespace Token

/-- What is flushed is the open word, if it is not empty. -/
theorem word_mem_flush {cs : List Char} {rest : List Token} {w : String}
    (h : word w ∈ flush cs rest) :
    (cs ≠ [] ∧ w = String.ofList cs) ∨ word w ∈ rest := by
  unfold flush at h
  split at h
  · exact Or.inr h
  · next hne =>
    rcases List.mem_cons.1 h with heq | h
    · exact Or.inl ⟨fun hnil => hne (by rw [hnil]; rfl), by injection heq⟩
    · exact Or.inr h

/-- The words of the tokens so far are words, and the one that is still open has no
separator. -/
theorem isWord_of_mem_ofChars {cs : List Char} {w : String}
    (h : word w ∈ ofChars cs) : IsWord w.toList := by
  have hinv :
      (∀ c ∈ (cs.foldr consChar ([], [])).1, isBlank c = false ∧ c ≠ '(' ∧ c ≠ ')') ∧
      ∀ w, word w ∈ (cs.foldr consChar ([], [])).2 → IsWord w.toList := by
    clear h
    induction cs with
    | nil => exact ⟨by simp, by simp⟩
    | cons c rest ih =>
        obtain ⟨hopen, hdone⟩ := ih
        have hflush : ∀ w, word w ∈ flush (rest.foldr consChar ([], [])).1
            (rest.foldr consChar ([], [])).2 → IsWord w.toList := by
          intro w hw
          rcases word_mem_flush hw with ⟨hne, rfl⟩ | hw
          · rw [String.toList_ofList]
            exact ⟨hne, hopen⟩
          · exact hdone w hw
        rw [List.foldr_cons, consChar]
        split
        · exact ⟨by simp, hflush⟩
        · next hblank =>
          split
          · exact ⟨by simp, fun w hw => hflush w (by simpa using hw)⟩
          · next hl =>
            split
            · exact ⟨by simp, fun w hw => hflush w (by simpa using hw)⟩
            · next hr =>
              refine ⟨fun d hd => ?_, hdone⟩
              rcases List.mem_cons.1 hd with rfl | hd
              · exact ⟨by simpa using hblank, hl, hr⟩
              · exact hopen d hd
  obtain ⟨hopen, hdone⟩ := hinv
  rcases word_mem_flush h with ⟨hne, rfl⟩ | h
  · rw [String.toList_ofList]
    exact ⟨hne, hopen⟩
  · exact hdone w h

end Token

/-! ## The reader -/

namespace Reader

variable {P : Pattern → Prop} {s t : State}

/-- All patterns on the stack and in the result have a property. -/
def State.Forall (P : Pattern → Prop) (s : State) : Prop :=
  (∀ f ∈ s.frames, ∀ p ∈ f.args, P p) ∧ ∀ p ∈ s.done, P p

/-- A pattern with the property can be put on the stack. -/
theorem State.Forall.push {p : Pattern} (h : s.Forall P) (hp : P p) :
    (s.push p).Forall P := by
  obtain ⟨frames, done⟩ := s
  obtain ⟨hframes, hdone⟩ := h
  cases frames with
  | nil => exact ⟨hframes, List.forall_mem_cons.2 ⟨hp, hdone⟩⟩
  | cons f rest =>
      obtain ⟨hf, hrest⟩ := List.forall_mem_cons.1 hframes
      exact ⟨List.forall_mem_cons.2 ⟨List.forall_mem_cons.2 ⟨hp, hf⟩, hrest⟩, hdone⟩

theorem State.Forall.enter {symbol : String} (h : s.Forall P)
    (hs : s.enter symbol = .ok t) : t.Forall P := by
  unfold State.enter at hs
  split at hs
  · cases hs
    exact ⟨List.forall_mem_cons.2 ⟨by simp, h.1⟩, h.2⟩
  · cases hs

/-- The compound that a closing parenthesis makes of the arguments on the stack has
the property if it is inherited from them. -/
theorem State.Forall.leave
    (hbuild : ∀ head args p, (∀ q ∈ args, P q) →
      Head.build? head args = some p → P p)
    (h : s.Forall P) (hs : s.leave = .ok t) : t.Forall P := by
  obtain ⟨frames, done⟩ := s
  cases frames with
  | nil => cases hs
  | cons f rest =>
      obtain ⟨hf, hrest⟩ := List.forall_mem_cons.1 h.1
      simp only [State.leave] at hs
      split at hs
      · next p hp =>
        cases hs
        exact State.Forall.push ⟨hrest, h.2⟩
          (hbuild _ _ p (fun q hq => hf q (List.mem_reverse.1 hq)) hp)
      · cases hs

/-- A property of atoms that compounds inherit from their arguments holds of
everything read. -/
theorem run_forall
    (hbuild : ∀ head args p, (∀ q ∈ args, P q) →
      Head.build? head args = some p → P p)
    {tokens : List Token} (hatom : ∀ w p, .word w ∈ tokens → atom w = .ok p → P p)
    (h : s.Forall P) {ps : List Pattern} (hrun : run tokens s = .ok ps) :
    ∀ p ∈ ps, P p := by
  -- by induction on the tokens, as the reader goes through them
  induction tokens, s using run.induct with
  | case1 s =>
      obtain ⟨frames, done⟩ := s
      cases frames with
      | nil =>
          cases hrun
          exact fun p hp => h.2 p (List.mem_reverse.1 hp)
      | cons => cases hrun
  | case2 => cases hrun
  | case3 head rest s ih =>
      obtain ⟨t, ht, hrun⟩ := except_bind_inv hrun
      exact ih t (fun w p hw =>
        hatom w p (List.mem_cons_of_mem _ (List.mem_cons_of_mem _ hw)))
        (h.enter ht) hrun
  | case4 rest s ih =>
      obtain ⟨t, ht, hrun⟩ := except_bind_inv hrun
      exact ih t (fun w p hw => hatom w p (List.mem_cons_of_mem _ hw))
        (h.leave hbuild ht) hrun
  | case5 w rest s ih =>
      obtain ⟨p, hp, hrun⟩ := except_bind_inv hrun
      exact ih p (fun w p hw => hatom w p (List.mem_cons_of_mem _ hw))
        (h.push (hatom w p List.mem_cons_self hp)) hrun

end Reader

/-! ## Leaves -/

/-- A compound is a layer over its arguments. -/
theorem Head.build?_inv {head : Head} {args : List Pattern} {p : Pattern}
    (h : head.build? args = some p) :
    ∃ n : Node Pattern, p = Pattern.ofNode n ∧ n.children = args ∧ args ≠ [] := by
  unfold Head.build? at h
  split at h
  · cases h
    exact ⟨.derived _ _ _, rfl, rfl, by simp⟩
  · cases h
    exact ⟨.binary _ _ _ _ _ _ _ _, rfl, rfl, by simp⟩
  · cases h

namespace Pattern

variable {text : String} {p q : Pattern} {v : Binary64} {name : String}
  {n : Node Pattern}

theorem parseAll_of_parse (h : parse text = .ok p) : parseAll text = .ok [p] := by
  obtain ⟨ps, hps, h⟩ := except_bind_inv h
  match ps with
  | [] => cases h
  | [q] => cases h; exact hps
  | _ :: _ :: _ => cases h

/-- A list that was read is what the reader returns for the tokens of the text. -/
theorem parseAll_inv {ps : List Pattern} (h : parseAll text = .ok ps) :
    Reader.run (tokenize text) .start = .ok ps := by
  unfold parseAll at h
  cases hr : Reader.run (tokenize text) .start with
  | ok qs => rw [hr] at h; cases h; rfl
  | error e => rw [hr] at h; cases h

/-- A part without slots of its own is an atom. -/
def Atomic (p : Pattern) : Prop :=
  ∀ q ∈ p.parts, q.slots = [] → ∃ w : String, IsWord w.toList ∧ atom w = .ok q

theorem slots_ofNode (n : Node Pattern) : (ofNode n).slots = n.children := by
  cases n <;> rfl

/-- An atom is a leaf. -/
theorem atom_slots {w : String} (h : atom w = .ok p) :
    p.slots = [] ∧ p.parts = [p] := by
  unfold atom at h
  split at h
  · cases h
  · cases h
    exact ⟨rfl, rfl⟩
  · split at h
    · cases h
      exact ⟨rfl, rfl⟩
    · split at h
      · cases h
        exact ⟨rfl, rfl⟩
      · split at h
        · cases h
          exact ⟨rfl, rfl⟩
        · cases h

/-- The leaves of patterns that were read are atoms of words. -/
theorem atomic_of_parseAll {ps : List Pattern} (h : parseAll text = .ok ps) :
    ∀ p ∈ ps, p.Atomic := by
  refine Reader.run_forall (P := Atomic) ?_ ?_ ⟨by simp [Reader.State.start], by
    simp [Reader.State.start]⟩ (parseAll_inv h)
  · intro head args p hargs hbuild q hq hslots
    -- a compound has slots, so its leaves are those of its arguments
    obtain ⟨n, rfl, rfl, hne⟩ := Head.build?_inv hbuild
    rcases mem_parts_ofNode.1 hq with rfl | ⟨c, hc, hq⟩
    · rw [slots_ofNode] at hslots
      exact absurd hslots hne
    · exact hargs c hc q hq hslots
  · intro w p hw hp q hq _
    rw [(atom_slots hp).2] at hq
    obtain rfl := List.mem_singleton.1 hq
    exact ⟨w, Token.isWord_of_mem_ofChars hw, hp⟩

theorem atomic_of_parse (h : parse text = .ok p) : p.Atomic :=
  atomic_of_parseAll (parseAll_of_parse h) p List.mem_cons_self

/-- A literal that was read is the value of a numeral. -/
theorem Atomic.literal (h : p.Atomic) (hv : .literal v ∈ p.parts) :
    ∃ n, v = .ofNat n := by
  obtain ⟨w, -, hw⟩ := h _ hv rfl
  unfold atom at hw
  split at hw
  · cases hw
  · cases hw
  · split at hw
    · exact ⟨_, (Pattern.literal.inj (Except.ok.inj hw)).symm⟩
    · split at hw
      · cases hw
      · split at hw <;> cases hw

end Pattern

end Datapath
