import Mathlib.Data.Nat.Digits.Defs
import Datapath.Proofs.Writing

/-!
# Datapath.Proofs.Grammar

The reader accepts exactly its grammar.

Three relations say what is to be read without mentioning how: `Token.Spells` relates
characters to tokens, `IsAtom` a word to the atom it is, and `Derives` tokens to the
syntax tree of one expression. The tokenizer and the reader decide them
(`Token.spells_iff`, `Reader.run_iff`).

The reader keeps a stack of the compounds that are still open, where the grammar
nests expressions. `Reader.Consumed` says which tokens lead to a state of the stack;
every token the reader accepts keeps it, so at the end of the text it is a
derivation.
-/

namespace Datapath

/-! ## Tokens -/

/-- A character at which a word ends. -/
def IsSeparator (c : Char) : Prop := isBlank c = true ∨ c = '(' ∨ c = ')'

theorem not_isSeparator_iff {c : Char} :
    ¬ IsSeparator c ↔ isBlank c = false ∧ c ≠ '(' ∧ c ≠ ')' := by
  simp [IsSeparator, not_or]

namespace Token

/-- The tokens of a text: single parentheses, and the longest runs of characters that
do not separate. -/
inductive Spells : List Char → List Token → Prop
  | nil : Spells [] []
  | blank {c cs ts} : isBlank c = true → Spells cs ts → Spells (c :: cs) ts
  | lparen {cs ts} : Spells cs ts → Spells ('(' :: cs) (.lparen :: ts)
  | rparen {cs ts} : Spells cs ts → Spells (')' :: cs) (.rparen :: ts)
  | word {w cs ts} : IsWord w → (∀ c ∈ cs.head?, IsSeparator c) → Spells cs ts →
      Spells (w ++ cs) (.word (String.ofList w) :: ts)

variable {cs ds w : List Char} {ts us : List Token} {c : Char}

/-- Characters that do not separate join the word that starts after them. The
tokenizer works from the right, so this word has been begun already. -/
theorem foldr_consChar_append (h : ∀ c ∈ w, ¬ IsSeparator c)
    (state : List Char × List Token) :
    w.foldr consChar state = (w ++ state.1, state.2) := by
  induction w with
  | nil => rfl
  | cons c w ih =>
      obtain ⟨hblank, hl, hr⟩ := not_isSeparator_iff.1 (h c List.mem_cons_self)
      rw [List.foldr_cons, ih fun d hd => h d (List.mem_cons_of_mem _ hd)]
      simp [consChar, hblank, hl, hr]

/-- No word starts at a separator. -/
theorem foldr_consChar_fst (h : ∀ c ∈ cs.head?, IsSeparator c) :
    (cs.foldr consChar ([], [])).1 = [] := by
  cases cs with
  | nil => rfl
  | cons c cs =>
      rw [List.foldr_cons, consChar]
      rcases h c rfl with hc | rfl | rfl
      · rw [if_pos hc]
      · rfl
      · rfl

/-- The tokens of a text are what the tokenizer makes of it. A word is only closed by
the separator that comes before it, so the state of the tokenizer is a list of tokens
with a word that may still grow, which is empty where the next character
separates. -/
theorem Spells.eq_ofChars (h : Spells cs ts) : ts = ofChars cs := by
  induction h with
  | nil => rfl
  | blank hc _ ih => simp [ofChars, consChar, hc, flush, ih]
  | lparen _ ih => simp [ofChars, consChar, flush, ih, isBlank, blankRanges]
  | rparen _ ih => simp [ofChars, consChar, flush, ih, isBlank, blankRanges]
  | @word w cs ts hw hcs _ ih =>
      have hopen := foldr_consChar_fst hcs
      have hrest : ts = (cs.foldr consChar ([], [])).2 := by
        rw [ih, ofChars, hopen]
        rfl
      rw [ofChars, List.foldr_append,
        foldr_consChar_append fun c hc => not_isSeparator_iff.2 (hw.2 c hc),
        hopen, ← hrest, List.append_nil, flush, if_neg (by simpa using hw.1)]

/-- The word at the start of a text, which may be empty, and the tokens after it.
This is what the induction over the text needs, as a character may continue this word
or end it. -/
theorem exists_spells_rest (cs : List Char) :
    ∃ w ds ts, cs = w ++ ds ∧ (∀ c ∈ w, ¬ IsSeparator c) ∧
    (∀ c ∈ ds.head?, IsSeparator c) ∧ Spells ds ts := by
  induction cs with
  | nil => exact ⟨[], [], [], rfl, by simp, by simp, .nil⟩
  | cons c cs ih =>
      obtain ⟨w, ds, ts, rfl, hw, hds, hts⟩ := ih
      by_cases hc : IsSeparator c
      · have hrest : ∃ us, Spells (w ++ ds) us := by
          cases hnil : w with
          | nil => exact ⟨ts, hts⟩
          | cons d w' =>
              refine ⟨_, .word ⟨List.cons_ne_nil d w', ?_⟩ hds hts⟩
              exact fun x hx => not_isSeparator_iff.1 (hw x (hnil ▸ hx))
        obtain ⟨us, hus⟩ := hrest
        have hsep : ∀ d ∈ (c :: (w ++ ds)).head?, IsSeparator d := by simpa using hc
        rcases hc with hc | rfl | rfl
        · exact ⟨[], _, us, rfl, by simp, hsep, .blank hc hus⟩
        · exact ⟨[], _, _, rfl, by simp, hsep, .lparen hus⟩
        · exact ⟨[], _, _, rfl, by simp, hsep, .rparen hus⟩
      · exact ⟨c :: w, ds, ts, rfl, List.forall_mem_cons.2 ⟨hc, hw⟩, hds, hts⟩

/-- Every text has tokens. -/
theorem exists_spells (cs : List Char) : ∃ ts, Spells cs ts := by
  obtain ⟨w, ds, ts, rfl, hw, hds, hts⟩ := exists_spells_rest cs
  cases w with
  | nil => exact ⟨ts, hts⟩
  | cons c w =>
      exact ⟨_, .word ⟨List.cons_ne_nil c w, fun x hx =>
        not_isSeparator_iff.1 (hw x hx)⟩ hds hts⟩

/-- The tokenizer finds the tokens of a text. -/
theorem spells_iff : Spells cs ts ↔ ts = ofChars cs := by
  constructor
  · exact Spells.eq_ofChars
  · rintro rfl
    obtain ⟨ts, hts⟩ := exists_spells cs
    rwa [← hts.eq_ofChars]

/-- Blanks at the start make no tokens. -/
theorem Spells.blanks (hds : Spells ds us) (hc : ∀ c ∈ w, isBlank c = true) :
    Spells (w ++ ds) us := by
  induction w with
  | nil => exact hds
  | cons c w ih =>
      obtain ⟨hc, hw⟩ := List.forall_mem_cons.1 hc
      exact .blank hc (ih hw)

/-- Texts with a separator between them have the tokens of both. -/
theorem Spells.append (hcs : Spells cs ts) (hds : Spells ds us)
    (hsep : ∀ c ∈ ds.head?, IsSeparator c) :
    Spells (cs ++ ds) (ts ++ us) := by
  induction hcs with
  | nil => exact hds
  | blank hc _ ih => exact .blank hc ih
  | lparen _ ih => exact .lparen ih
  | rparen _ ih => exact .rparen ih
  | @word w cs ts hw hcs _ ih =>
      rw [List.append_assoc]
      refine .word hw ?_ ih
      cases cs with
      | nil => exact hsep
      | cons => exact hcs

end Token

/-! ## Atoms -/

/-- An ASCII digit. -/
def IsDigit (c : Char) : Prop := '0' ≤ c ∧ c ≤ '9'

/-- An ASCII letter. -/
def IsLetter (c : Char) : Prop := ('A' ≤ c ∧ c ≤ 'Z') ∨ ('a' ≤ c ∧ c ≤ 'z')

/-- The number that digits write in base ten. -/
def numeralValue (ds : List Char) : ℕ :=
  Nat.ofDigits 10 (ds.map fun d => d.toNat - '0'.toNat).reverse

/-- The atom that a word is. -/
inductive IsAtom : List Char → Pattern → Prop
  /-- A question mark and a name. -/
  | var {name} : name ≠ [] → IsAtom ('?' :: name) (.var (String.ofList name))
  /-- Digits. -/
  | numeral {ds} : ds ≠ [] → (∀ d ∈ ds, IsDigit d) →
      IsAtom ds (.literal (.ofNat (numeralValue ds)))
  /-- One of the two keywords. -/
  | sign (s : Sign) : IsAtom s.keyword.toList (.sign s)
  /-- A name that starts with a letter or an underscore and is not a keyword. -/
  | symbol {c cs} : (IsLetter c ∨ c = '_') →
      (∀ d ∈ cs, IsLetter d ∨ IsDigit d ∨ d = '_' ∨ d = '.' ∨ d = '$') →
      (∀ s : Sign, s.keyword.toList ≠ c :: cs) →
      IsAtom (c :: cs) (.symbol (String.ofList (c :: cs)))

/-- The test for digits is that for the ten ASCII digits. -/
theorem isDigit_iff {c : Char} : c.isDigit = true ↔ IsDigit c := by
  simp [Char.isDigit, IsDigit, Char.le_def]

/-- The test for letters is that for the ASCII letters. -/
theorem isAlpha_iff {c : Char} : c.isAlpha = true ↔ IsLetter c := by
  simp [Char.isAlpha, Char.isUpper, Char.isLower, IsLetter, Char.le_def]

theorem isNumeral_iff {cs : List Char} :
    isNumeral cs = true ↔ cs ≠ [] ∧ ∀ d ∈ cs, IsDigit d := by
  simp [isNumeral, isDigit_iff]

theorem isSymbolName_iff {c : Char} {cs : List Char} :
    isSymbolName (c :: cs) = true ↔
    (IsLetter c ∨ c = '_') ∧ ∀ d ∈ cs, IsLetter d ∨ IsDigit d ∨ d = '_' ∨
      d = '.' ∨ d = '$' := by
  simp [isSymbolName, isSymbolStart, isSymbolRest, Char.isAlphanum, isAlpha_iff,
    isDigit_iff, or_assoc]

/-- Reading digits from left to right gives the number that they write in base ten.
The induction is about any value that was read before them. -/
theorem digitsValue_eq (ds : List Char) :
    Binary64.digitsValue 0 ds = numeralValue ds := by
  have h (n : ℕ) : Binary64.digitsValue n ds =
      n * 10 ^ ds.length + numeralValue ds := by
    induction ds generalizing n with
    | nil => simp [Binary64.digitsValue, numeralValue]
    | cons d ds ih =>
        have hcons : Binary64.digitsValue n (d :: ds) =
            Binary64.digitsValue (10 * n + (d.toNat - '0'.toNat)) ds := by
          simp [Binary64.digitsValue]
        rw [hcons, ih]
        simp only [numeralValue, List.map_cons, List.reverse_cons,
          Nat.ofDigits_append, Nat.ofDigits_singleton, List.length_reverse,
          List.length_map, List.length_cons]
        ring
  simpa using h 0

/-- The signs are told apart by their keywords. -/
theorem Sign.ofKeyword?_eq_some {w : String} {s : Sign} :
    Sign.ofKeyword? w = some s ↔ s.keyword = w := by
  constructor
  · intro h
    simpa using List.find?_some h
  · rintro rfl
    cases s <;> decide

/-- A word that is an atom is read as it. The kinds of words exclude each other: no
numeral starts with a question mark, and no name with a digit. -/
theorem IsAtom.atom_eq {w : String} {p : Pattern} (h : IsAtom w.toList p) :
    atom w = .ok p := by
  generalize hw : w.toList = word at h
  obtain rfl : w = String.ofList word := by rw [← hw, String.ofList_toList]
  unfold atom
  rw [String.toList_ofList]
  cases h with
  | @var name hname =>
      cases name with
      | nil => exact absurd rfl hname
      | cons => rfl
  | numeral hne hds =>
      have hnumeral := isNumeral_iff.2 ⟨hne, hds⟩
      split
      · cases hnumeral
      · cases hnumeral
      · rw [if_pos hnumeral, digitsValue_eq]
        rfl
  | sign s => cases s <;> rfl
  | @symbol c cs hc hcs hkeyword =>
      have hname := isSymbolName_iff.2 ⟨hc, hcs⟩
      have hnumeral : isNumeral (c :: cs) = false := by
        simp [isNumeral,
          Pattern.isDigit_of_isSymbolStart (Bool.and_eq_true_iff.1 hname).1]
      have hnone : Sign.ofKeyword? (String.ofList (c :: cs)) = none := by
        rw [Option.eq_none_iff_forall_ne_some]
        intro s hs
        exact hkeyword s (by rw [Sign.ofKeyword?_eq_some.1 hs, String.toList_ofList])
      split
      · next heq =>
        rw [heq] at hname
        cases hname
      · next heq =>
        rw [heq] at hname
        cases hname
      · rw [hnumeral, if_neg Bool.false_ne_true, hnone]
        simp only [hname, if_pos]
        rfl

/-- The atom that is read is the one that the word is. The reader tries the kinds of
atoms one after the other, and each test is that of one kind. -/
theorem atom_iff {w : String} {p : Pattern} :
    atom w = .ok p ↔ IsAtom w.toList p := by
  refine ⟨fun h => ?_, IsAtom.atom_eq⟩
  unfold atom at h
  split at h
  · cases h
  · next name hnotempty hname =>
    cases h
    rw [hname]
    exact .var (by rintro rfl; exact hnotempty rfl)
  · split at h
    · next hnumeral =>
      cases h
      rw [digitsValue_eq]
      exact .numeral (isNumeral_iff.1 hnumeral).1 (isNumeral_iff.1 hnumeral).2
    · split at h
      · next s hs =>
        cases h
        rw [← Sign.ofKeyword?_eq_some.1 hs]
        exact .sign s
      · next hnone =>
        split at h
        · next hname =>
          cases h
          cases hcs : w.toList with
          | nil => rw [hcs] at hname; cases hname
          | cons c cs =>
              rw [hcs, isSymbolName_iff] at hname
              rw [← String.ofList_toList (s := w), hcs]
              refine .symbol hname.1 hname.2 fun s hs => ?_
              have hsome :=
                Sign.ofKeyword?_eq_some.2 (String.toList_inj.1 (hs.trans hcs.symm))
              rw [hnone] at hsome
              cases hsome
        · cases h

/-! ## Expressions -/

/-- The tokens of one expression and its syntax tree. -/
inductive Derives : List Token → Pattern → Prop
  /-- A word that is an atom. -/
  | atom {w p} : IsAtom w.toList p → Derives [.word w] p
  /-- A width function and its two arguments in parentheses. -/
  | width {tl tr l r} (fn : WidthFn) : Derives tl l → Derives tr r →
      Derives (.lparen :: .word fn.symbol :: (tl ++ tr ++ [.rparen]))
        (.derived fn l r)
  /-- An operator and its seven slots in parentheses: the output width, and the
  width, the sign and the expression of each operand. -/
  | arith {tw twa tsa ta twb tsb tb w wa sa a wb sb b}
      (op : Operator) : Derives tw w →
      Derives twa wa → Derives tsa sa → Derives ta a → Derives twb wb →
      Derives tsb sb → Derives tb b →
      Derives (.lparen :: .word op.symbol ::
        (tw ++ twa ++ tsa ++ ta ++ twb ++ tsb ++ tb ++ [.rparen]))
        (.binary op w wa sa a wb sb b)

/-- The tokens of expressions one after the other and their syntax trees. -/
inductive DerivesAll : List Token → List Pattern → Prop
  | nil : DerivesAll [] []
  | cons {ts us p ps} : Derives ts p → DerivesAll us ps →
      DerivesAll (ts ++ us) (p :: ps)

variable {ts us : List Token} {p q : Pattern} {ps qs : List Pattern}

/-- Expressions may be put one after the other. -/
theorem DerivesAll.append (hts : DerivesAll ts ps) (hus : DerivesAll us qs) :
    DerivesAll (ts ++ us) (ps ++ qs) := by
  induction hts with
  | nil => exact hus
  | cons hp _ ih =>
      rw [List.append_assoc]
      exact .cons hp ih

theorem Derives.all (h : Derives ts p) : DerivesAll ts [p] := by
  simpa using DerivesAll.cons h .nil

theorem derivesAll_nil_iff : DerivesAll ts [] ↔ ts = [] := by
  constructor
  · rintro ⟨⟩
    rfl
  · rintro rfl
    exact .nil

/-- Of several expressions the first one has a first part of the tokens. -/
theorem derivesAll_cons_iff : DerivesAll ts (p :: ps) ↔
    ∃ us vs, ts = us ++ vs ∧ Derives us p ∧ DerivesAll vs ps := by
  constructor
  · rintro (_ | ⟨hp, hps⟩)
    exact ⟨_, _, rfl, hp, hps⟩
  · rintro ⟨us, vs, rfl, hp, hps⟩
    exact .cons hp hps

/-- A head with the right number of arguments after it makes an expression. -/
theorem Head.derives_of_build? {head : Head} (hts : DerivesAll ts ps)
    (h : head.build? ps = some p) :
    Derives (.lparen :: .word head.symbol :: (ts ++ [.rparen])) p := by
  unfold Head.build? at h
  split at h
  · next fn l r =>
    cases h
    simp only [derivesAll_cons_iff, derivesAll_nil_iff] at hts
    obtain ⟨tl, _, rfl, hl, tr, _, rfl, hr, rfl⟩ := hts
    simpa [Head.symbol] using Derives.width fn hl hr
  · next op w wa sa a wb sb b =>
    cases h
    simp only [derivesAll_cons_iff, derivesAll_nil_iff] at hts
    obtain ⟨tw, _, rfl, hw, twa, _, rfl, hwa, tsa, _, rfl, hsa, ta, _, rfl, ha, twb,
      _, rfl, hwb, tsb, _, rfl, hsb, tb, _, rfl, hb, rfl⟩ := hts
    simpa [Head.symbol] using Derives.arith op hw hwa hsa ha hwb hsb hb
  · cases h

theorem Head.ofSymbol?_eq_some {s : String} {head : Head}
    (h : Head.ofSymbol? s = some head) : head.symbol = s := by
  simpa using List.find?_some h

theorem Head.ofSymbol?_symbol (head : Head) :
    Head.ofSymbol? head.symbol = some head := by
  rcases head with fn | op
  · cases fn <;> decide
  · cases op <;> decide

namespace Reader

variable {s t : State} {head : Token}

/-! ## What the reader accepts is derived -/

/-- The tokens that lead from the start to a state of the reader. -/
inductive Consumed : List Token → State → Prop
  /-- No compound is open. -/
  | closed {ts done} : DerivesAll ts done.reverse → Consumed ts ⟨[], done⟩
  /-- The arguments of a compound come after what stood before it. -/
  | opened {ts us frames done head args} : Consumed ts ⟨frames, done⟩ →
      DerivesAll us args.reverse →
      Consumed (ts ++ .lparen :: .word head.symbol :: us)
        ⟨⟨head, args⟩ :: frames, done⟩

/-- An expression that has been read is an argument of the innermost open compound,
or stands for itself if there is none. -/
theorem Consumed.push (h : Consumed ts s) (hp : Derives us p) :
    Consumed (ts ++ us) (s.push p) := by
  cases h with
  | closed hdone =>
      refine .closed ?_
      rw [List.reverse_cons]
      exact hdone.append hp.all
  | opened hframes hargs =>
      rw [List.append_assoc, List.cons_append, List.cons_append]
      refine .opened hframes ?_
      rw [List.reverse_cons]
      exact hargs.append hp.all

/-- A parenthesis and a head open a compound without arguments. -/
theorem Consumed.enter (h : Consumed ts s) (hs : s.enter head.text = .ok t) :
    Consumed (ts ++ [.lparen, head]) t := by
  unfold State.enter at hs
  split at hs
  · next found hfound =>
    cases hs
    cases head with
    | lparen =>
        have hnone : Head.ofSymbol? Token.lparen.text = none := by decide
        rw [hnone] at hfound
        cases hfound
    | rparen =>
        have hnone : Head.ofSymbol? Token.rparen.text = none := by decide
        rw [hnone] at hfound
        cases hfound
    | word w =>
        obtain rfl : found.symbol = w := Head.ofSymbol?_eq_some hfound
        exact .opened h .nil
  · cases hs

/-- A closing parenthesis makes an expression of the innermost compound, if this has
the right number of arguments. -/
theorem Consumed.leave (h : Consumed ts s) (hs : s.leave = .ok t) :
    Consumed (ts ++ [.rparen]) t := by
  cases h with
  | closed => cases hs
  | opened hframes hargs =>
      simp only [State.leave] at hs
      split at hs
      · next p hp =>
        cases hs
        rw [List.append_assoc, List.cons_append, List.cons_append]
        exact hframes.push (Head.derives_of_build? hargs hp)
      · cases hs

/-- What the reader accepts is derived from the tokens it has consumed and those it
reads. The induction is that of the reader, one token after the other. -/
theorem Consumed.run (h : Consumed us s) (hrun : run ts s = .ok ps) :
    DerivesAll (us ++ ts) ps := by
  induction ts, s using run.induct generalizing us with
  | case1 s =>
      rw [List.append_nil]
      cases h with
      | closed hdone => cases hrun; exact hdone
      | opened => cases hrun
  | case2 => cases hrun
  | case3 head rest s ih =>
      obtain ⟨t, ht, hrun⟩ := except_bind_inv hrun
      simpa using ih t (h.enter ht) hrun
  | case4 rest s ih =>
      obtain ⟨t, ht, hrun⟩ := except_bind_inv hrun
      simpa using ih t (h.leave ht) hrun
  | case5 w rest s ih =>
      obtain ⟨p, hp, hrun⟩ := except_bind_inv hrun
      simpa using ih p (h.push (.atom (atom_iff.1 hp))) hrun

/-! ## What is derived is accepted -/

/-- The symbol of a head opens a compound with this head. -/
theorem enter_symbol (head : Head) (s : State) :
    s.enter head.symbol = .ok ⟨⟨head, []⟩ :: s.frames, s.done⟩ := by
  rw [State.enter, Head.ofSymbol?_symbol]
  rfl

/-- The reader gives the tree of an expression to the innermost open compound, and
goes on with the tokens after it. -/
theorem run_derives (h : Derives ts p) (rest : List Token) (s : State) :
    run (ts ++ rest) s = run rest (s.push p) := by
  induction h generalizing rest s with
  | atom hp =>
      rw [List.singleton_append, run, atom_iff.2 hp]
      rfl
  | width fn _ _ hl hr =>
      simp only [List.cons_append, List.append_assoc, List.nil_append]
      rw [run, Token.text, show fn.symbol = (Head.width fn).symbol from rfl,
        enter_symbol]
      show run _ _ = _
      rw [hl, hr]
      rfl
  | arith op _ _ _ _ _ _ _ hw hwa hsa ha hwb hsb hb =>
      simp only [List.cons_append, List.append_assoc, List.nil_append]
      rw [run, Token.text, show op.symbol = (Head.arith op).symbol from rfl,
        enter_symbol]
      show run _ _ = _
      rw [hw, hwa, hsa, ha, hwb, hsb, hb]
      rfl

/-- Expressions one after the other are given to it from left to right. -/
theorem run_derivesAll (h : DerivesAll ts ps) (s : State) :
    run ts s = (ps.foldl (fun t p => State.push p t) s).finish := by
  induction h generalizing s with
  | nil => rfl
  | cons hp _ ih => rw [run_derives hp, ih, List.foldl_cons]

/-- With no compound open, what is read is put on the stack. -/
theorem foldl_push (ps done : List Pattern) :
    ps.foldl (fun t p => State.push p t) ⟨[], done⟩ = ⟨[], ps.reverse ++ done⟩ := by
  induction ps generalizing done with
  | nil => rfl
  | cons p ps ih =>
      rw [List.foldl_cons, State.push, ih]
      simp

/-- The reader decides the grammar: what it accepts is derived, and what is derived
it accepts. -/
theorem run_iff : run ts .start = .ok ps ↔ DerivesAll ts ps := by
  constructor
  · intro h
    have hstart : Consumed [] .start := .closed .nil
    exact hstart.run h
  · intro h
    rw [run_derivesAll h, State.start, foldl_push]
    simp [State.finish, pure, Except.pure]

end Reader

/-! ## Texts -/

namespace Pattern

variable {text other : String}

/-- A text is read as its tokens are. -/
theorem parseAll_iff : parseAll text = .ok ps ↔ DerivesAll (tokenize text) ps := by
  rw [← Reader.run_iff, parseAll]
  cases Reader.run (tokenize text) .start <;> simp [Except.mapError]

/-- A text of one expression is one that is read as a list of one. -/
theorem parse_iff : parse text = .ok p ↔ DerivesAll (tokenize text) [p] := by
  rw [← parseAll_iff, parse]
  rcases parseAll text with e | (_ | ⟨q, _ | ⟨r, rs⟩⟩) <;>
    simp [bind, Except.bind, pure, Except.pure, throw, throwThe, MonadExceptOf.throw]

/-- The reader accepts the texts of one expression. -/
theorem parse_iff_derives : parse text = .ok p ↔ Derives (tokenize text) p := by
  rw [parse_iff, derivesAll_cons_iff]
  constructor
  · rintro ⟨us, vs, hts, hp, hvs⟩
    rwa [hts, derivesAll_nil_iff.1 hvs, List.append_nil]
  · intro hp
    exact ⟨_, [], (List.append_nil _).symm, hp, .nil⟩

/-- A text that is not accepted is refused with an error that names it. -/
theorem parseAll_error (h : ∀ ps, parseAll text ≠ .ok ps) :
    ∃ fault, parseAll text = .error ⟨text, fault⟩ := by
  rw [parseAll] at h ⊢
  cases hrun : Reader.run (tokenize text) .start with
  | ok ps => exact absurd (by rw [hrun]; rfl) (h ps)
  | error fault => exact ⟨fault, rfl⟩

/-- The same for texts of one expression, which may also have none or too many. -/
theorem parse_error (h : ∀ p, parse text ≠ .ok p) :
    ∃ fault, parse text = .error ⟨text, fault⟩ := by
  cases hall : parseAll text with
  | error e =>
      obtain ⟨fault, hfault⟩ : ∃ fault, parseAll text = .error ⟨text, fault⟩ :=
        parseAll_error (by simp [hall])
      rw [hall] at hfault
      cases hfault
      exact ⟨fault, by rw [parse, hall]; rfl⟩
  | ok ps =>
      match ps with
      | [] => exact ⟨.empty, by rw [parse, hall]; rfl⟩
      | [p] => exact absurd (by rw [parse, hall]; rfl) (h p)
      | _ :: q :: _ => exact ⟨.trailing q, by rw [parse, hall]; rfl⟩

/-- What stands on both sides of blanks is read on its own, since no word extends
over a blank. -/
theorem parseAll_append {blanks : List Char} (hne : blanks ≠ [])
    (hblanks : ∀ c ∈ blanks, isBlank c = true)
    (hps : parseAll text = .ok ps) (hqs : parseAll other = .ok qs) :
    parseAll (text ++ String.ofList blanks ++ other) = .ok (ps ++ qs) := by
  have htokens : tokenize (text ++ String.ofList blanks ++ other) =
      tokenize text ++ tokenize other := by
    symm
    refine Token.Spells.eq_ofChars ?_
    rw [String.toList_append, String.toList_append, String.toList_ofList,
      List.append_assoc]
    refine (Token.spells_iff.2 rfl).append
      ((Token.spells_iff.2 rfl).blanks hblanks) ?_
    cases blanks with
    | nil => exact absurd rfl hne
    | cons c blanks =>
        have hc : IsSeparator c := Or.inl (hblanks c List.mem_cons_self)
        simpa using hc
  rw [parseAll_iff, htokens]
  exact (parseAll_iff.1 hps).append (parseAll_iff.1 hqs)

/-- The reader accepts exactly the texts whose tokens are expressions one after the
other, and returns their syntax trees. -/
theorem parseAll_grammar (text : String) :
    ∃ ts, (∀ us, Token.Spells text.toList us ↔ us = ts) ∧
    (∀ ps, parseAll text = .ok ps ↔ DerivesAll ts ps) ∧
    (∀ ps qs, DerivesAll ts ps → DerivesAll ts qs → ps = qs) ∧
    ((¬ ∃ ps, DerivesAll ts ps) → ∃ fault, parseAll text = .error ⟨text, fault⟩) ∧
    (∀ p, parse text = .ok p ↔ DerivesAll ts [p]) ∧
    ((¬ ∃ p, DerivesAll ts [p]) → ∃ fault, parse text = .error ⟨text, fault⟩) ∧
    ∀ other blanks ps qs, blanks ≠ [] → (∀ c ∈ blanks, isBlank c = true) →
      parseAll text = .ok ps →
      parseAll other = .ok qs → parseAll (text ++ String.ofList blanks ++ other) =
        .ok (ps ++ qs) := by
  refine ⟨tokenize text, fun us => Token.spells_iff, fun ps => parseAll_iff,
    fun ps qs hps hqs => ?_,
    fun h => parseAll_error fun ps hps => h ⟨ps, parseAll_iff.1 hps⟩, fun p =>
      parse_iff, fun h => parse_error fun p hp => h ⟨p, parse_iff.1 hp⟩,
    fun other blanks ps qs => parseAll_append⟩
  rw [← parseAll_iff] at hps hqs
  exact Except.ok.inj (hps.symm.trans hqs)

/-- A text with an operator that lacks arguments is rejected, and two texts are read
one after the other. -/
theorem parseAll_grammar_texts :
    (∃ fault, parseAll "(+ A" = .error ⟨"(+ A", fault⟩) ∧
      (∃ fault, parse "A ?b" = .error ⟨"A ?b", fault⟩) ∧
      parseAll ("A ?b" ++ String.ofList [' ', ' '] ++ "(max+1 B ?b)") =
        .ok [.symbol "A", .var "b", .derived .sum (.symbol "B") (.var "b")] := by
  obtain ⟨ts, -, hall, -, herror, -⟩ := parseAll_grammar "(+ A"
  obtain ⟨us, -, hall', hunique, -, hone, herror', happend⟩ :=
    parseAll_grammar "A ?b"
  have hps : parseAll "A ?b" = .ok [.symbol "A", .var "b"] := by decide +kernel
  refine ⟨herror ?_, herror' ?_,
    happend "(max+1 B ?b)" _ _ _ (by decide) ?_ hps (by decide +kernel)⟩
  · rintro ⟨ps, hps⟩
    have hfault : parseAll "(+ A" = .error ⟨"(+ A", .unclosed⟩ := by decide +kernel
    cases ((hall ps).2 hps).symm.trans hfault
  · rintro ⟨p, hp⟩
    cases hunique _ _ hp ((hall' _).1 hps)
  · simp [isBlank, blankRanges]

end Pattern

end Datapath
