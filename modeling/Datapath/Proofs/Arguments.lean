import Datapath.CommandLine
import Datapath.Proofs.Grammar
import Datapath.Proofs.Numbers

/-!
# Datapath.Proofs.Arguments

The command `prove` depends on its terms and limits only, not on how its arguments
give them.

An `Argument` is a positional text or an option with its value, and `words` spells a
list of them. What such a list asks for, `asked`, is defined by what it contains: the
texts in their order, the file that is named last, the limit that is given last. An
argument is read as a whole (`read_words`) and leads from what was asked before to
what is asked with it (`asked_append`), so by induction the words of a list are read
as what the list asks for (`ofArgs_words`).

An option cannot be a text of terms, as no term starts with `-`
(`startsWith_of_parseAll`), and terms that were read can be loaded, so no part of the
command fails. The main result is `run_prove`.
-/

namespace Datapath

/-! ## Terms that were read -/

namespace Pattern

/-- No atom starts with `-`. -/
theorem not_isAtom_dash {cs : List Char} {p : Pattern} : ¬ IsAtom ('-' :: cs) p := by
  intro h
  generalize hw : '-' :: cs = w at h
  cases h with
  | var => simp at hw
  | numeral _ hdigits =>
      have hdash := hdigits '-' (by simp [← hw])
      simp [IsDigit] at hdash
  | sign s => cases s <;> simp [Sign.keyword] at hw
  | symbol hfirst =>
      obtain ⟨rfl, -⟩ := List.cons.inj hw
      simp [IsLetter] at hfirst

/-- The first word of tokens that are derived is an atom. -/
theorem isAtom_of_derivesAll {w : String} {ts : List Token} {ps : List Pattern}
    (h : DerivesAll (.word w :: ts) ps) : ∃ p, IsAtom w.toList p := by
  cases ps with
  | nil => simp [derivesAll_nil_iff] at h
  | cons p ps =>
      obtain ⟨us, vs, hts, hp, -⟩ := derivesAll_cons_iff.1 h
      cases hp with
      | atom hatom =>
          obtain ⟨hw, -⟩ := List.cons.inj hts
          cases hw
          exact ⟨p, hatom⟩
      | width => simp at hts
      | arith => simp at hts

/-- A text of terms does not start like an option. -/
theorem startsWith_of_parseAll {text : String} {ps : List Pattern}
    (h : parseAll text = .ok ps) : text.startsWith "--" = false := by
  rw [String.startsWith_string_eq_false_iff]
  rintro ⟨rest, hrest⟩
  have hspells : Token.Spells text.toList (tokenize text) := Token.spells_iff.2 rfl
  have hderives := parseAll_iff.1 h
  have hcs : '-' :: '-' :: rest = text.toList := by
    rw [← hrest]
    rfl
  generalize tokenize text = ts at hspells hderives
  generalize text.toList = cs at hspells hcs
  cases hspells with
  | nil => simp at hcs
  | blank hblank =>
      obtain ⟨rfl, -⟩ := List.cons.inj hcs
      simp [isBlank, blankRanges] at hblank
  | lparen => simp at hcs
  | rparen => simp at hcs
  | @word w ds us hword =>
      obtain ⟨c, w, rfl⟩ := List.exists_cons_of_ne_nil hword.1
      obtain ⟨rfl, -⟩ := List.cons.inj hcs
      obtain ⟨p, hatom⟩ := isAtom_of_derivesAll hderives
      rw [String.toList_ofList] at hatom
      exact not_isAtom_dash hatom

theorem loadable_of_parseAll {text : String} {ps : List Pattern} {p : Pattern}
    (h : parseAll text = .ok ps)
    (hp : p ∈ ps) (hvars : p.vars = []) : p.Loadable where
  closed := hvars
  literal v hv := by
    obtain ⟨n, hn⟩ := (atomic_of_parseAll h p hp).literal hv
    rw [hn]
    exact Binary64.isWidth_ofNat n

end Pattern

namespace CommandLine

/-- A query about two terms with the catalog has a verdict. -/
theorem exists_verdict {l r : Pattern} (hl : l.Loadable) (hr : r.Loadable)
    (o : Options) : ∃ v g, proveTerms l r catalogEquations o = .ok (v, g) := by
  have hE : ∀ eqn ∈ catalogEquations, eqn.Arithmetic := by
    intro eqn heqn
    obtain ⟨rule, hrule, rfl⟩ := List.mem_map.1 heqn
    exact arithmetic_of_mem_catalog hrule
  have h₀ := EGraph.numeric_empty
  obtain ⟨x, g₁, hx⟩ := h₀.succeeds_addGround hl
  obtain ⟨h₁, hissuedx⟩ := h₀.addGround hl hx
  have c₁ := EGraph.addGround_calls h₀.wellFormed hx
  obtain ⟨y, g₂, hy⟩ := h₁.succeeds_addGround hr
  obtain ⟨h₂, hissuedy⟩ := h₁.addGround hr hy
  have c₂ := EGraph.addGround_calls h₁.wellFormed hy
  obtain ⟨v, g, hv⟩ := h₂.succeeds_settle (o := o) hE (c₁.trans c₂)
    (hissuedx.of_extends (EGraph.Calls.extends h₁.wellFormed c₂)) hissuedy
  exact ⟨v, g, EGraph.proveTerms_eq_ok hx hy hv⟩

/-! ## Arguments -/

/-- A text that gives a limit: a positive number in base ten, before which blanks and
a plus sign may stand. Nothing after its digits counts. -/
structure GivesLimit (text : String) (n : ℕ) : Prop where
  positive : 0 < n
  spelled : ∃ blanks plus digits rest,
    text.toList = blanks ++ (plus ++ (digits ++ rest)) ∧
    (∀ c ∈ blanks, isBlank c = true) ∧ (plus = [] ∨ plus = ['+']) ∧ digits ≠ [] ∧
    (∀ d ∈ digits, IsDigit d) ∧ (∀ c ∈ rest.head?, ¬ IsDigit c) ∧
    numeralValue digits = n

/-- One of the arguments after the command, an option together with its value. -/
inductive Argument
  /-- A text of terms. -/
  | terms (text : String) (ps : List Pattern)
    (reads : Pattern.parseAll text = .ok ps)
  /-- A file with terms. -/
  | file (path : String)
  /-- The limit on rounds. -/
  | limit (text : String) (n : ℕ) (gives : GivesLimit text n)
  | verbose
  | saturate

namespace Argument

/-- The words of an argument. -/
def words : Argument → List String
  | terms text _ _ => [text]
  | file path => ["--file", path]
  | limit text _ _ => ["--max-iterations", text]
  | verbose => ["--verbose"]
  | saturate => ["--saturate"]

/-- What is asked for once the argument has been read. -/
def apply (inv : Invocation) : Argument → Invocation
  | terms text _ _ => { inv with positional := inv.positional ++ [text] }
  | file path => { inv with file := some path }
  | limit _ n _ => { inv with options := { inv.options with roundLimit := n } }
  | verbose => { inv with options := { inv.options with verbose := true } }
  | saturate => { inv with saturate := true }

def text? : Argument → Option String
  | terms text _ _ => some text
  | _ => none

def path? : Argument → Option String
  | file path => some path
  | _ => none

def limit? : Argument → Option ℕ
  | limit _ n _ => some n
  | _ => none

def isVerbose : Argument → Bool
  | verbose => true
  | _ => false

def isSaturate : Argument → Bool
  | saturate => true
  | _ => false

/-- The terms that an argument gives by itself. -/
def patterns : Argument → List Pattern
  | terms _ ps _ => ps
  | _ => []

end Argument

/-- The words of arguments. -/
def words (args : List Argument) : List String := args.flatMap Argument.words

/-- The file that is named last. -/
def lastFile? (args : List Argument) : Option String :=
  (args.filterMap Argument.path?).getLast?

/-- The limits that arguments give: the last limit on rounds, or the usual one. -/
def limits (args : List Argument) : Options where
  roundLimit := (args.filterMap Argument.limit?).getLast?.getD 30
  verbose := args.any Argument.isVerbose

/-- What a command with arguments asks for. -/
def asked (command : String) (args : List Argument) : Invocation where
  command := command
  positional := args.filterMap Argument.text?
  file := lastFile? args
  saturate := args.any Argument.isSaturate
  options := limits args

/-- The arguments give a list of terms: those of the texts in their order and, after
them, those of the file that is named last. -/
def Give (files : Files) (args : List Argument) (ps : List Pattern) : Prop :=
  match lastFile? args with
  | none => ps = args.flatMap Argument.patterns
  | some path =>
      ∃ content qs, files path = .ok content ∧ Pattern.parseAll content = .ok qs ∧
      ps = args.flatMap Argument.patterns ++ qs

variable {files : Files} {args : List Argument} {ps : List Pattern} {p l r : Pattern}

/-! ## Reading arguments -/

theorem GivesLimit.leadingInt? {text : String} {n : ℕ} (h : GivesLimit text n) :
    leadingInt? text = some (n : ℤ) := by
  obtain ⟨blanks, plus, digits, rest, htext, hblanks, hplus, hne, hdigits, hrest,
    hvalue⟩ := h.spelled
  obtain ⟨d, ds, rfl⟩ := List.exists_cons_of_ne_nil hne
  have hd : d.isDigit = true := isDigit_iff.2 (hdigits d List.mem_cons_self)
  have hnumber : text.toList.dropWhile isBlank = plus ++ (d :: ds ++ rest) := by
    rw [htext]
    refine dropWhile_append_eq hblanks ?_
    rcases hplus with rfl | rfl
    · simpa using (Pattern.isWordChar_of_isDigit hd).1
    · simp [isBlank, blankRanges]
  have hsign : Binary64.takeSign (plus ++ (d :: ds ++ rest)) =
      (false, d :: ds ++ rest) := by
    rcases hplus with rfl | rfl
    · rw [List.nil_append, List.cons_append, Binary64.takeSign]
      · intro rest' heq
        cases heq
        cases hd
      · intro rest' heq
        cases heq
        cases hd
    · rfl
  have htake : (d :: ds ++ rest).takeWhile Char.isDigit = d :: ds := by
    refine takeWhile_append_eq (fun c hc => isDigit_iff.2 (hdigits c hc)) ?_
    intro c hc
    rw [Bool.eq_false_iff]
    intro hdigit
    exact hrest c hc (isDigit_iff.1 hdigit)
  simp only [CommandLine.leadingInt?, hnumber, hsign, htake, digitsValue_eq, hvalue]
  rfl

/-- Every positive number in base ten gives itself. -/
theorem givesLimit_toString {n : ℕ} (h : 0 < n) : GivesLimit (toString n) n where
  positive := h
  spelled := by
    refine ⟨[], [], Nat.toDigits 10 n, [],
      ?_, by simp, Or.inl rfl, Nat.toDigits_ne_nil, ?_, by simp, ?_⟩
    · simp [Nat.repr, toString]
    · intro d hd
      exact isDigit_iff.1 (Binary64.digits_toDigits n d hd)
    · rw [← digitsValue_eq, Binary64.digitsValue_toDigits]

theorem GivesLimit.iterations {text : String} {n : ℕ} (h : GivesLimit text n) :
    iterations text = .ok (n : ℤ) := by
  simp [CommandLine.iterations, h.leadingInt?, h.positive, pure, Except.pure]

/-- An argument is read as a whole. -/
theorem read_words (a : Argument) (rest : List String) (inv : Invocation) :
    Invocation.read (a.words ++ rest) inv = Invocation.read rest (a.apply inv) := by
  cases a with
  | terms text ps reads =>
      have hoption := Pattern.startsWith_of_parseAll reads
      have hne : ∀ option : String, option.startsWith "--" = true →
            text ≠ option := by
        rintro option hstart rfl
        rw [hstart] at hoption
        cases hoption
      rw [Argument.words, List.singleton_append, Invocation.read]
      · simp [hoption, Argument.apply]
      all_goals exact hne _ (by decide +kernel)
  | file path => rfl
  | limit text n gives =>
      simp only [Argument.words, List.cons_append, List.nil_append, Invocation.read,
        gives.iterations]
      rfl
  | verbose => rfl
  | saturate => rfl

theorem asked_append (command : String) (args : List Argument) (a : Argument) :
    asked command (args ++ [a]) = a.apply (asked command args) := by
  cases a <;>
    simp [asked, lastFile?, limits, Argument.apply, Argument.text?, Argument.path?,
      Argument.limit?, Argument.isVerbose, Argument.isSaturate, List.filterMap_cons]

theorem read_asked (command : String) (args rest : List Argument) :
    Invocation.read (words rest) (asked command args) =
      .ok (asked command (args ++ rest)) := by
  induction rest generalizing args with
  | nil =>
      rw [List.append_nil]
      rfl
  | cons a rest ih =>
      rw [words, List.flatMap_cons, read_words, ← asked_append, ← words, ih]
      simp

/-- Arguments are read as what they ask for. -/
theorem ofArgs_words (command : String) (args : List Argument) :
    Invocation.ofArgs command (words args) = .ok (asked command args) :=
  read_asked command [] args

/-! ## Terms -/

theorem parseTerms_eq_ok {text : String} (h : Pattern.parseAll text = .ok ps) :
    parseTerms text = .ok ps := by
  rw [parseTerms, h]
  rfl

/-- The texts are read each by itself. -/
theorem mapM_parseTerms (args : List Argument) : ∃ given,
    (args.filterMap Argument.text?).mapM parseTerms = .ok given ∧
      given.flatten = args.flatMap Argument.patterns := by
  induction args with
  | nil => exact ⟨[], rfl, rfl⟩
  | cons a args ih =>
      obtain ⟨given, hgiven, hflatten⟩ := ih
      cases a with
      | terms text ps reads =>
          refine ⟨ps :: given, ?_, by simp [hflatten, Argument.patterns]⟩
          simp [Argument.text?, List.mapM_cons, parseTerms_eq_ok reads, hgiven]
          rfl
      | file | limit | verbose | saturate => exact ⟨given, hgiven, hflatten⟩

theorem gatherTerms_of_give (h : Give files args ps) :
    gatherTerms files (args.filterMap Argument.text?) (lastFile? args) = .ok ps := by
  obtain ⟨given, hgiven, hflatten⟩ := mapM_parseTerms args
  rw [gatherTerms, hgiven]
  unfold Give at h
  cases hfile : lastFile? args with
  | none =>
      rw [hfile] at h
      rw [h, ← hflatten]
      rfl
  | some path =>
      rw [hfile] at h
      obtain ⟨content, qs, hcontent, hqs, rfl⟩ := h
      simp only [hcontent, ← hflatten]
      simp [bind, Except.bind, Except.mapError, parseTerms_eq_ok hqs,
        pure, Except.pure]

/-- Terms that were read can be loaded. -/
theorem loadable_of_give (h : Give files args ps) (hp : p ∈ ps)
    (hvars : p.vars = []) : p.Loadable := by
  have hgiven : p ∈ args.flatMap Argument.patterns → p.Loadable := by
    intro hp
    obtain ⟨a, -, hp⟩ := List.mem_flatMap.1 hp
    cases a with
    | terms text ps reads => exact Pattern.loadable_of_parseAll reads hp hvars
    | file | limit | verbose | saturate => cases hp
  unfold Give at h
  split at h
  · rw [h] at hp
    exact hgiven hp
  · obtain ⟨content, qs, -, hqs, rfl⟩ := h
    rcases List.mem_append.1 hp with hp | hp
    · exact hgiven hp
    · exact Pattern.loadable_of_parseAll hqs hp hvars

/-! ## The command -/

theorem unlines_append (lines more : List String) :
    unlines (lines ++ more) = unlines lines ++ unlines more := by
  simp [unlines, String.join_append]

/-- The command tells the verdict on the terms that its arguments give. -/
theorem run_words (hhelp : "--help" ∉ words args) (hh : "-h" ∉ words args)
    (h : Give files args [l, r])
    {v : Verdict} {g : EGraph}
    (hv : proveTerms l r catalogEquations (limits args) = .ok (v, g)) :
    run files ("prove" :: words args) =
      ⟨if v.equivalent then 0 else 2,
        unlines v.stats.log ++ unlines (verdictLines v), ""⟩ := by
  have hask : asksForHelp ("prove" :: words args) = false := by
    simp [asksForHelp, hhelp, hh]
  have hterms : gatherTerms files (asked "prove" args).positional
      (asked "prove" args).file = .ok [l, r] :=
    gatherTerms_of_give h
  have hprove : runProve files (asked "prove" args) =
      .ok (.ofLines (if v.equivalent then 0 else 2)
        (v.stats.log ++ verdictLines v)) := by
    rw [runProve, hterms, show (asked "prove" args).options = limits args from rfl]
    simp only [bind, Except.bind, hv, Except.mapError]
    rfl
  have hexecute : execute files (asked "prove" args) =
      runProve files (asked "prove" args) := rfl
  simp only [run, hask, ofArgs_words, bind, Except.bind, hexecute, hprove,
    Outcome.ofLines, unlines_append]
  rfl

theorem mem_endings (e : Ending) : (e, e.text) ∈ [(Ending.saturated, "saturated"),
    (Ending.roundLimit, "iteration-limit"), (Ending.classLimit, "size-limit")] := by
  cases e <;> simp [Ending.text]

/-- The last two lines that the command prints, written out. -/
theorem unlines_verdictLines (v : Verdict) :
    unlines (verdictLines v) =
      (if v.equivalent then "equivalent\n" else "not proven\n") ++
        (toString v.stats.rounds ++ " iterations, " ++ toString v.stats.unions ++
          " merges, " ++ toString v.stats.classes ++ " classes (" ++
            v.stats.ending.text ++ ")\n") := by
  refine String.toList_inj.1 ?_
  cases h : v.equivalent <;> simp [unlines, verdictLines, String.join, h, toString]

/-- If the arguments give two ground terms, the command tells the verdict on them
under the limits that the arguments give: it exits with zero if they are equivalent
and with two otherwise, writes no errors, and ends its output with a line that says
which and a line about the run, which tells its rounds, its unions, its classes and
how it ended.

Other arguments and files that give the same terms and limits lead to the same
outcome. -/
theorem run_prove (hhelp : "--help" ∉ words args) (hh : "-h" ∉ words args)
    (h : Give files args [l, r]) (hl : l.vars = []) (hr : r.vars = []) :
    ∃ v g ending, proveTerms l r catalogEquations (limits args) = .ok (v, g) ∧
      (v.stats.ending, ending) ∈ [(Ending.saturated, "saturated"),
        (Ending.roundLimit, "iteration-limit"), (Ending.classLimit, "size-limit")] ∧
      run files ("prove" :: words args) =
        { exitStatus := if v.equivalent then 0 else 2
          output := unlines v.stats.log ++
            ((if v.equivalent then "equivalent\n" else "not proven\n") ++
              (toString v.stats.rounds ++ " iterations, " ++
                toString v.stats.unions ++
                " merges, " ++ toString v.stats.classes ++ " classes (" ++
                  ending ++ ")\n"))
          errors := "" } ∧
      ∀ files' args', "--help" ∉ words args' → "-h" ∉ words args' →
        Give files' args' [l, r] → limits args' = limits args →
        run files' ("prove" :: words args') = run files ("prove" :: words args) := by
  have hlloadable := loadable_of_give h (by simp) hl
  have hrloadable := loadable_of_give h (by simp) hr
  obtain ⟨v, g, hv⟩ := exists_verdict hlloadable hrloadable (limits args)
  have hrun := run_words hhelp hh h hv
  refine ⟨v, g, v.stats.ending.text, hv,
    mem_endings _, by rw [hrun, unlines_verdictLines], ?_⟩
  intro files' args' hhelp' hh' h' hlimits
  rw [hrun]
  exact run_words hhelp' hh' h' (by rw [hlimits, hv])

/-- A decidable property of a result is checked by evaluating the computation that
leads to it. -/
theorem of_map_decide {ε α β : Type} {x : Except ε (α × β)} {a : α} {b : β}
    (P : α → Prop) [DecidablePred P] (hx : x = .ok (a, b))
    (h : x.toOption.map (fun result => decide (P result.1)) = some true) : P a := by
  rw [hx] at h
  exact of_decide_eq_true (Option.some.inj h)

/-- The sum of two four-bit symbols. -/
def sumOf (a b : String) : Pattern :=
  .binary .add (.literal 8) (.literal 4) (.sign .unsigned) (.symbol a) (.literal 4)
    (.sign .unsigned) (.symbol b)

/-- One file with a term, and no others. -/
def oneFile : Files := fun path =>
  if path = "terms" then .ok "(+ 8 4 unsign B 4 unsign A)" else .error .missing

/-- Blanks, a sign, zeros and other words do not matter. -/
theorem givesLimit_rounds : GivesLimit " +07 rounds" 7 where
  positive := by decide
  spelled := by
    refine ⟨[' '], ['+'], ['0', '7'], " rounds".toList, rfl, ?_⟩
    simp [numeralValue, Nat.ofDigits_cons, IsDigit, isBlank, blankRanges]

/-- Arguments of which the last two files and limits are not the first, with one term
in a text and one in a file. -/
def scattered : List Argument :=
  [.limit (toString 3) 3 (givesLimit_toString (by decide)),
    .file "others",
    .terms "(+ 8 4 unsign A 4 unsign B)" [sumOf "A" "B"] (by decide +kernel),
    .verbose,
    .file "terms",
    .limit " +07 rounds" 7 givesLimit_rounds,
    .saturate]

/-- Arguments with both terms in one text. -/
def gathered : List Argument :=
  [.terms "(+ 8 4 unsign A 4 unsign B) (+ 8 4 unsign B 4 unsign A)"
    [sumOf "A" "B", sumOf "B" "A"]
      (by decide +kernel),
    .verbose,
    .limit (toString 7) 7 (givesLimit_toString (by decide))]

/-- Arguments with a sum and a symbol, which are not equal, and a limit that ends the
run early. -/
def different : List Argument :=
  [.limit (toString 1) 1 (givesLimit_toString (by decide)),
    .terms "(+ 8 4 unsign A 4 unsign B) C" [sumOf "A" "B", .symbol "C"]
      (by decide +kernel)]

/-- A term in a text and one in a file are compared as two terms in one text are, and
what is printed, the log included, is the same. Terms that are not proved equal end
with the other verdict. -/
theorem run_prove_scattered :
    Give oneFile scattered [sumOf "A" "B", sumOf "B" "A"] ∧
      Give oneFile gathered [sumOf "A" "B", sumOf "B" "A"] ∧
      run oneFile ["prove", "--max-iterations", "3", "--file", "others",
          "(+ 8 4 unsign A 4 unsign B)", "--verbose", "--file", "terms",
          "--max-iterations", " +07 rounds", "--saturate"] =
        ⟨0, "[saturate] Iter 1: 2 matches, 1 merges, 6 classes\n" ++
            "[saturate] Iter 2: 2 matches, 0 merges, 6 classes\n" ++
            "[saturate] Saturated after 2 iterations\n" ++
            "equivalent\n" ++
            "2 iterations, 1 merges, 6 classes (saturated)\n", ""⟩ ∧
      run oneFile ["prove",
        "(+ 8 4 unsign A 4 unsign B) (+ 8 4 unsign B 4 unsign A)",
          "--verbose", "--max-iterations", "7"] =
        run oneFile ["prove", "--max-iterations", "3", "--file", "others",
          "(+ 8 4 unsign A 4 unsign B)", "--verbose", "--file", "terms",
          "--max-iterations", " +07 rounds", "--saturate"] ∧
      run oneFile ["prove", "--max-iterations", "1",
        "(+ 8 4 unsign A 4 unsign B) C"] =
        ⟨2, "not proven\n1 iterations, 1 merges, 7 classes (iteration-limit)\n",
          ""⟩ := by
  have hscattered : Give oneFile scattered [sumOf "A" "B", sumOf "B" "A"] :=
    ⟨"(+ 8 4 unsign B 4 unsign A)", [sumOf "B" "A"], rfl, by decide +kernel, rfl⟩
  have hgathered : Give oneFile gathered [sumOf "A" "B", sumOf "B" "A"] := rfl
  have hdifferent : Give oneFile different [sumOf "A" "B", .symbol "C"] := rfl
  obtain ⟨v, g, ending, hv, hending, hrun, hsame⟩ :=
    run_prove (by decide) (by decide) hscattered (by decide) (by decide)
  obtain ⟨v', g', ending', hv', hending', hrun', -⟩ :=
    run_prove (by decide) (by decide) hdifferent (by decide) (by decide)
  obtain ⟨hequivalent, hrounds, hunions, hclasses, hend, hlog⟩ := of_map_decide
    (fun v : Verdict => v.equivalent = true ∧ v.stats.rounds = 2 ∧
      v.stats.unions = 1 ∧ v.stats.classes = 6 ∧ v.stats.ending = .saturated ∧
      unlines v.stats.log =
        "[saturate] Iter 1: 2 matches, 1 merges, 6 classes\n" ++
        "[saturate] Iter 2: 2 matches, 0 merges, 6 classes\n" ++
        "[saturate] Saturated after 2 iterations\n")
    hv (by decide +kernel)
  obtain ⟨hequivalent', hrounds', hunions', hclasses', hend', hlog'⟩ := of_map_decide
    (fun v : Verdict => v.equivalent = false ∧ v.stats.rounds = 1 ∧
      v.stats.unions = 1 ∧ v.stats.classes = 7 ∧ v.stats.ending = .roundLimit ∧
      v.stats.log = [])
    hv' (by decide +kernel)
  obtain rfl : ending = "saturated" := by simpa [hend] using hending
  obtain rfl : ending' = "iteration-limit" := by simpa [hend'] using hending'
  refine ⟨hscattered, hgathered, hrun.trans ?_,
    hsame oneFile gathered (by decide) (by decide) hgathered rfl, hrun'.trans ?_⟩
  · rw [hequivalent, hrounds, hunions, hclasses, hlog]
    rfl
  · rw [hequivalent', hrounds', hunions', hclasses', hlog']
    rfl

end CommandLine

end Datapath
