import Datapath.Pattern.Widths
import Datapath.Proofs.Loading
import Datapath.Proofs.Numbers
import Datapath.Proofs.OutputWidths
import Datapath.Proofs.Writing

/-!
# Datapath.Proofs.DeclaredWidths

Width discipline of graphs under the catalog.

Where an operand of an operation is itself an operation, its declared width is the
output width. This is said in terms of the last graph of a run (`Fits`), since the
operand may come to be in a class with an operation only because of a union later on.
Because the class of an operand is uniform in the last graph, one node of it that was
there from the start decides whether there are operations and which width they have.
In a term or the right side of an equation the operand is an operation with the
declared width as its output width, or no operation, or the two occur together on the
left side (`Threaded`).

The main result is `widths_agree`.
-/

namespace Datapath

namespace EGraph

variable {g g' G : EGraph} {x y id : ClassId} {key k node : Node ClassId}
  {e e' : Entry} {s : Subst} {p q : Pattern}

/-! ## Declared widths -/

/-- In the last graph, operations in the class of the expression have the declared
width. -/
def Fits (G : EGraph) (operand : ClassId × ClassId) : Prop :=
  ∀ ⦃n v⦄, G.Represents n operand.2 → n.outputWidth? = some v →
    G.root operand.1 = G.root v

theorem Fits.congr {a b : ClassId × ClassId} (h : G.Fits a)
    (hwidth : G.root b.1 = G.root a.1)
    (hexpr : G.root b.2 = G.root a.2) : G.Fits b := fun _ _ hrep hv =>
  hwidth.trans (h (hrep.congr rfl hexpr) hv)

/-- The operands of all stored nodes fit in the last graph. -/
def Declared (G g : EGraph) : Prop :=
  ∀ ⦃key e⦄, g.table.get? key = some e → ∀ a ∈ key.operands, G.Fits a

/-- The operands of a canonical form fit if those of the node do. -/
theorem fits_canonical (hw : g.WellFormed) (hext : Extends g G)
    (h : ∀ a ∈ node.operands, G.Fits a) :
    ∀ a ∈ (g.canonical node).key.operands, G.Fits a := by
  intro a ha
  rw [Node.operands_key, canonical, Node.operands_map] at ha
  obtain ⟨b, hb, rfl⟩ := List.mem_map.1 ha
  exact (h b hb).congr (hext.root_eq (hw.root_root _))
    (hext.root_eq (hw.root_root _))

/-- A step stores no node but literals, which have no operands, and canonical forms
of nodes that were there. -/
theorem Declared.step (hw : g.WellFormed) (hext : Extends g G) (h : Declared G g)
    (s : Step g g') : Declared G g' := by
  intro key e' he'
  rcases s.stored_cases hw he' with ⟨e, he⟩ | ⟨k, e, he, rfl⟩ | ⟨v, rfl⟩
  · exact h he
  · exact fits_canonical hw hext (h he)
  · exact fun a ha => absurd ha List.not_mem_nil

/-- The same for any number of steps, all of which lead to the last graph. -/
theorem Declared.steps (hw : g.WellFormed) (hext : Extends g' G) (h : Declared G g)
    (s : Steps g g') : Declared G g' := by
  induction s with
  | refl => exact h
  | tail s₁ s₂ ih =>
      have hw₁ := Steps.wellFormed hw s₁
      have hext₁ := (s₂.extends hw₁).trans hext
      exact (ih hext₁).step hw₁ hext₁ s₂

/-- An added node whose operands fit may be stored in canonical form. -/
theorem Declared.add (hw : g.WellFormed) (hext : Extends g' G) (h : Declared G g)
    {m : Node Int} (hm : ∀ a ∈ (m.map Int.toNat).operands, G.Fits a)
    (ha : EGraph.add m g = .ok id g') : Declared G g' := by
  have hextg := ((add_call hw ha).extends hw).trans hext
  obtain ⟨hc, hi⟩ := add_inv ha
  have hlt := fun c hmem => (canonical_children hw (children_toNat_lt hc) c hmem).1
  rcases intern_steps hw hlt hi with ⟨-, -, -, rfl⟩ | ⟨hnew, steps, -⟩
  · exact h
  · refine Declared.steps (hw.issue hnew hlt) hext (fun key e he => ?_) steps
    rcases get?_issue_inv he with ⟨rfl, -⟩ | he
    · exact fits_canonical hw hextg hm
    · exact h he

end EGraph

/-! ## Widths in patterns -/

namespace Pattern

variable {p q : Pattern} {known : List (Pattern × Pattern)} {a : Pattern × Pattern}

/-- The operands of an operation: the declared width and the expression of each. -/
def operands : Pattern → List (Pattern × Pattern)
  | binary _ _ wa _ a wb _ b => [(wa, a), (wb, b)]
  | _ => []

theorem operands_ofNode (n : Node Pattern) : (ofNode n).operands = n.operands := by
  cases n <;> rfl

/-- An operand that is an operation has the declared width, and one that is a
variable occurs with this width among known operands. -/
def Threads (known : List (Pattern × Pattern)) : Pattern × Pattern → Prop
  | (declared, var name) => (declared, var name) ∈ known
  | (declared, binary _ width ..) => declared = width
  | _ => True

instance (known : List (Pattern × Pattern)) : DecidablePred (Threads known)
  | (declared, var name) =>
    inferInstanceAs (Decidable ((declared, var name) ∈ known))
  | (declared, binary _ width ..) => inferInstanceAs (Decidable (declared = width))
  | (_, literal _) | (_, sign _) | (_, symbol _) | (_, derived ..) => .isTrue trivial

/-- All operands in a pattern thread widths. -/
def Threaded (known : List (Pattern × Pattern)) (p : Pattern) : Prop :=
  ∀ q ∈ p.parts, ∀ a ∈ q.operands, Threads known a

instance (known : List (Pattern × Pattern)) (p : Pattern) :
    Decidable (p.Threaded known) :=
  inferInstanceAs (Decidable (∀ q ∈ p.parts, ∀ a ∈ q.operands, Threads known a))

/-- A layer has the declared width if it is written with it, provided it has one. -/
theorem threads_ofNode {declared : Pattern} {n : Node Pattern} :
    Threads known (declared, ofNode n) ↔ ∀ w ∈ n.outputWidth?, declared = w := by
  cases n with
  | literal | sign | symbol | derived =>
      exact iff_of_true trivial fun _ hw => by cases hw
  | binary => simp [ofNode, Threads, Node.outputWidth?]

theorem findSome?_cons_or {α β : Type} (f : α → Option β) (a : α) (l : List α) :
    (a :: l).findSome? f = (f a).or (l.findSome? f) := by
  rw [List.findSome?_cons]
  cases f a <;> rfl

/-- The check of a node looks at its operands from left to right. -/
theorem ownMismatch?_eq (p : Pattern) :
    p.ownMismatch? = p.operands.findSome? fun a => operandMismatch? p a.1 a.2 := by
  cases p with
  | var | literal | sign | symbol | derived => rfl
  | binary => simp [ownMismatch?, operands, findSome?_cons_or]

/-- The check looks at a node and then, from left to right, into its slots. -/
theorem widthMismatch?_eq (p : Pattern) :
    p.widthMismatch? = p.ownMismatch?.or (p.slots.findSome? widthMismatch?) := by
  cases p with
  | var | literal | sign | symbol => rfl
  | derived | binary => simp [widthMismatch?, ownMismatch?, slots, findSome?_cons_or]

theorem widthMismatch?_ofNode (n : Node Pattern) : (ofNode n).widthMismatch? = none ↔
    (ofNode n).ownMismatch? = none ∧ ∀ c ∈ n.children, c.widthMismatch? = none := by
  rw [widthMismatch?_eq, Option.or_eq_none_iff,
    List.findSome?_eq_none_iff, slots_ofNode]

/-- The check accepts what has no mismatch. -/
theorem checkWidths_eq_ok : p.checkWidths = .ok () ↔ p.widthMismatch? = none := by
  unfold checkWidths
  cases p.widthMismatch? with
  | none => exact iff_of_true rfl rfl
  | some m => exact iff_of_false (by rintro ⟨⟩) (by rintro ⟨⟩)

/-- The operands of a consistent pattern that are operations are consistent with
their parents. -/
theorem ownMismatch?_of_part (h : p.widthMismatch? = none) (hq : q ∈ p.parts) :
    q.ownMismatch? = none := by
  induction p using layers with
  | var name =>
      obtain rfl := List.mem_singleton.1 hq
      rfl
  | node n ih =>
      obtain ⟨hown, hchildren⟩ := (widthMismatch?_ofNode n).1 h
      rcases mem_parts_ofNode.1 hq with rfl | ⟨c, hc, hq⟩
      · exact hown
      · exact ih c hc (hchildren c hc) hq

/-- An operand without a mismatch is written with its declared width if it is an
operation. -/
theorem sameText_of_operandMismatch? {parent declared w : Pattern} {n : Node Pattern}
    (h : operandMismatch? parent declared (ofNode n) = none)
    (hw : w ∈ n.outputWidth?) : declared.sameText w = true := by
  cases n <;> cases hw
  simpa [ofNode, operandMismatch?] using h

/-- So is an operand of a node that was checked. -/
theorem sameText_of_ownMismatch? (h : p.ownMismatch? = none) (ha : a ∈ p.operands)
    {n : Node Pattern} (hn : a.2 = ofNode n) {w : Pattern}
    (hw : w ∈ n.outputWidth?) : a.1.sameText w = true := by
  rw [ownMismatch?_eq, List.findSome?_eq_none_iff] at h
  have hnone := h a ha
  rw [hn] at hnone
  exact sameText_of_operandMismatch? hnone hw

/-- Declared widths and operands are parts. -/
theorem mem_parts_of_mem_operands (ha : a ∈ p.operands) :
    a.1 ∈ p.parts ∧ a.2 ∈ p.parts := by
  have hslots : a.1 ∈ p.slots ∧ a.2 ∈ p.slots := by
    cases p with
    | var | literal | sign | symbol | derived => exact absurd ha List.not_mem_nil
    | binary =>
        simp only [operands, List.mem_cons, List.not_mem_nil, or_false] at ha
        rcases ha with rfl | rfl <;> simp [slots]
  exact ⟨mem_parts_of_mem_slots hslots.1, mem_parts_of_mem_slots hslots.2⟩

theorem mem_parts_of_mem_outputWidth? {n : Node Pattern} {w : Pattern}
    (hw : w ∈ n.outputWidth?) : w ∈ (ofNode n).parts := by
  refine mem_parts_child ?_
  cases n <;> cases hw
  exact List.mem_cons_self

/-- A consistent term that can be told from its text threads widths. The check
compares texts, and parts that have the same text are the same here. -/
theorem threaded_of_legible (h : p.Legible) (hvars : p.vars = [])
    (hw : p.checkWidths = .ok ()) : p.Threaded [] := by
  rintro q hq ⟨declared, expr⟩ ha
  obtain ⟨hdeclared, hexpr⟩ := mem_parts_of_mem_operands ha
  cases expr using layers with
  | var name =>
      have hname : name ∈ p.vars := by
        rw [mem_vars, mem_occurrences]
        exact mem_parts_trans hq hexpr
      rw [hvars] at hname
      exact absurd hname List.not_mem_nil
  | node n _ =>
      refine threads_ofNode.2 fun w hw' => ?_
      have hown := ownMismatch?_of_part (checkWidths_eq_ok.1 hw) hq
      exact eq_of_sameText ((h.part hq).part hdeclared)
        (((h.part hq).part hexpr).part (mem_parts_of_mem_outputWidth? hw'))
        (sameText_of_ownMismatch? hown ha rfl hw')

end Pattern

/-- The operations in the right side thread the widths that the left side
declares. -/
def Equation.ThreadsWidths (eqn : Equation) : Prop :=
  eqn.rhs.Threaded (eqn.lhs.parts.flatMap Pattern.operands)

namespace EGraph

variable {g g' G : EGraph} {x y id : ClassId} {m n : Node ClassId} {s : Subst}
  {p q : Pattern} {ref : Int} {known : List (Pattern × Pattern)}
  {a : Pattern × Pattern} {app : Application}
  {equations : List Equation}

/-! ## Declared widths of added patterns -/

/-- In a uniform graph, nodes of one class agree about the class of their output
width, and on whether they have one. -/
theorem Uniform.outputWidth?_eq (h : g.Uniform) (hm : g.Represents m x)
    (hn : g.Represents n x) :
    n.outputWidth?.map g.root = m.outputWidth?.map g.root := by
  obtain ⟨key, e, he, hkey, ho⟩ := hn
  rw [← Node.outputWidth?_eq_of_map_eq hkey]
  exact h.hasWidth_of_represents hm he ho

/-- The instances of known operands fit in the last graph. -/
def Knows (G : EGraph) (s : Subst) (known : List (Pattern × Pattern)) : Prop :=
  ∀ a ∈ known, ∃ x y, G.Realizes s a.1 x ∧ G.Realizes s a.2 y ∧ G.Fits (x, y)

/-- The instance of an operand that threads widths fits. Where the operand is a
variable, its instance and that of its declared width are in the same classes as for
the known operand. Where it is a layer, this layer is a node of the class, and in a
uniform graph one node tells the output width of all. -/
theorem fits_of_threads (hsettled : G.Settled) (huniform : G.Uniform)
    (hknown : G.Knows s known)
    (ha : Pattern.Threads known a) (hx : G.Realizes s a.1 x)
    (hy : G.Realizes s a.2 y) : G.Fits (x, y) := by
  obtain ⟨declared, q⟩ := a
  cases q using Pattern.layers with
  | var name =>
      obtain ⟨x', y', hx', hy', hfits⟩ := hknown _ ha
      exact hfits.congr (hsettled.root_eq_of_realizes hx hx')
        (hsettled.root_eq_of_realizes hy hy')
  | node l _ =>
      obtain ⟨m, hrel, hm⟩ := Pattern.occurs_ofNode.1 hy
      intro n v hn hv
      -- the layer itself is a node of the class, and tells its output width
      have hwidth := huniform.outputWidth?_eq hm hn
      rw [hv, Option.map_some] at hwidth
      obtain ⟨v', hv', hroot⟩ := Option.map_eq_some_iff.1 hwidth.symm
      obtain ⟨w, hw, hreal⟩ := hrel.outputWidth? hv'
      obtain rfl := Pattern.threads_ofNode.1 ha w hw
      exact (hsettled.root_eq_of_realizes hx hreal).trans hroot

/-- Adding a pattern whose operands thread the widths of known ones leaves only
operands that fit. All is said of the last graph, which the graphs on the way extend
to. -/
theorem Declared.instantiate (hsettled : G.Settled) (huniform : G.Uniform)
    (hknown : G.Knows s known)
    (hp : p.Threaded known) (hw : g.WellFormed) (h : Extends g G → Declared G g)
    (hs : g.BoundIn s) (hi : EGraph.instantiate s p g = .ok ref g') :
    Extends g' G → Declared G g' := by
  refine (instantiate_induction
    (P := fun t => Extends t G → Declared G t) ?_ hw hs h hi).1
  intro l hl t m t' id hwt ht hrel hadd hext
  have hextt := ((add_call hwt hadd).extends hwt).trans hext
  refine (ht hextt).add hwt hext (fun b hb => ?_) hadd
  rw [Node.operands_map] at hb
  obtain ⟨c, hc, rfl⟩ := List.mem_map.1 hb
  obtain ⟨a, ha, ⟨-, hx⟩, ⟨-, hy⟩⟩ := hrel.operands hc
  exact fits_of_threads hsettled huniform hknown
    (hp _ hl a (by rwa [Pattern.operands_ofNode]))
    (hx.of_extends hextt) (hy.of_extends hextt)

/-- Represented nodes have operands that fit. -/
theorem Declared.of_represents (h : Declared G g) (hext : Extends g G)
    (hn : g.Represents n x) : ∀ a ∈ n.operands, G.Fits a := by
  obtain ⟨key, e, he, hkey, -⟩ := hn
  intro a ha
  have hmem : Prod.map g.root g.root a ∈ n.operands.map (Prod.map g.root g.root) :=
    List.mem_map_of_mem ha
  rw [← Node.operands_eq_of_map_eq hkey] at hmem
  obtain ⟨b, hb, heq⟩ := List.mem_map.1 hmem
  exact (h he b hb).congr (hext.root_eq (Prod.ext_iff.1 heq).1).symm
    (hext.root_eq (Prod.ext_iff.1 heq).2).symm

/-- The operands in an instance are known. -/
theorem Declared.knows (h : Declared G g) (hext : Extends g G)
    (hp : g.Realizes s p x) : G.Knows s (p.parts.flatMap Pattern.operands) := by
  intro a ha
  obtain ⟨q, hq, ha⟩ := List.mem_flatMap.1 ha
  obtain ⟨y, hy⟩ := hp.part hq
  cases q using Pattern.layers with
  | var name => exact absurd ha List.not_mem_nil
  | node l _ =>
      rw [Pattern.operands_ofNode] at ha
      obtain ⟨m, hrel, hm⟩ := Pattern.occurs_ofNode.1 hy
      obtain ⟨b, hb, hfst, hsnd⟩ := hrel.flip.operands ha
      exact ⟨b.1, b.2, Realizes.of_extends hfst hext, Realizes.of_extends hsnd hext,
        h.of_represents hext hm b hb⟩

/-- So does applying an equation, since a union stores nothing. -/
theorem Declared.applyAt (hsettled : G.Settled) (huniform : G.Uniform)
    (hknown : G.Knows app.subst known) (hrhs : app.equation.rhs.Threaded known)
    (hw : g.WellFormed) (h : Extends g G → Declared G g)
    (hs : g.BoundIn app.subst) {b : Bool}
    (ha : EGraph.applyAt app g = .ok b g') : Extends g' G → Declared G g' := by
  obtain ⟨ref, g₁, hi, hid, ⟨-, hlt⟩, hrest⟩ := applyAt_inv ha
  have h₁ := Declared.instantiate hsettled huniform hknown hrhs hw h hs hi
  rcases hrest with ⟨-, rfl⟩ | ⟨r, hu⟩
  · exact h₁
  · have hw₁ := Calls.wellFormed hw (instantiate_calls hw hi)
    intro hext key e he
    rw [(unite_joins hw₁ (hw₁.root_lt hid) (hw₁.root_lt hlt) hu).1] at he
    exact h₁
      ((hw₁.extends_unite (hw₁.root_lt hid) (hw₁.root_lt hlt) hu).trans hext) he

/-- For equations that thread widths, the operands that the match knows are those of
the left side. -/
theorem declared_kept (hsettled : G.Settled) (huniform : G.Uniform)
    (hE : ∀ eqn ∈ equations, eqn.ThreadsWidths) :
    Kept (fun t => Extends t G → Declared G t) equations where
  steps hw h hsteps hext :=
  (h ((Steps.extends hw hsteps).trans hext)).steps hw hext hsteps
  apply hg h happs hmem hw hext ht hrun hextG := by
    have hextt := (Calls.extends hw (applyAt_calls hw hrun)).trans hextG
    obtain ⟨heqn, ho⟩ := offered_of_mem_applications hg.wellFormed happs hmem
    have hknown := (h (hext.trans hextt)).knows (hext.trans hextt) ho.realizes
    exact Declared.applyAt hsettled huniform hknown (hE _ heqn) hw ht
      (ho.boundIn.of_extends hext) hrun hextG

/-! ## Runs -/

/-- Every rule of the catalog has the same output width on both sides. -/
theorem keepsWidth_of_mem_catalog {rule : Rule} (h : rule ∈ catalog) :
    rule.toEquation.KeepsWidth := by
  simp only [catalog, List.mem_cons, List.not_mem_nil, or_false] at h
  rcases h with rfl | rfl | rfl | rfl | rfl | rfl <;>
    exact ⟨_, .binary _ _ _ _ _ _ _ _, .binary _ _ _ _ _ _ _ _, rfl, rfl, rfl, rfl⟩

/-- In every rule of the catalog the operations on the right side thread the widths
that the left side declares. -/
theorem threadsWidths_of_mem_catalog {rule : Rule} (h : rule ∈ catalog) :
    rule.toEquation.ThreadsWidths := by
  have hdecide : ∀ rule ∈ catalog,
      rule.rhs.Threaded (rule.lhs.parts.flatMap Pattern.operands) := by
    decide
  exact hdecide rule h

/-- Graphs into which terms were loaded and which rules of the catalog then
rewrote. -/
inductive Rewritten (terms : List Pattern) : EGraph → Prop
  | loaded {g : EGraph} (start : Loaded terms g) : Rewritten terms g
  | once {g g' : EGraph} {rule : Rule} {n : ℕ} (start : Rewritten terms g)
      (known : rule ∈ catalog)
      (run : applyOnce rule.toEquation g = .ok n g') : Rewritten terms g'
  | saturated {g g' : EGraph} {rules : List Rule} {o : Options} {stats : Stats}
      (start : Rewritten terms g) (known : ∀ rule ∈ rules, rule ∈ catalog)
      (run : saturate (rules.map Rule.toEquation) o g = .ok stats g') :
      Rewritten terms g'

variable {terms : List Pattern}

theorem Loaded.uniform (h : Loaded terms g) : g.Uniform := by
  induction h with
  | empty => exact uniform_empty
  | load start parse run ih =>
      exact ih.instantiate (Calls.wellFormed wellFormed_empty start.calls)
        (boundIn_nil _) (addGround_inv (addGround_of_load parse run)).2

/-- Consistent terms are loaded with operands that fit. No operand of a ground term
is a variable, so there is nothing that would have to be known. -/
theorem Loaded.declared
    (hok : ∀ p ∈ terms, p.checkWidths = .ok () ∧ p.FiniteLiterals)
    (hsettled : G.Settled) (huniform : G.Uniform) (h : Loaded terms g) :
    Extends g G → Declared G g := by
  induction h with
  | empty => exact fun _ key e he => by simp [EGraph.empty] at he
  | load start parse run ih =>
      obtain ⟨hvars, hi⟩ := addGround_inv (addGround_of_load parse run)
      obtain ⟨hwidths, hfinite⟩ := hok _ List.mem_cons_self
      have hthreaded :=
        Pattern.threaded_of_legible
          (Pattern.legible_of_parse parse hfinite) hvars hwidths
      exact Declared.instantiate hsettled huniform
        (fun a ha => absurd ha List.not_mem_nil) hthreaded
        (Calls.wellFormed wellFormed_empty start.calls)
        (ih fun q hq => hok q (List.mem_cons_of_mem _ hq)) (boundIn_nil _) hi

namespace Rewritten

/-- Rewritten graphs come of calls. -/
theorem calls (h : Rewritten terms g) : Calls .empty g := by
  induction h with
  | loaded start => exact start.calls
  | once _ _ run ih =>
      exact ih.trans (applyOnce_calls (Calls.wellFormed wellFormed_empty ih) run)
  | saturated _ _ run ih =>
      exact ih.trans (saturate_calls (Calls.wellFormed wellFormed_empty ih) run)

/-- What loading establishes and the catalog keeps holds of rewritten graphs, each of
which was just loaded or has been rebuilt. -/
theorem induction {P : EGraph → Prop} (hloaded : ∀ {g}, Loaded terms g → P g)
    (hkept : ∀ {rules : List Rule}, (∀ rule ∈ rules, rule ∈ catalog) →
      Kept P (rules.map Rule.toEquation)) (h : Rewritten terms g) :
      P g ∧ (Loaded terms g ∨ g.Rebuilt) := by
  induction h with
  | loaded start => exact ⟨hloaded start, Or.inl start⟩
  | @once _ _ rule _ start known run ih =>
      have hrule : ∀ r ∈ [rule], r ∈ catalog := fun r hr => by
        rwa [List.mem_singleton.1 hr]
      obtain ⟨h, hrebuilt⟩ := (hkept hrule).applyOnce start.calls ih.1 run
      exact ⟨h, Or.inr hrebuilt⟩
  | saturated start known run ih =>
      obtain ⟨h, hrebuilt⟩ := (hkept known).saturate start.calls ih.1 run
      exact ⟨h, Or.inr hrebuilt⟩

/-- Loading makes uniform graphs and the catalog keeps them so. -/
theorem uniform (h : Rewritten terms g) : g.Uniform := by
  refine (h.induction Loaded.uniform fun hrules => uniform_kept fun eqn heqn => ?_).1
  obtain ⟨rule, hrule, rfl⟩ := List.mem_map.1 heqn
  exact keepsWidth_of_mem_catalog (hrules rule hrule)

/-- Loaded graphs are settled without a repair, and others have been repaired. -/
theorem settled (h : Rewritten terms g) : g.Settled := by
  obtain ⟨-, hloaded | hrebuilt⟩ :=
    h.induction (P := fun _ => True) (fun _ => trivial)
    fun _ => ⟨fun _ _ _ => trivial, fun _ _ _ _ _ _ _ _ => trivial⟩
  · exact hloaded.settled
  · exact hrebuilt.repaired.settled

/-- The last graph is the rewritten graph itself, which is uniform and settled. -/
theorem declared (hok : ∀ p ∈ terms, p.checkWidths = .ok () ∧ p.FiniteLiterals)
    (h : Rewritten terms g) : Declared g g := by
  refine (h.induction (P := fun t => Extends t g → Declared g t)
    (Loaded.declared hok h.settled h.uniform) fun hrules => ?_).1 (.refl g)
  refine declared_kept h.settled h.uniform fun eqn heqn => ?_
  obtain ⟨rule, hrule, rfl⟩ := List.mem_map.1 heqn
  exact threadsWidths_of_mem_catalog (hrules rule hrule)

end Rewritten

/-! ## Agreement of widths -/

/-- The operations of one class have one output width. -/
def WidthsAgree (g : EGraph) : Prop :=
  ∀ id, ∀ m ∈ g.nodes id, ∀ n ∈ g.nodes id, ∀ v ∈ m.outputWidth?,
    ∀ w ∈ n.outputWidth?, g.root v = g.root w

/-- Where the class of an operand has an operation, the width declared for the
operand is the output width of the operation. -/
def OperandsAgree (g : EGraph) : Prop :=
  ∀ id, ∀ m ∈ g.nodes id, ∀ a ∈ m.operands, ∀ n ∈ g.nodes a.2, ∀ w ∈ n.outputWidth?,
    g.root a.1 = g.root w

/-- In every graph made by loading terms and rewriting with rules of the catalog, the
operations of a class agree about their output width. If the loaded terms were
consistent and had finite literals, the widths that are declared for operands agree
with the output widths of operations in the classes of the operands. -/
theorem widths_agree (h : Rewritten terms g) : g.WidthsAgree ∧
    ((∀ p ∈ terms, p.checkWidths = .ok () ∧ p.FiniteLiterals) →
      g.OperandsAgree) := by
  have hw := Calls.wellFormed wellFormed_empty h.calls
  constructor
  · intro id m hm n hn v hv w hw'
    have heq := h.uniform.outputWidth?_eq (represents_of_mem_nodes hw hm).1
      (represents_of_mem_nodes hw hn).1
    rw [hv, hw', Option.map_some, Option.map_some] at heq
    exact (Option.some.inj heq).symm
  · intro hok id m hm a ha n hn w hw'
    have hfits :=
      (h.declared hok).of_represents (.refl g) (represents_of_mem_nodes hw hm).1 a ha
    exact hfits (represents_of_mem_nodes hw hn).1 hw'

/-- Once commutativity was applied to a sum with a product as operand, the class of
the sum has two operations, and all widths agree. -/
theorem widths_agree_commuteAdd : ∃ p n g,
    Pattern.parse "(+ 8 8 unsign (* 8 8 unsign A 2 unsign 2) 8 unsign A)" = .ok p ∧
    p.checkWidths = .ok () ∧ p.FiniteLiterals ∧ Rewritten [p] g ∧
    (g.nodes n).length = 2 ∧ g.WidthsAgree ∧ g.OperandsAgree := by
  have hparse :
      (Pattern.parse "(+ 8 8 unsign (* 8 8 unsign A 2 unsign 2) 8 unsign A)"
      ).toOption.map (fun p => decide (p.widthMismatch? = none ∧ p.FiniteLiterals)) =
        some true := by
    decide +kernel
  have hrun : (fromEmpty (ε := LoadError) do
      let ref ← EGraph.load "(+ 8 8 unsign (* 8 8 unsign A 2 unsign 2) 8 unsign A)"
      let _ ← EGraph.loading (EGraph.applyOnce Catalog.commuteAdd.toEquation)
      return ((← get).nodes ref.toNat).length).toOption.map (·.1) = some 2 := by
    decide +kernel
  obtain ⟨p, hp, hcheck⟩ := Option.map_eq_some_iff.1 hparse
  rw [decide_eq_true_iff] at hcheck
  have hok : ∀ q ∈ [p], q.checkWidths = .ok () ∧ q.FiniteLiterals := by
    intro q hq
    obtain rfl := List.mem_singleton.1 hq
    exact ⟨Pattern.checkWidths_eq_ok.2 hcheck.1, hcheck.2⟩
  obtain ⟨⟨n, g⟩, hok', hn⟩ := Option.map_eq_some_iff.1 hrun
  obtain ⟨ref, g₁, hload, hrest⟩ := bind_inv (fromEmpty_inv (toOption_inv hok'))
  obtain ⟨a, g₂, honce, hrest⟩ := bind_inv hrest
  obtain ⟨t, g₃, hget, hlast⟩ := bind_inv hrest
  cases hget
  obtain ⟨rfl, rfl⟩ := pure_inv hlast
  have hrewritten : Rewritten [p] g₂ :=
    .once (.loaded (.load .empty (toOption_inv hp) hload))
      (by simp [catalog]) (loading_inv honce)
  obtain ⟨hagree, hoperands⟩ := widths_agree hrewritten
  exact ⟨p, ref.toNat, g₂, toOption_inv hp, (hok p List.mem_cons_self).1,
    (hok p List.mem_cons_self).2, hrewritten, hn, hagree, hoperands hok⟩

end EGraph

end Datapath
