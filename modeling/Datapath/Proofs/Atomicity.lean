import Datapath.Proofs.Completeness
import Datapath.Proofs.Constants
import Datapath.Proofs.Grammar
import Datapath.Proofs.Sessions

/-!
# Datapath.Proofs.Atomicity

Unions and terms that are refused.

A union is refused if a reference is unknown or the constants of two classes are
different, and a text is refused if it is not one ground term. Both are found out
before anything is changed. For a union this is plain, because the check comes first.
Terms are added node by node, and every computed width among them is united with the
literal of its value, which could be refused when half of the term has been added. It
never is, as the class of a literal knows this value and no other one
(`Tame.constant?_literal`). That takes constants that are equal to themselves, which
those of literals that are not negative are, and it has to hold in every graph,
repaired or not: an operation that fails keeps it at whatever moment it fails
(`Ends`).
-/

namespace Datapath

open Binary64 (Regular Unsigned)

/-! ## States in which computations end -/

section

variable {ε σ α β γ : Type} {x : EStateM ε σ α} {s : σ} {I : σ → Prop}

/-- Whether the computation fails or not, it ends in a state with a property. -/
inductive Ends (I : σ → Prop) (x : EStateM ε σ α) (s : σ) : Prop
  | ok {a : α} {t : σ} (run : x s = .ok a t) (holds : I t)
  | error {e : ε} {t : σ} (run : x s = .error e t) (holds : I t)

namespace Ends

theorem pure (h : I s) (a : α) : Ends I (Pure.pure a : EStateM ε σ α) s := .ok rfl h

theorem throw (h : I s) (e : ε) : Ends I (MonadExcept.throw e : EStateM ε σ α) s :=
  .error rfl h

/-- If the first part ends in a state with the property, the second starts in one. -/
theorem bind {f : α → EStateM ε σ β} (hx : Ends I x s)
    (hf : ∀ a t, x s = .ok a t → I t → Ends I (f a) t) : Ends I (x >>= f) s := by
  cases hx with
  | ok run holds =>
      cases hf _ _ run holds with
      | ok run' holds' => exact .ok ((bind_ok run).trans run') holds'
      | error run' holds' => exact .error ((bind_ok run).trans run') holds'
  | error run holds => exact .error (bind_error run) holds

theorem map {f : α → β} (hx : Ends I x s) : Ends I (f <$> x) s := by
  rw [map_eq_pure_bind]
  exact hx.bind fun _ _ _ ht => .pure ht _

theorem get {f : σ → EStateM ε σ α} (h : Ends I (f s) s) : Ends I (get >>= f) s := by
  cases h with
  | ok run holds => exact .ok run holds
  | error run holds => exact .error run holds

/-- A loop ends with an invariant that every round ends with. -/
theorem mapM {f : γ → EStateM ε σ β} {l : List γ} (h : I s)
    (hf : ∀ c ∈ l, ∀ t, I t → Ends I (f c) t) :
    Ends I (l.mapM f) s := by
  induction l generalizing s with
  | nil =>
      rw [List.mapM_nil]
      exact .pure h []
  | cons c rest ih =>
      rw [List.mapM_cons]
      -- if the first round fails, the loop ends where it does, and otherwise goes on
      -- from there
      refine (hf c List.mem_cons_self s h).bind fun b t _ ht => ?_
      exact (ih ht fun d hd => hf d (List.mem_cons_of_mem _ hd)).bind fun _ _ _ hu =>
        .pure hu _

/-- The same for a loop with a value that is handed on. -/
theorem foldlM {f : β → γ → EStateM ε σ β} {l : List γ} {b : β} (h : I s)
    (hf : ∀ c ∈ l, ∀ b t, I t → Ends I (f b c) t) : Ends I (l.foldlM f b) s := by
  induction l generalizing s b with
  | nil =>
      rw [List.foldlM_nil]
      exact .pure h b
  | cons c rest ih =>
      rw [List.foldlM_cons]
      exact (hf c List.mem_cons_self b s h).bind fun _ _ _ ht =>
        ih ht fun d hd => hf d (List.mem_cons_of_mem _ hd)

/-- An answer, or an error in its place, leaves the state behind in which the request
ended. -/
theorem respond {perform : Request → EStateM LoadError σ Reply} {r : Request}
    (h : Ends I (perform r) s) : I (respond perform s r).2 := by
  unfold Datapath.respond
  cases h with
  | ok run holds =>
      rw [run]
      exact holds
  | error run holds =>
      rw [run]
      exact holds

/-- A session leaves a property behind that each of its requests ends with. -/
theorem stateAfter {perform : Request → EStateM LoadError σ Reply}
    {requests : List Request} (h : I s)
    (hr : ∀ r ∈ requests, ∀ t, I t → Ends I (perform r) t) :
    I (stateAfter perform s requests) := by
  induction requests generalizing s with
  | nil => exact h
  | cons r rest ih =>
      exact ih (hr r List.mem_cons_self s h).respond fun q hq =>
        hr q (List.mem_cons_of_mem _ hq)

end Ends

end

/-- Giving a layer other children does not make it a literal. -/
theorem Node.eq_literal_of_withChildren {α β : Type} {n : Node α} {b : β}
    {children : List β} {v : Binary64}
    (h : (n.map fun _ => b).withChildren children = .literal v) :
    n = .literal v := by
  cases n with
  | literal u =>
      cases h
      rfl
  | sign | symbol => cases h
  | derived | binary =>
      unfold withChildren at h
      split at h
      · cases h
      · cases h
      · cases h

namespace EGraph

variable {g g' : EGraph} {x y id : ClassId} {key node : Node ClassId} {e : Entry}
  {v : Binary64} {s : Subst}
  {p : Pattern} {app : Application} {apps : List Application} {eqn : Equation}
  {equations : List Equation} {o : Options} {a b : Int}

theorem ends_ask {I : EGraph → Prop} {α : Type} (h : I g)
    (answer : EGraph → Except GraphError α) :
    Ends I (ask answer) g := by
  cases ha : answer g with
  | ok b => exact .ok (by rw [ask, ha]) h
  | error e => exact .error (by rw [ask, ha]) h

theorem ends_loading {I : EGraph → Prop} {α : Type} {x : GraphM α} (h : Ends I x g) :
    Ends I (loading x) g := by
  cases h with
  | ok run holds => exact .ok (by rw [loading, run]) holds
  | error run holds => exact .error (by rw [loading, run]) holds

/-! ## Regular constants -/

/-- The constants of all classes are regular, that is, equal to themselves and not
minus zero. -/
structure Tame (g : EGraph) : Prop where
  wellFormed : g.WellFormed
  constants : Within Regular g

theorem tame_empty : empty.Tame :=
  ⟨wellFormed_empty, fun i hi => absurd hi (Nat.not_lt_zero i)⟩

namespace Tame

/-- A new class knows a regular constant: that of a regular literal, or a value of
regular ones. -/
theorem issue (h : g.Tame) (hnew : g.table.get? node.key = none)
    (hc : ∀ c ∈ node.children, c < g.issued)
    (hlit : ∀ v, node = .literal v → v.Regular) : (g.issue node).Tame :=
  ⟨h.wellFormed.issue hnew hc,
    h.constants.issue widthClosed_regular h.wellFormed hc hlit⟩

/-- A union hands a constant over, and makes no other one. -/
theorem unite (h : g.Tame) {z : ClassId} (hx : x < g.issued) (hy : y < g.issued)
    (hu : EGraph.unite x y g = .ok z g') : g'.Tame :=
  ⟨h.wellFormed.unite hx hy hu, h.constants.unite h.wellFormed hx hy hu⟩

/-- Repairs add no constants but values of those that are there. -/
theorem steps (h : g.Tame) (s : Steps g g') : g'.Tame :=
  ⟨s.wellFormed h.wellFormed,
    Steps.within widthClosed_regular h.wellFormed h.constants s⟩

/-- A repair that fails has at most taken out a node, and the constant of its class
stays. -/
theorem halted (h : g.Tame) (hg : Halted g g') : g'.Tame := by
  cases hg with
  | stepped steps => exact h.steps steps
  | @dropped t e e' steps stored congruent result =>
      have ht := h.steps steps
      subst result
      exact ⟨ht.wellFormed.dropKey stored, fun i hi c hc =>
        ht.constants i hi c
          (((dropKey_sameFrame t e.key _).constant? i).symm.trans hc)⟩

/-- A rebuild may fail half-way and lose a node, but the constants stay regular. -/
theorem ends_rebuild (h : g.Tame) : Ends Tame EGraph.rebuild g := by
  cases hr : EGraph.rebuild g with
  | ok u t => exact .ok hr (h.steps (rebuild_steps h.wellFormed hr))
  | error err t => exact .error hr (h.halted (rebuild_error h.wellFormed hr))

/-! ## Adding nodes -/

/-- The class of a literal knows its value. Constants are known up to the sign of
zero only, and regular ones have none. -/
theorem constant?_literal (h : g.Tame) (hv : v.Regular)
    (he : g.table.get? (Node.literal v).key = some e) :
    g.constant? e.owner = some v := by
  obtain ⟨c, hc, hcv⟩ := h.wellFormed.known he (v := v.withoutMinusZero) rfl
  have hreg : c.Regular := h.constants _ (h.wellFormed.owner_lt he) c hc
  rw [Binary64.withoutMinusZero_idem, hreg.withoutMinusZero,
    hv.withoutMinusZero] at hcv
  rw [hc, hcv]

/-- A class that knows a value can be united with that of the literal. -/
theorem succeeds_equate (h : g.Tame) (hv : v.Regular) (hy : y < g.issued)
    (hc : g.constant? y = some v) : Succeeds (equate v y) g := by
  -- two classes that know one value have no conflict, since it is equal to itself
  have hagree {t : EGraph} {x : ClassId} (hx : t.constant? x = some v)
      (hy : t.constant? y = some v) : t.Agree x y := by
    intro a b ha hb
    obtain rfl : v = a := Option.some.inj (hx.symm.trans ha)
    obtain rfl : v = b := Option.some.inj (hy.symm.trans hb)
    exact hv.numEq_self
  refine (succeeds_enter _ g).bind fun x t henter => succeeds_unite ?_
  -- the literal is there already or gets a new class, and either knows the value
  rcases enter_cases henter with ⟨lit, hlit, rfl, rfl⟩ | ⟨-, rfl, rfl⟩
  · refine hagree ?_ hc
    rw [h.wellFormed.constant?_root]
    exact h.constant?_literal hv hlit
  · refine hagree (h.wellFormed.constant?_issue_new _) ?_
    rw [h.wellFormed.constant?_issue _ hy]
    exact hc

/-- Adding a node is never refused: the class of a computed width knows its value as
soon as it is issued, and the literal's class knows no other. -/
theorem succeeds_intern (h : g.Tame) (hc : ∀ c ∈ node.children, c < g.issued) :
    Succeeds (intern node) g := by
  unfold intern Succeeds
  dsimp only
  split
  · next v hnew hv =>
    refine (succeeds_enter node g).bind fun x t henter => ?_
    rcases enter_cases henter with ⟨e, he, -⟩ | ⟨-, rfl, rfl⟩
    · rw [hnew] at he
      cases he
    · obtain ⟨fn, l, r, a, b, rfl, ha, hb, rfl⟩ := foldDerived?_inv hv
      have hreg : (fn.eval a b).Regular :=
        (h.constants l (hc l (by simp [Node.children])) a ha).eval
        (h.constants r (hc r (by simp [Node.children])) b hb) fn
      refine (h.issue hnew hc (by simp)).succeeds_equate hreg ?_ ?_
      · exact issued_lt_issue _ _
      · rw [h.wellFormed.constant?_issue_new]
        exact hv
  · exact succeeds_enter node g

theorem intern (h : g.Tame) (hc : ∀ c ∈ node.children, c < g.issued)
    (hlit : ∀ v, node = .literal v → v.Regular)
    (hi : EGraph.intern node g = .ok id g') : g'.Tame := by
  rcases intern_steps h.wellFormed hc hi with ⟨-, -, -, rfl⟩ | ⟨hnew, steps, -⟩
  · exact h
  · exact (h.issue hnew hc hlit).steps steps

/-- Adding a node under references may fail, if one of them is unknown, but not
later. -/
theorem ends_add (h : g.Tame) {m : Node Int}
    (hlit : ∀ v, m = .literal v → v.Regular) :
    Ends Tame (EGraph.add m) g := by
  refine (ends_ask h _).bind fun node t hask ht => ?_
  obtain ⟨hresolve, rfl⟩ := ask_inv hask
  obtain ⟨rfl, hm⟩ := resolve_inv hresolve
  have hc := fun c hmem =>
    (canonical_children ht.wellFormed (children_toNat_lt hm) c hmem).1
  obtain ⟨id, t, hrun⟩ := ht.succeeds_intern hc
  exact .ok hrun (ht.intern hc (fun v hv => hlit v (canonical_eq_literal hv)) hrun)

/-- With known references it does not fail at all. -/
theorem succeeds_add (h : g.Tame) {m : Node Int}
    (hc : ∀ c ∈ m.children, g.Issued c) : Succeeds (EGraph.add m) g := by
  have hask : ask (·.resolve m) g = .ok (g.canonical (m.map Int.toNat)) g := by
    rw [ask, resolve_of_issued hc]
  refine Succeeds.bind ⟨_, g, hask⟩ fun node t hrun => ?_
  obtain ⟨rfl, rfl⟩ := EStateM.Result.ok.inj (hask.symm.trans hrun)
  exact h.succeeds_intern fun c hmem =>
    (canonical_children h.wellFormed (children_toNat_lt hc) c hmem).1

/-! ## Adding patterns -/

/-- An instance is added node by node, and wherever this stops, the constants are
regular. -/
theorem ends_instantiate (h : g.Tame)
    (hlit : ∀ v, .literal v ∈ p.parts → v.Regular) :
    Ends Tame (EGraph.instantiate s p) g := by
  induction p using Pattern.layers generalizing g with
  | var name =>
      unfold EGraph.instantiate
      cases s.get? name with
      | some ref => exact .pure h ref
      | none => exact .throw h _
  | node n ih =>
      rw [instantiate_ofNode]
      refine (Ends.mapM h fun q hq t ht => ih q hq ht fun v hv =>
        hlit v (Pattern.mem_parts_trans (Pattern.mem_parts_child hq) hv)).bind
          fun refs t _ ht => ?_
      -- the layer is a literal only if the pattern is, whose literals are regular
      refine (ht.ends_add fun v hv => hlit v ?_).map
      obtain rfl := Node.eq_literal_of_withChildren hv
      exact Pattern.mem_parts_self _

theorem ends_addGround (h : g.Tame) (hlit : ∀ v, .literal v ∈ p.parts → v.Regular) :
    Ends Tame (EGraph.addGround p) g := by
  unfold EGraph.addGround
  split
  · exact h.ends_instantiate hlit
  · exact .throw h _

/-- A ground term with regular literals can always be added. Half a term is never
left behind. -/
theorem succeeds_addGround (h : g.Tame)
    (hlit : ∀ v, .literal v ∈ p.parts → v.Regular) (hp : p.vars = []) :
    Succeeds (EGraph.addGround p) g := by
  unfold EGraph.addGround
  rw [if_pos (List.isEmpty_iff.2 hp)]
  -- layer by layer: each can be added, and leaves a graph in which the next one can
  refine succeeds_instantiate (P := Tame) ?_ h.wellFormed (boundIn_nil g)
    (fun name hname => ?_) h
  · intro n hn t m _ ht hrel
    have hlit' (v : Binary64) (hv : m = .literal v) : v.Regular :=
      hlit v (eq_literal_of_rel hrel hv ▸ hn)
    refine ⟨ht.succeeds_add fun c hc => ?_, fun id t' ha => ?_⟩
    · obtain ⟨q, -, hr⟩ := hrel.exists_left hc
      exact hr.1
    · cases ht.ends_add hlit' with
      | ok run holds =>
          obtain ⟨-, rfl⟩ := EStateM.Result.ok.inj (run.symm.trans ha)
          exact holds
      | error run _ => cases run.symm.trans ha
  · rw [← Pattern.mem_vars, hp] at hname
    exact absurd hname List.not_mem_nil

/-! ## Runs of equations -/

theorem ends_unite (h : g.Tame) (hx : x < g.issued) (hy : y < g.issued) :
    Ends Tame (EGraph.unite x y) g := by
  cases hu : EGraph.unite x y g with
  | ok z t => exact .ok hu (h.unite hx hy hu)
  | error err t => exact .error hu (unite_error hu ▸ h)

/-- Both references are looked up before anything is changed. -/
theorem ends_merge (h : g.Tame) : Ends Tame (EGraph.merge a b) g := by
  refine (ends_ask h _).bind fun x t hx ht =>
    (ends_ask ht _).bind fun y u hy hu => ?_
  obtain ⟨hfx, rfl⟩ := ask_inv hx
  obtain ⟨hfy, rfl⟩ := ask_inv hy
  obtain ⟨-, ha, rfl⟩ := find_inv hfx
  obtain ⟨-, hb, rfl⟩ := find_inv hfy
  exact hu.ends_unite (hu.wellFormed.root_lt ha) (hu.wellFormed.root_lt hb)

/-- An application adds an instance and unites two classes, each of which may
fail. -/
theorem ends_applyAt (h : g.Tame)
    (hlit : ∀ v, .literal v ∈ app.equation.rhs.parts → v.Regular) :
    Ends Tame (EGraph.applyAt app) g := by
  refine (h.ends_instantiate hlit).bind fun right t _ ht => ?_
  refine (ends_ask ht _).bind fun l u hl hu => ?_
  obtain ⟨hleft, rfl⟩ := ask_inv hl
  refine (ends_ask hu _).bind fun r w hr hw => ?_
  obtain ⟨hright, rfl⟩ := ask_inv hr
  obtain ⟨-, hlt, rfl⟩ := find_inv hleft
  obtain ⟨-, hrt, rfl⟩ := find_inv hright
  split
  · exact .pure hw false
  · exact (hw.ends_unite (hw.wellFormed.root_lt hlt)
      (hw.wellFormed.root_lt hrt)).bind fun _ _ _ hz => .pure hz true

theorem ends_applyAll (h : g.Tame)
    (hlit : ∀ app ∈ apps, ∀ v, .literal v ∈ app.equation.rhs.parts → v.Regular) :
    Ends Tame (EGraph.applyAll apps) g := by
  have heach : Ends Tame (EGraph.applyEach apps) g :=
    .foldlM h fun app happ _ t ht =>
    (ht.ends_applyAt (hlit app happ)).bind fun _ _ _ hu => .pure hu _
  exact heach.bind fun _ _ _ ht => ht.ends_rebuild.bind fun _ _ _ hu => .pure hu _

/-- The equations of the applications that a graph offers are those that it was asked
about. -/
theorem ends_round (h : g.Tame)
    (hlit : ∀ eqn ∈ equations, ∀ v, .literal v ∈ eqn.rhs.parts → v.Regular)
    (happs : g.applications equations = .ok apps) :
    Ends Tame (EGraph.applyAll apps) g :=
  h.ends_applyAll fun _ happ =>
    hlit _ (offered_of_mem_applications h.wellFormed happs happ).1

theorem ends_applyOnce (h : g.Tame)
    (hlit : ∀ v, .literal v ∈ eqn.rhs.parts → v.Regular) :
    Ends Tame (EGraph.applyOnce eqn) g := by
  refine h.ends_rebuild.bind fun _ t _ ht =>
    (ends_ask ht _).bind fun apps u hask hu => ?_
  obtain ⟨happs, rfl⟩ := ask_inv hask
  exact hu.ends_round (by simpa using hlit) happs

/-- By induction on the rounds that are left. The constants are regular wherever a
round fails. -/
theorem ends_saturateRounds (h : g.Tame)
    (hlit : ∀ eqn ∈ equations, ∀ v, .literal v ∈ eqn.rhs.parts → v.Regular)
    (rounds : ℕ) (pr : Progress) :
    Ends Tame (EGraph.saturateRounds equations o rounds pr) g := by
  induction rounds generalizing g pr with
  | zero => exact .pure h pr
  | succ rounds ih =>
      unfold EGraph.saturateRounds
      refine .get ?_
      dsimp only
      split
      · exact .pure h _
      · refine (ends_ask h _).bind fun apps t hask ht => ?_
        obtain ⟨happs, rfl⟩ := ask_inv hask
        refine (ht.ends_round hlit happs).bind fun unions u _ hu => .get ?_
        split
        · exact .pure hu _
        · exact ih hu _

theorem ends_saturate (h : g.Tame)
    (hlit : ∀ eqn ∈ equations, ∀ v, .literal v ∈ eqn.rhs.parts → v.Regular) :
    Ends Tame (EGraph.saturate equations o) g :=
  h.ends_rebuild.bind fun _ _ _ ht =>
    (ht.ends_saturateRounds hlit _ _).bind fun _ _ _ hu => .get (.pure hu _)

end Tame

/-! ## Sessions with literals that are not negative -/

theorem ends_reading {I : EGraph → Prop} {α : Type} (h : I g)
    (x : Except SyntaxError α) : Ends I (reading x) g := by
  cases x with
  | ok a => exact .pure h a
  | error e => exact .throw h _

theorem reading_inv {α : Type} {x : Except SyntaxError α} {a : α}
    (h : reading x g = .ok a g') : x = .ok a := by
  cases x with
  | ok b =>
      obtain ⟨rfl, -⟩ := pure_inv h
      rfl
  | error e => cases h

end EGraph

theorem Pattern.Atomic.regular {p : Pattern} (h : p.Atomic) {v : Binary64}
    (hv : .literal v ∈ p.parts) : v.Regular := by
  obtain ⟨n, hn⟩ := h.literal hv
  rw [hn]
  exact (Binary64.unsigned_ofNat n).regular

namespace EGraph

variable {g g' : EGraph} {text : String}

/-- Whether a text is read, refused by the reader or refused later, the constants are
regular. -/
theorem Tame.ends_load (h : g.Tame) : Ends Tame (load text) g := by
  refine (ends_reading h _).bind fun term t hread ht =>
    ends_loading (ht.ends_addGround fun v hv => ?_)
  exact (Pattern.atomic_of_parse (reading_inv hread)).regular hv

theorem Tame.ends_loadAll (h : g.Tame) : Ends Tame (loadAll text) g := by
  refine (ends_reading h _).bind fun terms t hread ht =>
    Ends.mapM ht fun term hterm u hu => ?_
  exact ends_loading (hu.ends_addGround fun v hv =>
    (Pattern.atomic_of_parseAll (reading_inv hread) term hterm).regular hv)

/-- Every operation with literals that are not negative keeps the constants
regular. -/
theorem Operation.Unsigned.ends {op : Operation} (hop : op.Unsigned) (h : g.Tame) :
    Ends Tame (operate op) g := by
  cases op with
  | add node => exact ends_loading (h.ends_add fun v hv => (hop v hv).regular).map
  | addTerm term =>
      exact ends_loading (h.ends_addGround fun v hv => (hop v hv).regular).map
  | addText text => exact h.ends_load.map
  | merge a b => exact ends_loading h.ends_merge.map
  | rebuild => exact ends_loading h.ends_rebuild.map
  | applyOnce eqn =>
      exact ends_loading (h.ends_applyOnce fun v hv => (hop v hv).regular).map
  | saturate equations o =>
      exact ends_loading (h.ends_saturate fun eqn heqn v hv =>
        (hop eqn heqn v hv).regular).map

end EGraph

/-- The literals that a request gives are at least zero, and none of them is minus
zero. Those of a text are so anyway, as numerals have no sign. -/
def Request.Unsigned : Request → Prop
  | operation op => op.Unsigned
  | instantiate _ p => ∀ v, .literal v ∈ p.parts → v.Unsigned
  | addTexts _ | query _ => True

/-- Rules that were read from text have such literals. -/
theorem Rule.unsigned_of_ofTexts {name lhs rhs : String}
    {condition : Option Condition} {r : Rule}
    (h : Rule.ofTexts name lhs rhs condition = .ok r) {v : Binary64}
    (hv : .literal v ∈ r.toEquation.rhs.parts) :
    v.Unsigned := by
  obtain ⟨-, hrhs, -⟩ := Rule.ofTexts_inv h
  obtain ⟨n, hn⟩ := (Pattern.atomic_of_parse hrhs).literal hv
  rw [hn]
  exact Binary64.unsigned_ofNat n

namespace EGraph

variable {g g' : EGraph} {v w : Binary64} {a b : Int} {err : GraphError}

/-- So constants are regular after every session, whichever of its requests have
failed. -/
theorem tame_stateAfter {requests : List Request} (hr : ∀ r ∈ requests, r.Unsigned) :
    (stateAfter perform .empty requests).Tame := by
  refine Ends.stateAfter tame_empty fun r hmem t ht => ?_
  have hgiven := hr r hmem
  cases r with
  | operation op => exact hgiven.ends ht
  | addTexts text => exact ht.ends_loadAll.map
  | instantiate s p =>
      exact ends_loading (ht.ends_instantiate fun v hv => (hgiven v hv).regular).map
  | query q => exact ends_loading (ends_ask ht _)

/-! ## Refusals -/

/-- The references mean two classes whose constants are known and different. -/
def Clashes (g : EGraph) (a b : Int) : Prop :=
  g.Issued a ∧ g.Issued b ∧ g.root a.toNat ≠ g.root b.toNat ∧
    ∃ v w, g.constant? a.toNat = some v ∧ g.constant? b.toNat = some w ∧
      v.numEq w = false

theorem find_eq_error {ref : Int} (h : ¬ g.Issued ref) :
    g.find ref = .error (.unknownClass ref) := by
  cases ref with
  | ofNat id => exact if_neg fun hlt => h ⟨Int.natCast_nonneg id, hlt⟩
  | negSucc n => rfl

/-- The union of two classes that are known. -/
theorem merge_of_issued (ha : g.Issued a) (hb : g.Issued b) :
    merge a b g = unite (g.root a.toNat) (g.root b.toNat) g := by
  have hfirst : ask (·.find a) g = .ok (g.root a.toNat) g := by
    rw [ask, find_of_issued ha]
  have hsecond : ask (·.find b) g = .ok (g.root b.toNat) g := by
    rw [ask, find_of_issued hb]
  exact (bind_ok hfirst).trans (bind_ok hsecond)

/-- With an unknown reference a union fails at once, and the graph is what it was. -/
theorem merge_unknown (h : ¬ g.Issued a ∨ ¬ g.Issued b) :
    ∃ ref, merge a b g = .error (.unknownClass ref) g := by
  by_cases ha : g.Issued a
  · have hfirst : ask (·.find a) g = .ok (g.root a.toNat) g := by
      rw [ask, find_of_issued ha]
    have hsecond : ask (·.find b) g = .error (.unknownClass b) g := by
      rw [ask, find_eq_error (h.resolve_left (not_not_intro ha))]
    exact ⟨b, (bind_ok hfirst).trans (bind_error hsecond)⟩
  · exact ⟨a, bind_error (by rw [ask, find_eq_error ha])⟩

theorem conflict?_of_ne {x y : ClassId} (hv : (g.record x).constant = some v)
    (hw : (g.record y).constant = some w)
    (hne : v.numEq w = false) : g.conflict? x y = some (v, w) := by
  unfold conflict?
  rw [hv, hw]
  exact if_neg (by simp [hne])

/-- Two different constants refuse a union, and the graph is what it was. -/
theorem merge_clash (hw : g.WellFormed) (h : g.Clashes a b) :
    ∃ id v w, merge a b g = .error (.constantConflict id v w) g := by
  obtain ⟨ha, hb, hne, v, w, hv, hwc, hneq⟩ := h
  rw [merge_of_issued ha hb, unite]
  dsimp only
  rw [hw.root_root, hw.root_root, if_neg hne]
  -- whichever class is to win, both constants are compared before the union
  rcases UnionFind.order_cases g.sets (g.root a.toNat)
    (g.root b.toNat) with ⟨ho, -⟩ | ⟨ho, -⟩
  · rw [ho]
    dsimp only
    rw [conflict?_of_ne hv hwc hneq]
    exact ⟨_, _, _, rfl⟩
  · rw [ho]
    dsimp only
    rw [conflict?_of_ne hwc hv (by rw [Binary64.numEq_comm, hneq])]
    exact ⟨_, _, _, rfl⟩

/-- There is no other reason to refuse a union. -/
theorem succeeds_merge (hw : g.WellFormed) (ha : g.Issued a) (hb : g.Issued b)
    (h : ¬ g.Clashes a b) : Succeeds (merge a b) g := by
  rw [Succeeds, merge_of_issued ha hb]
  -- either there is nothing to unite, or the constants are in no conflict
  by_cases hroot : g.root a.toNat = g.root b.toNat
  · unfold unite
    dsimp only
    rw [hroot, if_pos rfl]
    exact ⟨_, _, rfl⟩
  · refine succeeds_unite fun v w hv hwc => ?_
    rw [hw.constant?_root] at hv hwc
    by_contra hneq
    exact h ⟨ha, hb, hroot, v, w, hv, hwc, Bool.eq_false_iff.2 hneq⟩

/-- Exactly these two reasons refuse a union. -/
theorem merge_fails_iff (hw : g.WellFormed) :
    (∃ err g', merge a b g = .error err g') ↔
      ¬ g.Issued a ∨ ¬ g.Issued b ∨ g.Clashes a b := by
  constructor
  · rintro ⟨err, g', hrun⟩
    by_contra hnot
    obtain ⟨ha, hb, hclash⟩ := not_or.1 hnot |>.imp_right not_or.1
    obtain ⟨id, t, hok⟩ := succeeds_merge hw (not_not.1 ha) (not_not.1 hb) hclash
    cases hrun.symm.trans hok
  · rintro (ha | hb | hclash)
    · obtain ⟨ref, hrun⟩ := merge_unknown (b := b) (Or.inl ha)
      exact ⟨_, _, hrun⟩
    · obtain ⟨ref, hrun⟩ := merge_unknown (a := a) (Or.inr hb)
      exact ⟨_, _, hrun⟩
    · obtain ⟨id, v, w, hrun⟩ := merge_clash hw hclash
      exact ⟨_, _, hrun⟩

/-- The error tells whether constants were in the way. -/
theorem clashes_iff_of_merge_error (hw : g.WellFormed)
    (hrun : merge a b g = .error err g') :
    g.Clashes a b ↔ ∃ id v w, err = .constantConflict id v w := by
  constructor
  · intro hclash
    obtain ⟨id, v, w, h⟩ := merge_clash hw hclash
    rw [hrun] at h
    cases h
    exact ⟨id, v, w, rfl⟩
  · rintro ⟨id, v, w, rfl⟩
    rcases (merge_fails_iff hw).1 ⟨_, _, hrun⟩ with ha | hb | hclash
    · obtain ⟨ref, h⟩ := merge_unknown (b := b) (Or.inl ha)
      cases hrun.symm.trans h
    · obtain ⟨ref, h⟩ := merge_unknown (a := a) (Or.inr hb)
      cases hrun.symm.trans h
    · exact hclash

end EGraph

namespace Concrete

variable {c c' : Concrete} {g : EGraph} {a b : Int} {text : String}

/-! ## The maps are left alone -/

/-- The reference is a number that has been issued. -/
def Knows (c : Concrete) (ref : Int) : Prop := 0 ≤ ref ∧ ref.toNat < c.forest.size

/-- The constant of the class that a number belongs to. -/
def constant? (c : Concrete) (id : ClassId) : Option Binary64 :=
  (c.record (c.forest.root id)).constant

/-- The references mean two classes whose constants are known and different. -/
def Clashes (c : Concrete) (a b : Int) : Prop :=
  c.Knows a ∧ c.Knows b ∧ c.forest.root a.toNat ≠ c.forest.root b.toNat ∧
    ∃ v w, c.constant? a.toNat = some v ∧ c.constant? b.toNat = some w ∧
      v.numEq w = false

theorem Models.knows_iff (h : Models c g) (ref : Int) :
    c.Knows ref ↔ g.Issued ref := by
  rw [Knows, h.forest.size]
  rfl

/-- References clash on the maps if they do in the graph, which has the same
constants at the same roots. -/
theorem Models.clashes_iff (h : Models c g) : c.Clashes a b ↔ g.Clashes a b := by
  have hconstant (id : ClassId) : c.constant? id = g.constant? id := by
    rw [constant?, h.record, h.forest.root]
    rfl
  rw [Clashes, h.knows_iff, h.knows_iff, h.forest.root, h.forest.root,
    EGraph.Clashes]
  simp only [hconstant]
  rfl

/-- An error on the maps is one on the graph. -/
theorem Agree.of_error {ε α : Type} {x : EStateM ε Concrete α}
    {y : EStateM ε EGraph α} {e : ε}
    (h : Agree x y c g) (hrun : x c = .error e c') :
    ∃ g', y g = .error e g' ∧ Models c' g' := by
  cases h with
  | ok concrete run models => cases hrun.symm.trans concrete
  | error concrete run models =>
      obtain ⟨rfl, rfl⟩ := EStateM.Result.error.inj (hrun.symm.trans concrete)
      exact ⟨_, run, models⟩

/-- Computations that agree fail together. -/
theorem Agree.fails_iff {ε α : Type} {x : EStateM ε Concrete α}
    {y : EStateM ε EGraph α} (h : Agree x y c g) :
    (∃ e c', x c = .error e c') ↔ ∃ e g', y g = .error e g' := by
  cases h with
  | ok concrete run models => rw [concrete, run]; simp
  | error concrete run models => rw [concrete, run]; simp

/-- The conditions under which a union is refused, on the maps. The roots of the two
references are looked up first, so pointers may have been redirected. -/
theorem merge_refused (h : Models c g) :
    ((∃ err c', merge a b c = .error err c') ↔
      ¬ c.Knows a ∨ ¬ c.Knows b ∨ c.Clashes a b) ∧
      ∀ err c', merge a b c = .error err c' →
        (c.Clashes a b ↔ ∃ id v w, err = .constantConflict id v w) ∧
        SameButPointers c c' := by
  rw [h.knows_iff, h.knows_iff, h.clashes_iff]
  refine ⟨(agree_mergeAt h a b).fails_iff.trans
    (EGraph.merge_fails_iff h.wellFormed), fun err c' hrun => ?_⟩
  obtain ⟨g', hmerge, hm⟩ := (agree_mergeAt h a b).of_error hrun
  obtain rfl := EGraph.merge_error hmerge
  exact ⟨EGraph.clashes_iff_of_merge_error h.wellFormed hmerge, h.sameButPointers hm⟩

theorem reading_ok {α : Type} {x : Except SyntaxError α} {a : α} (hx : x = .ok a) :
    reading x c = .ok a c := by
  rw [hx]
  rfl

/-- A text that is no term is refused by the reader. -/
theorem load_malformed {e : SyntaxError} (hp : Pattern.parse text = .error e) :
    load text c = .error (.malformed e) c :=
  bind_error (by rw [hp]; rfl)

/-- A term with variables is refused before it is added. -/
theorem load_open {p : Pattern} (hp : Pattern.parse text = .ok p)
    (hvars : p.vars ≠ []) :
    load text c = .error (.refused (.openTerm p.vars)) c := by
  refine (bind_ok (reading_ok hp)).trans ?_
  rw [addGround, if_neg fun hempty => hvars (List.isEmpty_iff.1 hempty)]
  rfl

/-- No other text is refused. -/
theorem succeeds_load (h : Models c g) (hg : g.Tame) {p : Pattern}
    (hp : Pattern.parse text = .ok p)
    (hvars : p.vars = []) : Succeeds (load text) c := by
  obtain ⟨ref, t, hrun⟩ := hg.succeeds_addGround
    (fun v hv => (Pattern.atomic_of_parse hp).regular hv) hvars
  refine Succeeds.bind ⟨p, c, reading_ok hp⟩ fun q c' hq => ?_
  obtain ⟨rfl, rfl⟩ := EStateM.Result.ok.inj ((reading_ok hp).symm.trans hq)
  cases agree_addGround h p with
  | ok concrete run models => exact ⟨_, _, by rw [loading, concrete]⟩
  | error concrete run models => cases run.symm.trans hrun

/-- The conditions under which a text is refused, on the maps, which are not touched
then. -/
theorem load_refused (h : Models c g) (hg : g.Tame) (text : String) :
    ((∃ err c', load text c = .error err c') ↔
      (¬ ∃ p, Derives (tokenize text) p) ∨ ∃ p, Derives (tokenize text) p ∧
        p.vars ≠ []) ∧
      ∀ err c', load text c = .error err c' →
        (∀ id v w, err ≠ .refused (.constantConflict id v w)) ∧ c' = c := by
  have hderives (p : Pattern) : Derives (tokenize text) p ↔
      Pattern.parse text = .ok p :=
    Pattern.parse_iff_derives.symm
  simp only [hderives]
  cases hp : Pattern.parse text with
  | error e =>
      rw [load_malformed hp]
      simp only [reduceCtorEq, exists_false, not_false_eq_true, false_and,
        or_false, iff_true]
      refine ⟨⟨_, _, rfl⟩, ?_⟩
      rintro err c' ⟨⟩
      exact ⟨fun id v w => by simp, rfl⟩
  | ok p =>
      -- a text that is one expression is refused only for its variables
      by_cases hvars : p.vars = []
      · obtain ⟨ref, t, hrun⟩ := succeeds_load h hg hp hvars
        rw [hrun]
        simp [hvars]
      · rw [load_open hp hvars]
        refine ⟨⟨fun _ => Or.inr ⟨p, rfl, hvars⟩, fun _ => ⟨_, _, rfl⟩⟩, ?_⟩
        rintro err c' ⟨⟩
        exact ⟨fun id v w => by simp, rfl⟩

/-- Unions and texts are refused as a whole. Whatever requests with literals that are
not negative have been made, with failures or without, a union is refused exactly if
a reference is unknown or the two classes differ and their constants are known and
different, and only in the last case for a conflict of constants. A text is refused
exactly if it is not one expression or has variables, and never for a conflict. A
refusal changes no more than pointers of the forest. The graph refuses the same with
the same errors. -/
theorem failures_atomic (requests : List Request) (hr : ∀ r ∈ requests, r.Unsigned) :
    let c := stateAfter perform empty requests
    let g := stateAfter EGraph.perform .empty requests
    (∀ a b, ((∃ err c', merge a b c = .error err c') ↔
      ¬ c.Knows a ∨ ¬ c.Knows b ∨ c.Clashes a b) ∧
      (∀ err c', merge a b c = .error err c' →
        (c.Clashes a b ↔ ∃ id v w, err = .constantConflict id v w) ∧
        SameButPointers c c') ∧
      Agree (merge a b) (EGraph.merge a b) c g) ∧
    ∀ text, ((∃ err c', load text c = .error err c') ↔
        (¬ ∃ p, Derives (tokenize text) p) ∨ ∃ p, Derives (tokenize text) p ∧
          p.vars ≠ []) ∧
      (∀ err c', load text c = .error err c' →
        (∀ id v w, err ≠ .refused (.constantConflict id v w)) ∧ c' = c) ∧
      Agree (load text) (EGraph.load text) c g := by
  intro c g
  have hm : Models c g := models_after requests
  have hg : g.Tame := EGraph.tame_stateAfter hr
  refine ⟨fun a b => ?_, fun text => ?_⟩
  · obtain ⟨hfails, herror⟩ := merge_refused (a := a) (b := b) hm
    exact ⟨hfails, herror, agree_mergeAt hm a b⟩
  · obtain ⟨hfails, herror⟩ := load_refused hm hg text
    exact ⟨hfails, herror, agree_load hm text⟩

/-- A rule that gives `B` the value 3. -/
def isThree : Rule where
  name := "is-three"
  lhs := .symbol "B"
  rhs := .literal 3
  condition := none
  lhs_consistent := by decide
  rhs_consistent := by decide
  rhs_bound := by decide
  condition_bound := by decide

/-- Requests of which two fail, before the rule makes `B` 3 and `(max+1 B 3)` 4. -/
def isThreeSession : List Request :=
  [.operation (.addText "3"), .operation (.addText "(max+1 B 3)"),
    .operation (.addText "4"),
    .operation (.merge 0 3), .operation (.addText "(max+1 B"),
    .operation (.saturate [isThree.toEquation] {})]

/-- Then `B` and `(max+1 B 3)` cannot be united, and a term with a variable cannot be
loaded. -/
theorem failures_atomic_isThree :
    Rule.ofTexts "is-three" "B" "3" none = .ok isThree ∧
    let c := stateAfter perform empty isThreeSession
    (∃ id v w c', merge 1 2 c = .error (.constantConflict id v w) c' ∧
      SameButPointers c c') ∧ ∃ err, load "(max+1 B ?x)" c = .error err c := by
  have hread : Rule.ofTexts "is-three" "B" "3" none = .ok isThree :=
    Rule.ofTexts_eq isThree (by decide +kernel) (by decide +kernel)
  have hunsigned : ∀ r ∈ isThreeSession, r.Unsigned := by
    simp only [isThreeSession, List.forall_mem_cons]
    refine ⟨trivial, trivial, trivial, trivial, trivial,
      fun eqn heqn v hv => ?_, by simp⟩
    rw [List.mem_singleton.1 heqn] at hv
    exact Rule.unsigned_of_ofTexts hread hv
  have hstate : let c := stateAfter perform empty isThreeSession
      c.forest.size = 4 ∧ c.forest.root 1 ≠ c.forest.root 2 ∧
      c.constant? 1 = some 3 ∧ c.constant? 2 = some 4 := by
    decide +kernel
  obtain ⟨hmerge, hload⟩ := failures_atomic isThreeSession hunsigned
  refine ⟨hread, ?_⟩
  dsimp only at hstate hmerge hload ⊢
  generalize stateAfter perform empty isThreeSession = c at *
  obtain ⟨hsize, hroots, hleft, hright⟩ := hstate
  have hclash : c.Clashes 1 2 := by
    refine ⟨⟨by decide, ?_⟩, ⟨by decide, ?_⟩, hroots, 3, 4, hleft,
      hright, by decide +kernel⟩
    · rw [hsize]
      decide
    · rw [hsize]
      decide
  obtain ⟨hfails, herror, -⟩ := hmerge 1 2
  obtain ⟨err, c', hrun⟩ := hfails.2 (Or.inr (Or.inr hclash))
  obtain ⟨hconflict, hsame⟩ := herror err c' hrun
  obtain ⟨id, v, w, rfl⟩ := hconflict.1 hclash
  refine ⟨⟨id, v, w, c', hrun, hsame⟩, ?_⟩
  obtain ⟨hfails, herror, -⟩ := hload "(max+1 B ?x)"
  have hopen : Derives (tokenize "(max+1 B ?x)")
      (.derived .sum (.symbol "B") (.var "x")) :=
    Pattern.parse_iff_derives.1 (by decide +kernel)
  obtain ⟨err, c', hrun⟩ := hfails.2 (Or.inr ⟨_, hopen, by decide⟩)
  obtain ⟨-, rfl⟩ := herror err c' hrun
  exact ⟨err, hrun⟩

end Concrete

end Datapath
