import Datapath.Proofs.Layers
import Datapath.Proofs.Persistence
import Datapath.Verdict

/-!
# Datapath.Proofs.Calls

Every operation on graphs as a sequence of three.

Adding a node comes down to `intern`, uniting classes to `unite`, and both may be
followed by `rebuild`. `Call` is one of the three, applied where the code applies it:
to nodes with canonical children and to issued numbers. The lemmas of this module
show that whatever else the library does to a graph, from adding a term to a whole
saturation run, is a sequence of calls, so that an invariant of the three is one of
all of them. The loops over applications and over rounds are taken apart once, by
`Applied` and `saturateRounds_succ_inv`.
-/

namespace Datapath

/-! ## References -/

/-- The same as `bind_inv` for computations without a state. -/
theorem except_bind_inv {ε α β : Type} {x : Except ε α} {f : α → Except ε β} {b : β}
    (h : (x >>= f) = .ok b) : ∃ a, x = .ok a ∧ f a = .ok b := by
  cases x with
  | ok a => exact ⟨a, rfl, h⟩
  | error e => cases h

/-- Replacing children one after the other succeeds only if each can be replaced. -/
theorem Node.mapExcept_inv {ε α β : Type} {f : α → Except ε β} {d : α → β}
    (hf : ∀ {c b}, f c = .ok b → b = d c) {node : Node α} {m : Node β}
    (h : node.mapExcept f = .ok m) :
    m = node.map d ∧ ∀ c ∈ node.children, ∃ b, f c = .ok b := by
  cases node with
  | literal | sign | symbol =>
      cases h
      exact ⟨rfl, by simp [children]⟩
  | derived fn l r =>
      obtain ⟨l', hl, h⟩ := except_bind_inv h
      obtain ⟨r', hr, h⟩ := except_bind_inv h
      cases h
      refine ⟨by rw [hf hl, hf hr]; rfl, ?_⟩
      simp [children, hl, hr]
  | binary op w wa sa a wb sb b =>
      obtain ⟨w', hw, h⟩ := except_bind_inv h
      obtain ⟨wa', hwa, h⟩ := except_bind_inv h
      obtain ⟨sa', hsa, h⟩ := except_bind_inv h
      obtain ⟨a', ha, h⟩ := except_bind_inv h
      obtain ⟨wb', hwb, h⟩ := except_bind_inv h
      obtain ⟨sb', hsb, h⟩ := except_bind_inv h
      obtain ⟨b', hb, h⟩ := except_bind_inv h
      cases h
      refine ⟨by rw [hf hw, hf hwa, hf hsa, hf ha, hf hwb, hf hsb, hf hb]; rfl, ?_⟩
      simp [children, hw, hwa, hsa, ha, hwb, hsb, hb]

namespace EGraph

variable {g g' g'' : EGraph} {id w l x y : ClassId} {key k node : Node ClassId}
  {e e' : Entry}

/-- A reference that has a root is an issued number, read as one. -/
theorem find_inv {ref : Int} (h : g.find ref = .ok id) :
    0 ≤ ref ∧ ref.toNat < g.issued ∧ id = g.root ref.toNat := by
  unfold find at h
  split at h
  · split at h
    · next n hlt =>
      cases h
      exact ⟨Int.natCast_nonneg _, hlt, rfl⟩
    · cases h
  · cases h

/-- A node of references is resolved to the canonical node of the numbers, if all of
them were issued. -/
theorem resolve_inv {node : Node Int} {m : Node ClassId}
    (h : g.resolve node = .ok m) : m = g.canonical (node.map Int.toNat) ∧
      ∀ c ∈ node.children, 0 ≤ c ∧ c.toNat < g.issued := by
  obtain ⟨hm, hc⟩ := Node.mapExcept_inv (d := fun c => g.root c.toNat)
    (fun hb => (find_inv hb).2.2) h
  refine ⟨by rw [hm, canonical, Node.map_map]; rfl, ?_⟩
  intro c hmem
  obtain ⟨b, hb⟩ := hc c hmem
  exact ⟨(find_inv hb).1, (find_inv hb).2.1⟩

/-! ## Adding a node -/

/-- What a successful `intern` does. A node that is there already keeps its class. A
new one gets a class, and if it is a computed width of known arguments, this class is
then equated with the value. -/
theorem intern_cases {a : ClassId} (hi : intern node g = .ok a g') :
    (∃ e, g.table.get? node.key = some e ∧ a = g.root e.owner ∧ g' = g) ∨
      (g.table.get? node.key = none ∧
        ((g.foldDerived? node = none ∧ a = g.issued ∧ g' = g.issue node) ∨
          ∃ v, g.foldDerived? node = some v ∧
            equate v g.issued (g.issue node) = .ok a g')) := by
  unfold intern at hi
  cases he : g.table.get? node.key with
  | some e =>
      rw [he] at hi
      rcases enter_cases hi with ⟨e', he', ha, hg⟩ | ⟨hnone, -⟩
      · exact Or.inl ⟨e', he ▸ he', ha, hg⟩
      · rw [he] at hnone
        cases hnone
  | none =>
      rw [he] at hi
      refine Or.inr ⟨rfl, ?_⟩
      cases hv : g.foldDerived? node with
      | none =>
          rw [hv] at hi
          rcases enter_cases hi with ⟨e', he', -⟩ | ⟨-, ha, hg⟩
          · rw [he] at he'
            cases he'
          · exact Or.inl ⟨rfl, ha, hg⟩
      | some v =>
          rw [hv] at hi
          obtain ⟨x, g₁, henter, heq⟩ := bind_inv hi
          rcases enter_cases henter with ⟨e', he', -⟩ | ⟨-, rfl, rfl⟩
          · rw [he] at he'
            cases he'
          · exact Or.inr ⟨v, rfl, heq⟩

/-- A computed width whose value is known has the same value once it has a class. -/
theorem foldDerived?_issue (h : g.WellFormed)
    (hc : ∀ c ∈ node.children, c < g.issued)
    (m : Node ClassId) : (g.issue m).foldDerived? node = g.foldDerived? node := by
  cases node with
  | literal | sign | symbol | binary => rfl
  | derived fn l r =>
      simp only [foldDerived?, fold]
      rw [h.constant?_issue _ (hc l (by simp [Node.children])),
        h.constant?_issue _ (hc r (by simp [Node.children]))]

/-- The result of equating is the root of the class that was equated. -/
theorem equate_joins (h : g.WellFormed) {v : Binary64} {a : ClassId}
    (hy : y < g.issued) (heq : equate v y g = .ok a g') : a = g'.root y := by
  obtain ⟨x, g₁, henter, hunite⟩ := bind_inv heq
  rcases enter_cases henter with ⟨lit, hlit, rfl, rfl⟩ | ⟨hnone, rfl, rfl⟩
  · obtain ⟨-, hroot, hr⟩ := unite_joins h (h.root_lt (h.owner_lt hlit)) hy hunite
    rw [hr, hroot]
  · have hi := h.issue hnone (by simp [Node.children])
    obtain ⟨-, hroot, hr⟩ :=
      unite_joins hi (issued_lt_issue _ _) (lt_issue hy _) hunite
    rw [hr, hroot]

/-- A node that is new gets a class, and steps may follow that unite it with its
value. This is all that later proofs need to know about evaluation: an invariant of
steps takes care of it. -/
theorem intern_steps (h : g.WellFormed)
    (hc : ∀ c ∈ node.children, c < g.issued) {a : ClassId}
    (hi : intern node g = .ok a g') :
    (∃ e, g.table.get? node.key = some e ∧ a = g.root e.owner ∧ g' = g) ∨
      (g.table.get? node.key = none ∧ Steps (g.issue node) g' ∧
        a = g'.root g.issued) := by
  rcases intern_cases hi with hold | ⟨hnew, hissue | ⟨v, hv, heq⟩⟩
  · exact Or.inl hold
  · obtain ⟨-, rfl, rfl⟩ := hissue
    refine Or.inr ⟨hnew, .refl, ?_⟩
    rw [root_issue h.ranked, h.root_of_le le_rfl]
  · have hw := h.issue hnew hc
    have hlt : g.issued < (g.issue node).issued := issued_lt_issue _ _
    refine Or.inr ⟨hnew, ?_, equate_joins hw hlt heq⟩
    rw [← foldDerived?_issue h hc node] at hv
    obtain ⟨fn, l, r, a, b, rfl, ha, hb, rfl⟩ := foldDerived?_inv hv
    exact equate_steps hw (get?_issue_new g _) ha hb rfl heq

/-! ## Calls -/

/-- One of the three operations that all others are made of. -/
inductive Call : EGraph → EGraph → Prop
  /-- Adding a node with canonical children. -/
  | intern {g g' : EGraph} {node : Node ClassId} {a : ClassId}
      (children : ∀ c ∈ node.children, c < g.issued ∧ g.root c = c)
      (run : intern node g = .ok a g') : Call g g'
  /-- Uniting the classes of two issued numbers. -/
  | unite {g g' : EGraph} {x y r : ClassId} (left : x < g.issued)
      (right : y < g.issued)
      (run : unite x y g = .ok r g') : Call g g'
  /-- Repairing the graph. -/
  | rebuild {g g' : EGraph} (run : rebuild g = .ok () g') : Call g g'

/-- Any number of calls. -/
abbrev Calls : EGraph → EGraph → Prop := Relation.ReflTransGen Call

/-- Each of the three operations keeps a graph well-formed. For `rebuild` this is
known of the steps that it consists of. -/
theorem Call.wellFormed (h : g.WellFormed) (c : Call g g') : g'.WellFormed := by
  cases c with
  | intern children run =>
      have hc := fun c hc => (children c hc).1
      rcases intern_steps h hc run with ⟨-, -, -, rfl⟩ | ⟨hnew, steps, -⟩
      · exact h
      · exact Steps.wellFormed (h.issue hnew hc) steps
  | unite left right run => exact h.unite left right run
  | rebuild run => exact Steps.wellFormed h (rebuild_steps h run)

theorem Calls.wellFormed (h : g.WellFormed) (c : Calls g g') : g'.WellFormed := by
  induction c with
  | refl => exact h
  | tail _ c ih => exact c.wellFormed ih

/-- No call takes back an equality or a node. -/
theorem Call.extends (h : g.WellFormed) (c : Call g g') : Extends g g' := by
  cases c with
  | intern children run =>
      have hc := fun c hc => (children c hc).1
      rcases intern_steps h hc run with ⟨-, -, -, rfl⟩ | ⟨hnew, steps, -⟩
      · exact .refl _
      · exact (h.extends_issue hnew).trans (Steps.extends (h.issue hnew hc) steps)
  | unite left right run => exact h.extends_unite left right run
  | rebuild run => exact Steps.extends h (rebuild_steps h run)

theorem Calls.extends (h : g.WellFormed) (c : Calls g g') : Extends g g' := by
  induction c with
  | refl => exact .refl g
  | tail c₁ c₂ ih => exact ih.trans (c₂.extends (Calls.wellFormed h c₁))

/-! ## Operations on references -/

/-- Roots are issued numbers and their own roots, as `Call.intern` asks for. -/
theorem canonical_children (h : g.WellFormed)
    (hc : ∀ c ∈ node.children, c < g.issued) :
    ∀ c ∈ (g.canonical node).children, c < g.issued ∧ g.root c = c := by
  intro c hmem
  rw [canonical, Node.children_map] at hmem
  obtain ⟨d, hd, rfl⟩ := List.mem_map.1 hmem
  exact ⟨h.root_lt (hc d hd), h.root_root d⟩

/-- The library adds a node of references by interning its canonical form. -/
theorem add_inv {node : Node Int} {a : ClassId} (h : add node g = .ok a g') :
    (∀ c ∈ node.children, 0 ≤ c ∧ c.toNat < g.issued) ∧
      intern (g.canonical (node.map Int.toNat)) g = .ok a g' := by
  obtain ⟨m, g₁, hask, hintern⟩ := bind_inv h
  obtain ⟨hresolve, rfl⟩ := ask_inv hask
  obtain ⟨rfl, hc⟩ := resolve_inv hresolve
  exact ⟨hc, hintern⟩

/-- The children of an added node are issued numbers. -/
theorem children_toNat_lt {node : Node Int}
    (hc : ∀ c ∈ node.children, 0 ≤ c ∧ c.toNat < g.issued) :
    ∀ c ∈ (node.map Int.toNat).children, c < g.issued := by
  intro c hmem
  rw [Node.children_map] at hmem
  obtain ⟨d, hd, rfl⟩ := List.mem_map.1 hmem
  exact (hc d hd).2

theorem add_call (h : g.WellFormed) {node : Node Int} {a : ClassId}
    (ha : add node g = .ok a g') : Call g g' := by
  obtain ⟨hc, hi⟩ := add_inv ha
  exact .intern (canonical_children h (children_toNat_lt hc)) hi

/-- The library merges two references by uniting the roots of their numbers. -/
theorem merge_inv {a b : Int} {r : ClassId} (h : merge a b g = .ok r g') :
    (0 ≤ a ∧ a.toNat < g.issued) ∧ (0 ≤ b ∧ b.toNat < g.issued) ∧
      unite (g.root a.toNat) (g.root b.toNat) g = .ok r g' := by
  obtain ⟨x, g₁, hx, hrest⟩ := bind_inv h
  obtain ⟨hfx, rfl⟩ := ask_inv hx
  obtain ⟨y, g₂, hy, hunite⟩ := bind_inv hrest
  obtain ⟨hfy, rfl⟩ := ask_inv hy
  obtain ⟨ha0, ha, rfl⟩ := find_inv hfx
  obtain ⟨hb0, hb, rfl⟩ := find_inv hfy
  exact ⟨⟨ha0, ha⟩, ⟨hb0, hb⟩, hunite⟩

theorem merge_call (h : g.WellFormed) {a b : Int} {r : ClassId}
    (hm : merge a b g = .ok r g') : Call g g' := by
  obtain ⟨⟨-, ha⟩, ⟨-, hb⟩, hu⟩ := merge_inv hm
  exact .unite (h.root_lt ha) (h.root_lt hb) hu

/-! ## Terms -/

/-- A layer is added after its slots, from left to right. -/
theorem instantiate_ofNode (s : Subst) (n : Node Pattern) :
    instantiate s (.ofNode n) = (do
      let refs ← n.children.mapM (instantiate s)
      Int.ofNat <$> add ((n.map fun _ => 0).withChildren refs)) := by
  cases n <;> simp [Pattern.ofNode, instantiate, Node.children, Node.map,
    Node.withChildren]

/-- Adding a pattern is a sequence of calls: by induction on the pattern those for
the slots, and then the one for the layer. -/
theorem instantiate_calls (h : g.WellFormed) {s : Subst} {p : Pattern} {ref : Int}
    (hi : instantiate s p g = .ok ref g') : Calls g g' := by
  induction p using Pattern.layers generalizing g g' ref with
  | var name =>
      unfold instantiate at hi
      cases hs : s.get? name with
      | some r =>
          rw [hs] at hi
          obtain ⟨-, rfl⟩ := pure_inv hi
          exact .refl
      | none => rw [hs] at hi; cases hi
  | node n ih =>
      rw [instantiate_ofNode] at hi
      obtain ⟨refs, g₁, hrefs, hlast⟩ := bind_inv hi
      obtain ⟨a, ha, -⟩ := map_inv hlast
      obtain ⟨hslots, -⟩ := mapM_inv (I := Calls g) (P := fun _ _ _ => True)
        (fun q hq t r t' ht hrun =>
          ⟨ht.trans (ih q hq (Calls.wellFormed h ht) hrun), trivial, fun hp =>
            hp⟩) .refl hrefs
      exact hslots.tail (add_call (Calls.wellFormed h hslots) ha)

/-- A term that is added has no variables, so the substitution for it is empty. -/
theorem addGround_inv {t : Pattern} {ref : Int} (ha : addGround t g = .ok ref g') :
    t.vars = [] ∧ instantiate [] t g = .ok ref g' := by
  unfold addGround at ha
  split at ha
  · next hv => exact ⟨List.isEmpty_iff.1 hv, ha⟩
  · cases ha

theorem loading_inv {α : Type} {x : GraphM α} {a : α} (h : loading x g = .ok a g') :
    x g = .ok a g' := by
  unfold loading at h
  cases hx : x g with
  | ok b g₁ => rw [hx] at h; cases h; rfl
  | error e g₁ => rw [hx] at h; cases h

/-- A text that is loaded is parsed first, and the term is added. -/
theorem load_inv {text : String} {ref : Int} (h : load text g = .ok ref g') :
    ∃ t, Pattern.parse text = .ok t ∧ addGround t g = .ok ref g' := by
  obtain ⟨t, g₁, hread, hload⟩ := bind_inv h
  unfold reading at hread
  cases hp : Pattern.parse text with
  | ok t' =>
      rw [hp] at hread
      obtain ⟨rfl, rfl⟩ := pure_inv hread
      exact ⟨_, rfl, loading_inv hload⟩
  | error e => rw [hp] at hread; cases hread

theorem addGround_calls (h : g.WellFormed) {t : Pattern} {ref : Int}
    (ha : addGround t g = .ok ref g') : Calls g g' :=
  instantiate_calls h (addGround_inv ha).2

/-! ## Equations -/

/-- An application adds the right side and says whether it then united two
classes. -/
theorem applyAt_cases {app : Application} {b : Bool} (h : applyAt app g = .ok b g') :
    ∃ ref g₁, instantiate app.subst app.equation.rhs g = .ok ref g₁ ∧
      app.id < g₁.issued ∧ (0 ≤ ref ∧ ref.toNat < g₁.issued) ∧
      ((b = false ∧ g₁.root app.id = g₁.root ref.toNat ∧ g' = g₁) ∨
        (b = true ∧ ∃ r, unite (g₁.root app.id) (g₁.root ref.toNat) g₁ =
          .ok r g')) := by
  obtain ⟨ref, g₁, hi, hfinds⟩ := bind_inv h
  obtain ⟨l, g₂, hl, hfind⟩ := bind_inv hfinds
  obtain ⟨hfl, rfl⟩ := ask_inv hl
  obtain ⟨r, g₃, hr, hlast⟩ := bind_inv hfind
  obtain ⟨hfr, rfl⟩ := ask_inv hr
  obtain ⟨-, hid, rfl⟩ := find_inv hfl
  obtain ⟨h0, hlt, rfl⟩ := find_inv hfr
  refine ⟨ref, g₃, hi, hid, ⟨h0, hlt⟩, ?_⟩
  split at hlast
  · next heq =>
    obtain ⟨rfl, rfl⟩ := pure_inv hlast
    exact Or.inl ⟨rfl, heq, rfl⟩
  · obtain ⟨z, g₄, hu, hpure⟩ := bind_inv hlast
    obtain ⟨rfl, rfl⟩ := pure_inv hpure
    exact Or.inr ⟨rfl, z, hu⟩

/-- Applying an equation adds its right side and unites two classes if they are
different. -/
theorem applyAt_inv {app : Application} {b : Bool} (h : applyAt app g = .ok b g') :
    ∃ ref g₁, instantiate app.subst app.equation.rhs g = .ok ref g₁ ∧
      app.id < g₁.issued ∧ (0 ≤ ref ∧ ref.toNat < g₁.issued) ∧
      ((g₁.root app.id = g₁.root ref.toNat ∧ g' = g₁) ∨
        ∃ r, unite (g₁.root app.id) (g₁.root ref.toNat) g₁ = .ok r g') := by
  obtain ⟨ref, g₁, hi, hid, href, hrest⟩ := applyAt_cases h
  exact ⟨ref, g₁, hi, hid, href, hrest.imp (·.2) (·.2)⟩

/-- The calls of an application are those for its right side, and a union if the two
classes are different. -/
theorem applyAt_calls (h : g.WellFormed) {app : Application} {b : Bool}
    (ha : applyAt app g = .ok b g') : Calls g g' := by
  obtain ⟨ref, g₁, hi, hid, ⟨-, hlt⟩, hrest⟩ := applyAt_inv ha
  have c := instantiate_calls h hi
  have h₁ := Calls.wellFormed h c
  rcases hrest with ⟨-, rfl⟩ | ⟨r, hu⟩
  · exact c
  · exact c.tail (.unite (h₁.root_lt hid) (h₁.root_lt hlt) hu)

/-- Applications made one after the other, with the number of those that united two
classes. -/
inductive Applied : EGraph → List Application → Nat → EGraph → Prop
  | nil {g : EGraph} : Applied g [] 0 g
  | cons {g t g' : EGraph} {app : Application} {rest : List Application}
      {b : Bool} {n : Nat}
      (first : applyAt app g = .ok b t) (others : Applied t rest n g') :
      Applied g (app :: rest) ((if b then 1 else 0) + n) g'

/-- A loop over applications that succeeds has made each of them, and its result
counts those that united two classes. -/
theorem applied_of_applyEach {apps : List Application} {n : Nat}
    (h : applyEach apps g = .ok n g') : Applied g apps n g' := by
  -- the loop counts on from what it starts with
  have hloop {apps : List Application} {m n : Nat} {g : EGraph}
    (h : (apps.foldlM (fun unions app => do
      return if ← applyAt app then unions + 1 else unions) m : GraphM Nat)
        g = .ok n g') :
      ∃ k, n = m + k ∧ Applied g apps k g' := by
    induction apps generalizing g m with
    | nil =>
        obtain ⟨rfl, rfl⟩ := pure_inv h
        exact ⟨0, rfl, .nil⟩
    | cons app rest ih =>
        rw [List.foldlM_cons] at h
        obtain ⟨m', t, hbody, hrest⟩ := bind_inv h
        obtain ⟨b, t', hb, hpure⟩ := bind_inv hbody
        obtain ⟨rfl, rfl⟩ := pure_inv hpure
        obtain ⟨k, rfl, hothers⟩ := ih hrest
        refine ⟨_, ?_, .cons hb hothers⟩
        cases b <;> simp [Nat.add_assoc]
  obtain ⟨k, rfl, happlied⟩ := hloop h
  rwa [Nat.zero_add]

/-- Applications made one after the other are a sequence of calls. -/
theorem Applied.calls {apps : List Application} {n : Nat} (h : Applied g apps n g')
    (hw : g.WellFormed) : Calls g g' := by
  induction h with
  | nil => exact .refl
  | cons first _ ih =>
      have hcalls := applyAt_calls hw first
      exact hcalls.trans (ih (Calls.wellFormed hw hcalls))

/-- An invariant of single applications holds after a list of them. -/
theorem applyEach_induction {P : EGraph → Prop} {apps : List Application}
    (step : ∀ app ∈ apps, ∀ g g' b, P g → applyAt app g = .ok b g' → P g')
    {n : Nat} (h0 : P g) (h : applyEach apps g = .ok n g') : P g' := by
  replace h := applied_of_applyEach h
  induction h with
  | nil => exact h0
  | cons first _ ih =>
      obtain ⟨hfirst, hrest⟩ := List.forall_mem_cons.1 step
      exact ih hrest (hfirst _ _ _ h0 first)

/-- If no class was united, each application was made without a union, from a graph
that satisfies the invariant. What the applications after it do are calls again, so
that what is known right after it is known in the end. -/
theorem applyEach_quiet {P : EGraph → Prop} {apps : List Application}
    (hP : ∀ {g}, P g → g.WellFormed)
    (step : ∀ app ∈ apps, ∀ g g', P g → applyAt app g = .ok false g' →
      P g') (h0 : P g)
    (h : applyEach apps g = .ok 0 g') :
    P g' ∧ ∀ app ∈ apps, ∃ t t', P t ∧ applyAt app t = .ok false t' ∧
      Calls t' g' := by
  replace h := applied_of_applyEach h
  generalize hn : (0 : Nat) = n at h
  -- the count is a sum of zeros and ones, so with the sum each of them is zero
  induction h with
  | nil => exact ⟨h0, fun app happ => absurd happ List.not_mem_nil⟩
  | @cons g t g' app rest b n first others ih =>
      cases b with
      | true => simp only [if_true] at hn; omega
      | false =>
          obtain ⟨hfirst, hrest⟩ := List.forall_mem_cons.1 step
          have ht := hfirst _ _ h0 first
          obtain ⟨hg', hall⟩ := ih hrest ht (hn.trans (Nat.zero_add n))
          exact ⟨hg',
            List.forall_mem_cons.2 ⟨⟨g, t, h0, first, others.calls (hP ht)⟩, hall⟩⟩

/-- A round applies its applications and repairs the graph once, after all of
them. -/
theorem applyAll_inv {apps : List Application} {n : Nat}
    (h : applyAll apps g = .ok n g') :
    ∃ g₁, applyEach apps g = .ok n g₁ ∧ rebuild g₁ = .ok () g' := by
  obtain ⟨m, g₁, heach, h⟩ := bind_inv h
  obtain ⟨⟨⟩, g₂, hrebuild, h⟩ := bind_inv h
  obtain ⟨rfl, rfl⟩ := pure_inv h
  exact ⟨g₁, heach, hrebuild⟩

theorem applyEach_calls (h : g.WellFormed) {apps : List Application} {n : Nat}
    (ha : applyEach apps g = .ok n g') : Calls g g' :=
  (applied_of_applyEach ha).calls h

theorem applyAll_calls (h : g.WellFormed) {apps : List Application} {n : Nat}
    (ha : applyAll apps g = .ok n g') : Calls g g' := by
  obtain ⟨g₁, heach, hrebuild⟩ := applyAll_inv ha
  exact (applyEach_calls h heach).tail (.rebuild hrebuild)

/-- Applying one equation repairs the graph, searches it, and makes a round of what
was found. -/
theorem applyOnce_inv {eqn : Equation} {n : Nat} (h : applyOnce eqn g = .ok n g') :
    ∃ g₁ apps, rebuild g = .ok () g₁ ∧ g₁.applications [eqn] = .ok apps ∧
      applyAll apps g₁ = .ok n g' := by
  obtain ⟨⟨⟩, g₁, hrebuild, h⟩ := bind_inv h
  obtain ⟨apps, g₂, hask, hall⟩ := bind_inv h
  obtain ⟨happs, rfl⟩ := ask_inv hask
  exact ⟨g₂, apps, hrebuild, happs, hall⟩

theorem applyOnce_calls (h : g.WellFormed) {eqn : Equation} {n : Nat}
    (ha : applyOnce eqn g = .ok n g') : Calls g g' := by
  obtain ⟨g₁, apps, hrebuild, -, hall⟩ := applyOnce_inv ha
  have c : Call g g₁ := .rebuild hrebuild
  exact .head c (applyAll_calls (c.wellFormed h) hall)

/-! ## Saturation -/

/-- What one more round does: nothing where the graph has too many classes, and
otherwise it applies what the equations offer in the graph it starts from. -/
theorem saturateRounds_succ_inv {equations : List Equation} {o : Options}
    {rounds : Nat} {p p' : Progress}
    (h : saturateRounds equations o (rounds + 1) p g = .ok p' g') :
    (p' = p.stopAtLimit o g.size ∧ g' = g) ∨ ∃ apps n t, ¬ o.classLimit < g.size ∧
      g.applications equations = .ok apps ∧ applyAll apps g = .ok n t ∧
      ((n = 0 ∧ g' = t) ∨
        (n ≠ 0 ∧ saturateRounds equations o rounds
          (p.countRound o apps.length n t.size) t = .ok p' g')) := by
  unfold saturateRounds at h
  rw [get_bind] at h
  split at h
  · obtain ⟨rfl, rfl⟩ := pure_inv h
    exact Or.inl ⟨rfl, rfl⟩
  · next hsize =>
    obtain ⟨apps, g₁, hask, hround⟩ := bind_inv h
    obtain ⟨happs, rfl⟩ := ask_inv hask
    obtain ⟨n, t, hall, hrest⟩ := bind_inv hround
    rw [get_bind] at hrest
    refine Or.inr ⟨apps, n, t, hsize, happs, hall, ?_⟩
    split at hrest
    · next hn => exact Or.inl ⟨hn, (pure_inv hrest).2.symm⟩
    · next hn => exact Or.inr ⟨hn, hrest⟩

/-- An invariant of single rounds holds after all of them. -/
theorem saturateRounds_induction {P : EGraph → Prop}
    {equations : List Equation} {o : Options}
    (step : ∀ g g' apps n, P g → g.applications equations = .ok apps →
      applyAll apps g = .ok n g' → P g')
    {rounds : Nat} {p p' : Progress} (h0 : P g)
    (h : saturateRounds equations o rounds p g = .ok p' g') : P g' := by
  induction rounds generalizing g p with
  | zero =>
      obtain ⟨-, rfl⟩ := pure_inv h
      exact h0
  | succ rounds ih =>
      obtain ⟨-, rfl⟩ | ⟨apps, n, t, -, happs, hall, ⟨-, rfl⟩ | ⟨-, hrest⟩⟩ :=
        saturateRounds_succ_inv h
      · exact h0
      · exact step _ _ apps n h0 happs hall
      · exact ih (step _ _ apps n h0 happs hall) hrest

/-- Counting a round does not decide whether the run is saturated. -/
theorem saturated_countRound (p : Progress) (o : Options)
    (found unions classes : Nat) :
    (p.countRound o found unions classes).saturated = p.saturated := by
  unfold Progress.countRound Progress.note
  split <;> rfl

/-- A run that is stopped by the limit on classes is not saturated. -/
theorem saturated_stopAtLimit (p : Progress) (o : Options) (classes : Nat) :
    (p.stopAtLimit o classes).saturated = false := by
  unfold Progress.stopAtLimit Progress.note
  split <;> rfl

/-- Rounds that end as saturated end with one that united nothing. The flag is set in
no other way, so a run that had it when it started is the only exception. -/
theorem saturateRounds_last {P : EGraph → Prop}
    {equations : List Equation} {o : Options}
    (step : ∀ g g' apps n, P g → g.applications equations = .ok apps →
      applyAll apps g = .ok n g' → P g')
    {rounds : Nat} {p p' : Progress} (h0 : P g) (hp : p.saturated = false)
    (h : saturateRounds equations o rounds p g = .ok p' g')
    (hp' : p'.saturated = true) :
    ∃ t apps, P t ∧ t.applications equations = .ok apps ∧
      applyAll apps t = .ok 0 g' := by
  induction rounds generalizing g p with
  | zero =>
      obtain ⟨rfl, -⟩ := pure_inv h
      rw [hp] at hp'
      cases hp'
  | succ rounds ih =>
      obtain ⟨rfl, -⟩ | ⟨apps, n, t, -, happs, hall, ⟨rfl, rfl⟩ | ⟨-, hrest⟩⟩ :=
        saturateRounds_succ_inv h
      · rw [saturated_stopAtLimit] at hp'
        cases hp'
      · exact ⟨_, apps, h0, happs, hall⟩
      · refine ih (step _ _ apps n h0 happs hall) ?_ hrest
        rw [saturated_countRound, hp]

/-- A run repairs the graph and then makes rounds, whose progress is part of the
statistics. -/
theorem saturate_run {equations : List Equation} {o : Options} {stats : Stats}
    (h : saturate equations o g = .ok stats g') :
    ∃ g₁, rebuild g = .ok () g₁ ∧
      saturateRounds equations o o.roundLimit.toNat {} g₁ =
        .ok stats.toProgress g' := by
  obtain ⟨⟨⟩, g₁, hrebuild, h⟩ := bind_inv h
  obtain ⟨p, g₂, hrounds, h⟩ := bind_inv h
  rw [get_bind] at h
  obtain ⟨rfl, rfl⟩ := pure_inv h
  exact ⟨g₁, hrebuild, hrounds⟩

theorem saturate_inv {equations : List Equation} {o : Options} {stats : Stats}
    (h : saturate equations o g = .ok stats g') :
    ∃ g₁ p, rebuild g = .ok () g₁ ∧
      saturateRounds equations o o.roundLimit.toNat {} g₁ = .ok p g' := by
  obtain ⟨g₁, hrebuild, hrounds⟩ := saturate_run h
  exact ⟨g₁, stats.toProgress, hrebuild, hrounds⟩

/-- A whole run is a sequence of calls. -/
theorem saturate_calls (h : g.WellFormed) {equations : List Equation} {o : Options}
    {stats : Stats} (hs : saturate equations o g = .ok stats g') : Calls g g' := by
  obtain ⟨g₁, p, hrebuild, hrounds⟩ := saturate_inv hs
  refine saturateRounds_induction (P := fun t => Calls g t) ?_
    (.single (.rebuild hrebuild)) hrounds
  intro s t apps n hc _ hall
  exact hc.trans (applyAll_calls (Calls.wellFormed h hc) hall)

end EGraph

end Datapath
