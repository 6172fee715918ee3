import Datapath.Proofs.Instances

/-!
# Datapath.Proofs.Success

When operations on a graph do not fail.

The only way in which a repair can fail is that two classes with different constants
are to be united. A graph is `Peaceful` if none of the unions that a single step
would make is of this kind, and a rebuild succeeds if all graphs that steps lead to
are peaceful (`succeeds_rebuild`). Nodes can be added if their children have been
issued and the graph stays peaceful in the same sense.
-/

namespace Datapath

/-! ## Computations that succeed -/

section

variable {ε σ α β : Type} {x : EStateM ε σ α} {s : σ}

/-- The computation ends without an error. -/
def Succeeds (x : EStateM ε σ α) (s : σ) : Prop := ∃ a t, x s = .ok a t

theorem succeeds_pure (a : α) (s : σ) : Succeeds (pure a : EStateM ε σ α) s :=
  ⟨a, s, rfl⟩

theorem bind_ok {f : α → EStateM ε σ β} {a : α} {t : σ} (hx : x s = .ok a t) :
    (x >>= f) s = f a t := by
  show EStateM.bind x f s = f a t
  rw [EStateM.bind, hx]

theorem Succeeds.bind {f : α → EStateM ε σ β} (hx : Succeeds x s)
    (hf : ∀ a t, x s = .ok a t → Succeeds (f a) t) : Succeeds (x >>= f) s := by
  obtain ⟨a, t, ha⟩ := hx
  obtain ⟨b, u, hb⟩ := hf a t ha
  exact ⟨b, u, by rw [bind_ok ha, hb]⟩

theorem Succeeds.map {f : α → β} (hx : Succeeds x s) : Succeeds (f <$> x) s := by
  obtain ⟨a, t, ha⟩ := hx
  refine ⟨f a, t, ?_⟩
  show EStateM.map f x s = .ok (f a) t
  rw [EStateM.map, ha]

theorem succeeds_get_bind {f : σ → EStateM ε σ β} (h : Succeeds (f s) s) :
    Succeeds (get >>= f) s := h

theorem succeeds_modify_bind {f : σ → σ} {k : Unit → EStateM ε σ β}
    (h : Succeeds (k ()) (f s)) : Succeeds (modify f >>= k) s :=
  h

theorem Succeeds.discard (hx : Succeeds x s) : Succeeds (discard x) s := hx.map

/-- A loop succeeds if its body keeps an invariant under which it succeeds. -/
theorem succeeds_forM {f : α → EStateM ε σ Unit} {I : σ → Prop} {l : List α}
    (hbody : ∀ a ∈ l, ∀ s, I s → Succeeds (f a) s)
    (hkeep : ∀ a ∈ l, ∀ s u t, I s → f a s = .ok u t → I t) (h0 : I s) :
    Succeeds (l.forM f) s := by
  induction l generalizing s with
  | nil => exact succeeds_pure _ s
  | cons a rest ih =>
      refine (hbody a List.mem_cons_self s h0).bind fun u t hu => ?_
      exact ih (fun a' ha' => hbody a' (List.mem_cons_of_mem _ ha'))
        (fun a' ha' => hkeep a' (List.mem_cons_of_mem _ ha'))
        (hkeep a List.mem_cons_self s u t h0 hu)

/-- So does a loop that collects results. -/
theorem succeeds_mapM {f : α → EStateM ε σ β} {I : σ → Prop} {l : List α}
    (hbody : ∀ a ∈ l, ∀ s, I s → Succeeds (f a) s)
    (hkeep : ∀ a ∈ l, ∀ s b t, I s → f a s = .ok b t → I t) (h0 : I s) :
    Succeeds (l.mapM f) s := by
  induction l generalizing s with
  | nil =>
      rw [List.mapM_nil]
      exact succeeds_pure _ s
  | cons a rest ih =>
      rw [List.mapM_cons]
      refine (hbody a List.mem_cons_self s h0).bind fun b t hb => ?_
      refine (ih (fun a' ha' => hbody a' (List.mem_cons_of_mem _ ha'))
        (fun a' ha' => hkeep a' (List.mem_cons_of_mem _ ha'))
        (hkeep a List.mem_cons_self s b t h0 hb)).bind fun bs u _ => ?_
      exact succeeds_pure _ u

end

theorem Binary64.numEq_comm (a b : Binary64) : a.numEq b = b.numEq a := by
  unfold numEq compares
  cases a.level <;> cases b.level <;> simp [eq_comm]

/-- Replacing children succeeds if each can be replaced. -/
theorem Node.mapExcept_eq_ok {ε α β : Type} {f : α → Except ε β} {d : α → β}
    {node : Node α} (h : ∀ c ∈ node.children, f c = .ok (d c)) :
    node.mapExcept f = .ok (node.map d) := by
  cases node with
  | literal | sign | symbol => rfl
  | derived fn l r =>
      simp only [children, List.mem_cons, List.not_mem_nil, or_false,
        forall_eq_or_imp, forall_eq] at h
      rw [mapExcept, h.1, h.2]
      rfl
  | binary op w wa sa a wb sb b =>
      simp only [children, List.mem_cons, List.not_mem_nil, or_false,
        forall_eq_or_imp, forall_eq] at h
      obtain ⟨hw, hwa, hsa, ha, hwb, hsb, hb⟩ := h
      rw [mapExcept, hw, hwa, hsa, ha, hwb, hsb, hb]
      rfl

namespace EGraph

variable {g g' : EGraph} {id x y : ClassId} {key node : Node ClassId}
  {e e' : Entry} {ref : Int}

/-! ## Unions -/

/-- The classes of two numbers do not have different constants. -/
def Agree (g : EGraph) (x y : ClassId) : Prop :=
  ∀ a b, g.constant? x = some a → g.constant? y = some b → a.numEq b = true

theorem Agree.symm (h : g.Agree x y) : g.Agree y x := fun a b ha hb => by
  rw [Binary64.numEq_comm]
  exact h b a hb ha

/-- A union succeeds if the constants of the two classes agree, whichever of them
wins. -/
theorem succeeds_unite (h : g.Agree x y) : Succeeds (unite x y) g := by
  have hnone {w l : ClassId} (hwl : ∀ a b, (g.record w).constant = some a →
      (g.record l).constant = some b → a.numEq b = true) :
      g.conflict? w l = none := by
    unfold conflict?
    split
    · next a b ha hb => exact if_pos (hwl a b ha hb)
    · rfl
  unfold unite Succeeds
  dsimp only
  by_cases heq : g.root x = g.root y
  · rw [if_pos heq]
    exact ⟨_, _, rfl⟩
  · rw [if_neg heq]
    rcases UnionFind.order_cases g.sets (g.root x) (g.root y) with
      ⟨horder, -⟩ | ⟨horder, -⟩
    · rw [horder, hnone h]
      exact ⟨_, _, rfl⟩
    · rw [horder, hnone h.symm]
      exact ⟨_, _, rfl⟩

theorem succeeds_enter (node : Node ClassId) (g : EGraph) :
    Succeeds (enter node) g := by
  unfold enter Succeeds
  dsimp only
  cases g.table.get? node.key with
  | some e => exact ⟨_, _, rfl⟩
  | none => exact ⟨_, _, rfl⟩

/-! ## Repairs -/

/-- No step that a repair can make next unites classes with different constants. -/
structure Peaceful (g : EGraph) : Prop where
  fold : ∀ {fn l r a b e lit}, g.table.get? (.derived fn l r) = some e →
    g.constant? l = some a → g.constant? r = some b →
    g.table.get? (Node.literal (fn.eval a b)).key = some lit →
    g.Agree lit.owner e.owner
  fuse : ∀ {e e'}, g.table.get? e.key = some e →
    g.congruent? e (g.canonical e.node) = some e' →
    g.Agree e.owner e'.owner

theorem Agree.of_root_eq (h : g.Agree x y) {x' y' : ClassId}
    (hx : g.root x' = g.root x) (hy : g.root y' = g.root y) : g.Agree x' y' := by
  intro a b ha hb
  rw [constant?, hx] at ha
  rw [constant?, hy] at hb
  exact h a b ha hb

section

variable (h : g.WellFormed) (hpeace : ∀ t, Steps g t → t.Peaceful)
include h hpeace

/-- Equating a computed width with its value succeeds where no step can conflict: if
the literal is new, it gets a class, and the step after that is the union. -/
theorem succeeds_equate {fn : WidthFn} {l r : ClassId} {a b : Binary64}
    (stored : g.table.get? (.derived fn l r) = some e)
    (left : g.constant? l = some a) (right : g.constant? r = some b)
    (hy : g.root y = g.root e.owner) : Succeeds (equate (fn.eval a b) y) g := by
  refine (succeeds_enter _ g).bind fun x g₁ henter => succeeds_unite ?_
  rcases enter_cases henter with ⟨lit, hlit, rfl, rfl⟩ | ⟨hnone, rfl, rfl⟩
  · exact ((hpeace _ .refl).fold stored left right hlit).of_root_eq
      (h.root_root _) hy
  · have hpeace₁ := hpeace _ (.single (.literal stored left right hnone))
    obtain ⟨hstored, hleft, hright, hvalue⟩ :=
      stored_issue_literal h stored left right (fn.eval a b)
    refine (hpeace₁.fold hstored hleft hright hvalue).of_root_eq rfl ?_
    rw [root_issue h.ranked, root_issue h.ranked]
    exact hy

theorem succeeds_refold (stored : g.table.get? node.key = some e)
    (hy : g.root y = g.root e.owner) : Succeeds (refold node y) g := by
  unfold refold
  refine succeeds_get_bind ?_
  cases hv : g.foldDerived? node with
  | some v =>
      obtain ⟨fn, l, r, a, b, rfl, ha, hb, rfl⟩ := foldDerived?_inv hv
      exact (succeeds_equate h hpeace stored ha hb hy).discard
  | none => exact succeeds_pure _ g

/-- Storing a node again succeeds: the union, if there is one, is that of a single
step. -/
theorem succeeds_rekey (stored : g.table.get? e.key = some e) :
    Succeeds (rekey e (g.canonical e.node) (g.root e.owner)) g := by
  unfold rekey Succeeds
  dsimp only
  cases hc : g.congruent? e (g.canonical e.node) with
  | some e' =>
      have hagree := (hpeace _ .refl).fuse stored hc
      refine Succeeds.discard (s := g.dropKey e.key (g.root e.owner))
        (succeeds_unite ?_)
      intro a b ha hb
      have hkeep (i : ClassId) :
          (g.dropKey e.key (g.root e.owner)).constant? i = g.constant? i :=
        (dropKey_sameFrame g e.key _).constant? i
      rw [hkeep, h.constant?_root] at ha
      rw [hkeep] at hb
      exact hagree a b ha hb
  | none => exact ⟨_, _, rfl⟩

/-- Bringing a parent up to date succeeds, since the graph in which it is folded
again is one that steps lead to. -/
theorem succeeds_repairParent (key : Node ClassId) :
    Succeeds (repairParent key) g := by
  unfold repairParent
  refine succeeds_get_bind ?_
  cases he : g.table.get? key with
  | none => exact succeeds_pure _ g
  | some e =>
      obtain rfl := WellFormed.key_eq he
      refine (succeeds_rekey h hpeace he).bind fun u g₁ hrekey => ?_
      obtain ⟨s₁, e', he', hroot⟩ := rekey_steps h he hrekey
      have hlisted := enlist_enlists g₁ (g.canonical e.node).key
      have hsteps : Steps g (g₁.enlist (g.canonical e.node).key) :=
        .head s₁ (Steps.of_enlists hlisted)
      refine succeeds_modify_bind ?_
      refine succeeds_refold (hsteps.wellFormed h)
        (fun t ht => hpeace t (hsteps.trans ht)) (e := e') ?_ ?_
      · rw [hlisted.table]
        exact he'
      · rw [hlisted.root, hlisted.root]
        exact hroot

/-- So does the repair of a class. -/
theorem succeeds_repair (id : ClassId) : Succeeds (repair id) g := by
  unfold repair
  refine succeeds_get_bind ?_
  refine succeeds_get_bind ?_
  refine succeeds_modify_bind ?_
  refine Succeeds.bind ?_ fun u g₂ _ => ⟨(), _, rfl⟩
  refine succeeds_forM (I := fun t => Steps g t) ?_ ?_ (steps_cleared g id)
  · intro key _ t ht
    exact succeeds_repairParent (ht.wellFormed h)
      (fun t' ht' => hpeace t' (ht.trans ht')) key
  · intro key _ t u t' ht hrun
    exact ht.trans (repairParent_steps (ht.wellFormed h) hrun)

/-- Passes succeed, by induction on how many are left: steps lead from each to the
next. -/
theorem succeeds_rebuildPasses (passes : Nat) :
    Succeeds (rebuildPasses passes) g := by
  induction passes generalizing g with
  | zero => exact succeeds_pure _ g
  | succ passes ih =>
      unfold rebuildPasses
      refine succeeds_get_bind ?_
      dsimp only
      split
      · exact succeeds_pure _ g
      · refine succeeds_modify_bind ?_
        have htaken := steps_take_pending g
        refine Succeeds.bind ?_ fun u g₂ hloop => ?_
        · refine succeeds_forM (I := fun t => Steps g t)
            (fun p _ t ht => succeeds_get_bind ?_)
            (fun p _ t u t' ht hrun =>
              ht.trans (repair_steps (ht.wellFormed h) hrun)) htaken
          exact succeeds_repair (ht.wellFormed h)
            (fun t' ht' => hpeace t' (ht.trans ht')) _
        · have hpass : Steps g g₂ :=
            htaken.trans (steps_of_forM_repair (htaken.wellFormed h) hloop)
          exact ih (hpass.wellFormed h) fun t ht => hpeace t (hpass.trans ht)

/-- A rebuild succeeds if no step that it can come to unites classes with different
constants. -/
theorem succeeds_rebuild : Succeeds rebuild g := by
  unfold rebuild
  refine succeeds_get_bind ?_
  exact succeeds_rebuildPasses h hpeace _

end

/-! ## Adding nodes and instances -/

theorem succeeds_find (h : g.Issued ref) : Succeeds (ask (·.find ref)) g := by
  refine ⟨g.root ref.toNat, g, ?_⟩
  rw [ask, find_of_issued h]

/-- A node is added without an error if the graph in which it has a class is
peaceful. -/
theorem succeeds_intern (h : g.WellFormed) (hc : ∀ c ∈ node.children, c < g.issued)
    (hpeace : g.table.get? node.key = none →
      ∀ t, Steps (g.issue node) t → t.Peaceful) :
    Succeeds (intern node) g := by
  unfold intern Succeeds
  dsimp only
  split
  · next v he hv =>
    -- the new node has a value, with which it is equated
    refine (succeeds_enter node g).bind fun x g₁ henter => ?_
    rcases enter_cases henter with ⟨e, he', -⟩ | ⟨-, rfl, rfl⟩
    · rw [he] at he'
      cases he'
    · have hw := h.issue he hc
      rw [← foldDerived?_issue h hc node] at hv
      obtain ⟨fn, l, r, a, b, rfl, ha, hb, rfl⟩ := foldDerived?_inv hv
      exact succeeds_equate hw (hpeace he) (get?_issue_new g _) ha hb rfl
  · exact succeeds_enter node g

/-- References to numbers that have been issued can be replaced. -/
theorem resolve_of_issued {node : Node Int} (hc : ∀ c ∈ node.children, g.Issued c) :
    g.resolve node = .ok (g.canonical (node.map Int.toNat)) := by
  rw [canonical, Node.map_map]
  exact Node.mapExcept_eq_ok fun c hmem => find_of_issued (hc c hmem)

/-- So is one whose children are references, after they have been replaced by
roots. -/
theorem succeeds_add (h : g.WellFormed) {node : Node Int}
    (hc : ∀ c ∈ node.children, g.Issued c)
    (hpeace : g.table.get? (g.canonical (node.map Int.toNat)).key = none →
      ∀ t, Steps (g.issue (g.canonical (node.map Int.toNat))) t → t.Peaceful) :
    Succeeds (add node) g := by
  have hresolve := resolve_of_issued hc
  have hask : ask (·.resolve node) g = .ok (g.canonical (node.map Int.toNat)) g := by
    rw [ask, hresolve]
  refine Succeeds.bind ⟨_, g, hask⟩ fun m t hm => ?_
  obtain ⟨hm, rfl⟩ := ask_inv hm
  rw [hresolve] at hm
  cases hm
  exact succeeds_intern h
    (fun c hmem => (canonical_children h (children_toNat_lt hc) c hmem).1) hpeace

/-- An instance is added without an error if all its layers are, above the instances
of their slots, and adding them keeps what this needs. -/
theorem succeeds_instantiate {P : EGraph → Prop} {s : Subst} {p : Pattern}
    (hadd : ∀ n, .ofNode n ∈ p.parts → ∀ g m, g.WellFormed → P g →
      n.Rel (g.Refers s) m →
        Succeeds (add m) g ∧ ∀ id g', add m g = .ok id g' → P g')
    (h : g.WellFormed) (hs : g.BoundIn s)
    (hvars : ∀ name ∈ p.occurrences, ∃ ref, s.get? name = some ref)
    (h0 : P g) : Succeeds (instantiate s p) g := by
  induction p using Pattern.layers generalizing g with
  | var name =>
      obtain ⟨ref, href⟩ := hvars name (by simp [Pattern.occurrences])
      unfold instantiate
      rw [href]
      exact succeeds_pure _ g
  | node n ih =>
      have hvars' : ∀ q ∈ n.children, ∀ name ∈ q.occurrences,
          ∃ ref, s.get? name = some ref :=
        fun q hq name hname => hvars name (by
          rw [Pattern.occurrences_ofNode]
          exact List.mem_flatMap.2 ⟨q, hq, hname⟩)
      have hadd' : ∀ q ∈ n.children, ∀ k, .ofNode k ∈ q.parts → ∀ g m,
          g.WellFormed → P g → k.Rel (g.Refers s) m →
            Succeeds (add m) g ∧ ∀ id g', add m g = .ok id g' → P g' :=
        fun q hq k hk =>
          hadd k (Pattern.mem_parts_trans (Pattern.mem_parts_child hq) hk)
      -- what the slots of the layer need is kept from one slot to the next
      have hslot : ∀ q ∈ n.children, ∀ t r t', t.WellFormed → t.BoundIn s → P t →
          instantiate s q t = .ok r t' → P t' ∧ t'.Refers s q r :=
        fun q hq t r t' hw hb ht hrun =>
          instantiate_induction (fun k hk t m t' id hw ht hrel =>
            (hadd' q hq k hk t m hw ht hrel).2 id t') hw hb ht hrun
      rw [instantiate_ofNode]
      refine Succeeds.bind ?_ fun refs g₁ hrefs => Succeeds.map ?_
      · refine succeeds_mapM (I := fun t => t.WellFormed ∧ t.BoundIn s ∧ P t)
          ?_ ?_ ⟨h, hs, h0⟩
        · rintro q hq t ⟨hw, hb, ht⟩
          exact ih q hq (hadd' q hq) hw hb (hvars' q hq) ht
        · rintro q hq t r t' ⟨hw, hb, ht⟩ hrun
          have hcalls := instantiate_calls hw hrun
          exact ⟨Calls.wellFormed hw hcalls, hb.of_extends (Calls.extends hw hcalls),
            (hslot q hq t r t' hw hb ht hrun).1⟩
      · obtain ⟨hw₁, h₁, hrel⟩ := refers_slots hslot h hs h0 hrefs
        exact (hadd n (Pattern.mem_parts_self _) g₁ _ hw₁ h₁ hrel).1

/-! ## Runs -/

section

variable {equations : List Equation} {o : Options}

/-- Rounds succeed if they keep an invariant under which a round succeeds. -/
theorem succeeds_saturateRounds {I : EGraph → Prop}
    (hround : ∀ g, I g → ∃ apps, g.applications equations = .ok apps ∧
      Succeeds (applyAll apps) g)
    (hkeep : ∀ g apps n g', I g → g.applications equations = .ok apps →
      applyAll apps g = .ok n g' → I g')
    (h0 : I g) (rounds : ℕ) (p : Progress) :
    Succeeds (saturateRounds equations o rounds p) g := by
  induction rounds generalizing g p with
  | zero => exact succeeds_pure p g
  | succ rounds ih =>
      obtain ⟨apps, happs, hall⟩ := hround g h0
      unfold saturateRounds
      refine succeeds_get_bind ?_
      dsimp only
      split
      · exact succeeds_pure _ g
      · refine Succeeds.bind ⟨apps, g, by rw [ask, happs]⟩ fun apps' t hask => ?_
        obtain ⟨happs', rfl⟩ := ask_inv hask
        obtain rfl : apps = apps' := Except.ok.inj (happs.symm.trans happs')
        refine hall.bind fun unions g₁ hrun => ?_
        refine succeeds_get_bind ?_
        split
        · exact succeeds_pure _ g₁
        · exact ih (hkeep _ apps unions g₁ h0 happs hrun) _

/-- A saturation succeeds if the first rebuild does and the rounds after it do. -/
theorem succeeds_saturate {I : EGraph → Prop} (hrebuild : Succeeds rebuild g)
    (h0 : ∀ t, rebuild g = .ok () t → I t)
    (hround : ∀ g, I g → ∃ apps, g.applications equations = .ok apps ∧
      Succeeds (applyAll apps) g)
    (hkeep : ∀ g apps n g', I g → g.applications equations = .ok apps →
      applyAll apps g = .ok n g' → I g') : Succeeds (saturate equations o) g := by
  unfold saturate
  refine hrebuild.bind fun u g₁ hrun => ?_
  refine (succeeds_saturateRounds hround hkeep (h0 g₁ hrun) _ _).bind
    fun p g₂ _ => ?_
  exact succeeds_get_bind (succeeds_pure _ g₂)

/-- A query about classes that have been issued succeeds if its run does. -/
theorem succeeds_settle (hw : g.WellFormed)
    (hrun : Succeeds (saturate equations o) g) {l r : Int}
    (hl : g.Issued l) (hr : g.Issued r) : Succeeds (settle equations o l r) g := by
  unfold settle
  refine hrun.bind fun stats g₁ hs => ?_
  have hext := Calls.extends hw (saturate_calls hw hs)
  refine (succeeds_find (hl.of_extends hext)).bind fun a t ha => ?_
  obtain ⟨-, rfl⟩ := ask_inv ha
  refine (succeeds_find (hr.of_extends hext)).bind fun b t hb => ?_
  exact succeeds_pure _ t

/-- A query has a verdict if both terms can be loaded and their references can be
compared. -/
theorem proveTerms_eq_ok {p q : Pattern} {l r : Int} {g₁ g₂ : EGraph} {v : Verdict}
    (hl : addGround p .empty = .ok l g₁) (hr : addGround q g₁ = .ok r g₂)
    (hv : settle equations o l r g₂ = .ok v g) :
    proveTerms p q equations o = .ok (v, g) := by
  have hrun : (do
      let l ← addGround p
      let r ← addGround q
      settle equations o l r) .empty = .ok v g := by
    rw [bind_ok hl, bind_ok hr, hv]
  rw [proveTerms, fromEmpty, hrun]

end

end EGraph

end Datapath
