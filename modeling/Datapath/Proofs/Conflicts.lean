import Datapath.Proofs.Checked

/-!
# Datapath.Proofs.Conflicts

Rules fail by conflicts only.

Two constants that are to become one are all that can stop a run of rules, in
whatever state the operations before it have left the graph. The run is compared with
one that checks every number it looks up (`Checked.saturate`), and the two conform
(`Conforms`): both succeed and do the same, or both fail by the same conflict. This
is shown for one operation after the other, from two facts: in a well-formed graph
all numbers that are held have been issued, and no operation takes a number back. The
right side of a rule finds its variables bound because they are among those of the
left side, all of which a match binds.
-/

namespace Datapath

/-! ## Conforming computations -/

/-- A checked computation and a plain one both succeed with one result, or both fail
by one conflict. -/
inductive Conforms {α : Type} (x : CheckedM α) (y : GraphM α) (g : EGraph) : Prop
  | ok {a : α} {g' : EGraph} (checked : x g = .ok a g') (run : y g = .ok a g')
  | conflict {id : ClassId} {existing incoming : Binary64} {g' : EGraph}
      (checked : x g = .error (.refused (.constantConflict id existing incoming)) g')
      (run : y g = .error (.constantConflict id existing incoming) g')

namespace Conforms

variable {α β γ : Type} {g : EGraph} {x : CheckedM α} {y : GraphM α}
  {I : EGraph → Prop} {l : List γ}

theorem pure (a : α) : Conforms (Pure.pure a) (Pure.pure a) g := .ok rfl rfl

/-- Two sequences conform if their first parts do and, wherever the plain one
succeeds, the second parts do as well. -/
theorem bind {f : α → CheckedM β} {k : α → GraphM β} (h : Conforms x y g)
    (hf : ∀ a t, y g = .ok a t → Conforms (f a) (k a) t) :
    Conforms (x >>= f) (y >>= k) g := by
  cases h with
  | ok checked run =>
      cases hf _ _ run with
      | ok checked' run' =>
          exact .ok (by rw [bind_ok checked, checked']) (by rw [bind_ok run, run'])
      | conflict checked' run' =>
          exact .conflict (by rw [bind_ok checked, checked'])
            (by rw [bind_ok run, run'])
  | conflict checked run => exact .conflict (bind_error checked) (bind_error run)

theorem map {f : α → β} (h : Conforms x y g) : Conforms (f <$> x) (f <$> y) g := by
  rw [map_eq_pure_bind, map_eq_pure_bind]
  exact h.bind fun _ _ _ => .pure _

theorem read {f : EGraph → CheckedM α} (h : Conforms (f g) y g) :
    Conforms (get >>= f) y g := by
  cases h with
  | ok checked run => exact .ok checked run
  | conflict checked run => exact .conflict checked run

theorem get {f : EGraph → CheckedM α} {k : EGraph → GraphM α}
    (h : Conforms (f g) (k g) g) : Conforms (get >>= f) (get >>= k) g := by
  cases h with
  | ok checked run => exact .ok checked run
  | conflict checked run => exact .conflict checked run

/-- A check that the plain computation does not make. -/
theorem check {answer : EGraph → Except Fault β} {b : β} {f : β → CheckedM α}
    (h : answer g = .ok b) (hf : Conforms (f b) y g) :
    Conforms (Checked.ask answer >>= f) y g := by
  have hask : Checked.ask answer g = .ok b g := by rw [Checked.ask, h]
  cases hf with
  | ok checked run => exact .ok (by rw [bind_ok hask, checked]) run
  | conflict checked run => exact .conflict (by rw [bind_ok hask, checked]) run

/-- An answer that the plain computation finds, too. -/
theorem ask {answer : EGraph → Except Fault α} {a : α} (h : answer g = .ok a)
    (hrun : y g = .ok a g) : Conforms (Checked.ask answer) y g :=
  .ok (by rw [Checked.ask, h]) hrun

/-- Conforming depends only on what the plain computation does from this graph. -/
theorem congr {z : GraphM α} (h : Conforms x y g) (hrun : z g = y g) :
    Conforms x z g := by
  cases h with
  | ok checked run => exact .ok checked (hrun.trans run)
  | conflict checked run => exact .conflict checked (hrun.trans run)

theorem write {g' : EGraph} {f : Unit → CheckedM α} {z : GraphM α}
    (h : Conforms (f ()) y g')
    (hrun : z g = y g') : Conforms (set g' >>= f) z g := by
  cases h with
  | ok checked run => exact .ok checked (hrun.trans run)
  | conflict checked run => exact .conflict checked (hrun.trans run)

theorem change (f : EGraph → EGraph) : Conforms (modify f) (modify f) g :=
  .ok rfl rfl

/-- A loop conforms if each of its rounds does and keeps what the rounds need. -/
theorem forM {f : γ → CheckedM Unit} {k : γ → GraphM Unit} (hI : I g)
    (step : ∀ c ∈ l, ∀ t, I t → Conforms (f c) (k c) t ∧ ∀ t',
      k c t = .ok () t' → I t') :
    Conforms (l.forM f) (l.forM k) g := by
  induction l generalizing g with
  | nil => exact .pure ()
  | cons c rest ih =>
      obtain ⟨hc, hkeep⟩ := step c List.mem_cons_self g hI
      exact hc.bind fun _ t hrun => ih (hkeep t hrun) fun d hd =>
        step d (List.mem_cons_of_mem _ hd)

/-- The same for loops that collect results. -/
theorem mapM {f : γ → CheckedM β} {k : γ → GraphM β} (hI : I g)
    (step : ∀ c ∈ l, ∀ t, I t → Conforms (f c) (k c) t ∧ ∀ b t',
      k c t = .ok b t' → I t') :
    Conforms (l.mapM f) (l.mapM k) g := by
  induction l generalizing g with
  | nil => exact .pure []
  | cons c rest ih =>
      obtain ⟨hc, hkeep⟩ := step c List.mem_cons_self g hI
      rw [List.mapM_cons, List.mapM_cons]
      refine hc.bind fun b t hrun => ?_
      exact (ih (hkeep b t hrun) fun d hd => step d (List.mem_cons_of_mem _ hd)).bind
        fun _ _ _ => .pure _

/-- The same for loops that pass a value on. -/
theorem foldlM {f : β → γ → CheckedM β} {k : β → γ → GraphM β} {b : β} (hI : I g)
    (step : ∀ c ∈ l, ∀ b t, I t → Conforms (f b c) (k b c) t ∧ ∀ b' t',
      k b c t = .ok b' t' → I t') :
    Conforms (l.foldlM f b) (l.foldlM k b) g := by
  induction l generalizing g b with
  | nil => exact .pure b
  | cons c rest ih =>
      obtain ⟨hc, hkeep⟩ := step c List.mem_cons_self b g hI
      rw [List.foldlM_cons, List.foldlM_cons]
      exact hc.bind fun b' t hrun => ih (hkeep b' t hrun) fun d hd =>
        step d (List.mem_cons_of_mem _ hd)

end Conforms

namespace EGraph

variable {g g' t : EGraph} {id x y : ClassId} {key node : Node ClassId}
  {entry : Entry} {s : Subst}
  {p : Pattern} {app : Application} {apps : List Application} {eqn : Equation}
  {equations : List Equation} {o : Options}

/-! ## Adding and uniting -/

/-- Uniting looks up two issued numbers and the records of their roots. Whether the
two constants are in conflict is then decided in the same way. -/
theorem conforms_unite (hw : g.WellFormed) (hx : x < g.issued) (hy : y < g.issued) :
    Conforms (Checked.unite x y) (unite x y) g := by
  refine .check (Checked.find_natCast hx) (.check (Checked.find_natCast hy) ?_)
  by_cases hroot : g.root x = g.root y
  · rw [if_pos hroot]
    exact .ok rfl (if_pos hroot)
  · rw [if_neg hroot]
    refine .check (Checked.record_eq hw (hw.root_lt hx)) ?_
    refine .check (Checked.record_eq hw (hw.root_lt hy)) (.read ?_)
    rcases hpair : g.sets.order (g.root x) (g.root y) with ⟨winner, loser⟩
    dsimp only
    cases hc : g.conflict? winner loser with
    | none =>
        have hrun : unite x y g = .ok winner (g.absorb winner loser) := by
          simp only [unite, if_neg hroot, hpair, hc]
        exact .ok rfl hrun
    | some pair =>
        have hrun : unite x y g =
            .error (.constantConflict winner pair.1 pair.2) g := by
          simp only [unite, if_neg hroot, hpair, hc]
        exact .conflict rfl hrun

/-- Entering a node looks up its owner, or its children if it is new. -/
theorem conforms_enter (hw : g.WellFormed) (hc : ∀ c ∈ node.children, c < g.issued) :
    Conforms (Checked.enter node) (enter node) g := by
  refine .read ?_
  cases he : g.table.get? node.key with
  | some e =>
      exact .ask (Checked.find_natCast (hw.owner_lt he)) (by rw [enter, he])
  | none =>
      have hrun : enter node g = .ok g.issued (g.issue node) := by rw [enter, he]
      exact .check (Checked.foldDerived?_eq hw hc)
        (.check (Checked.canonical_eq hc) (.ok rfl hrun))

/-- Equating enters a literal, which has no children, and unites two issued
numbers. -/
theorem conforms_equate (hw : g.WellFormed) {v : Binary64} (hy : y < g.issued) :
    Conforms (Checked.equate v y) (equate v y) g := by
  refine (conforms_enter hw (by simp [Node.children])).bind fun l t henter => ?_
  rcases enter_cases henter with ⟨e, he, rfl, rfl⟩ | ⟨hnew, rfl, rfl⟩
  · exact conforms_unite hw (hw.root_lt (hw.owner_lt he)) hy
  · have hlt : g.issued < (g.issue (.literal v)).issued := issued_lt_issue _ _
    exact conforms_unite (hw.issue hnew (by simp [Node.children])) hlt (hy.trans hlt)

/-- A node that was just issued for its value has an issued number, so what follows
can be checked in the graph with the node. -/
theorem conforms_intern (hw : g.WellFormed)
    (hc : ∀ c ∈ node.children, c < g.issued) :
    Conforms (Checked.intern node) (intern node) g := by
  have henter := conforms_enter hw hc
  refine .check (Checked.foldDerived?_eq hw hc) (.read ?_)
  cases he : g.table.get? node.key with
  | some e => exact henter.congr (by rw [intern, he])
  | none =>
      cases hv : g.foldDerived? node with
      | none => exact henter.congr (by rw [intern, he, hv])
      | some v =>
          refine Conforms.congr (henter.bind fun id t hrun => ?_)
            (by rw [intern, he, hv])
          rcases enter_cases hrun with ⟨e, he', -⟩ | ⟨-, rfl, rfl⟩
          · rw [he] at he'
            cases he'
          · refine conforms_equate (hw.issue he hc) ?_
            exact issued_lt_issue _ _

/-- The references of a node are looked up before it is interned. -/
theorem conforms_add (hw : g.WellFormed) {n : Node Int}
    (hc : ∀ c ∈ n.children, g.Issued c) : Conforms (Checked.add n) (add n) g := by
  have hplain : ask (·.resolve n) g = .ok (n.map fun c => g.root c.toNat) g := by
    rw [ask, resolve, Node.mapExcept_eq_ok fun c hmem => find_of_issued (hc c hmem)]
  refine Conforms.bind
    (.ask (Node.mapExcept_eq_ok fun c hmem => Checked.find_eq (hc c hmem)) hplain)
    fun m t hask => ?_
  obtain ⟨rfl, rfl⟩ : n.map (fun c => g.root c.toNat) = m ∧ g = t := by
    rw [hplain] at hask
    cases hask
    exact ⟨rfl, rfl⟩
  refine conforms_intern hw fun c hmem => ?_
  rw [Node.children_map] at hmem
  obtain ⟨ref, href, rfl⟩ := List.mem_map.1 hmem
  exact hw.root_lt (hc ref href).2

/-! ## Repairs -/

/-- Computing a width again looks up the children of its node. -/
theorem conforms_refold (hw : g.WellFormed) (hc : ∀ c ∈ node.children, c < g.issued)
    (hy : y < g.issued) : Conforms (Checked.refold node y) (refold node y) g := by
  refine .check (Checked.foldDerived?_eq hw hc) ?_
  cases hv : g.foldDerived? node with
  | none =>
      refine (Conforms.pure ()).congr ?_
      rw [refold, get_bind, hv]
  | some v =>
      refine (conforms_equate hw hy).map.congr ?_
      rw [refold, get_bind, hv]
      rfl

/-- A congruent entry has an owner, which has been issued like all others. -/
theorem conforms_rekey (hw : g.WellFormed)
    (he : g.table.get? entry.key = some entry) :
    Conforms (Checked.rekey entry (g.canonical entry.node) (g.root entry.owner))
      (rekey entry (g.canonical entry.node) (g.root entry.owner)) g := by
  have howner := hw.root_lt (hw.owner_lt he)
  refine .read ?_
  cases hcongr : g.congruent? entry (g.canonical entry.node) with
  | none => exact .ok rfl (by rw [rekey, hcongr])
  | some e' =>
      refine .check (Checked.record_eq hw howner) ?_
      have hunite := conforms_unite (hw.dropKey he) (x := g.root entry.owner)
        (y := e'.owner) howner (hw.owner_lt (congruent?_inv hcongr).2)
      exact .write hunite.map (by rw [rekey, hcongr]; rfl)

/-- A parent is looked up with its owner and children. The step that stores it again
issues nothing and takes nothing back, so the children can still be looked up when
its width is computed. -/
theorem conforms_repairParent (hw : g.WellFormed) (key : Node ClassId) :
    Conforms (Checked.repairParent key) (repairParent key) g := by
  refine .get ?_
  cases he : g.table.get? key with
  | none => exact .pure ()
  | some e =>
      obtain rfl := WellFormed.key_eq he
      have hchildren : ∀ c ∈ e.node.children, c < g.issued := fun c hc =>
        hw.child_lt he c (by rwa [Entry.key, Node.children_key])
      have hcanon := canonical_children hw hchildren
      refine .check (Checked.find_natCast (hw.owner_lt he))
        (.check (Checked.canonical_eq hchildren) ?_)
      refine (conforms_rekey hw he).bind fun _ t hrun => ?_
      obtain ⟨step, -⟩ := rekey_steps hw he hrun
      have ht := step.wellFormed hw
      have hlt {c : ClassId} (hc : c < g.issued) : c < t.issued :=
        Nat.lt_of_lt_of_le hc (step.extends hw).issued_le
      -- from here on in the graph after the node was stored again
      refine .check (Checked.canonical_eq fun c hc => hlt (hcanon c hc).1) ?_
      refine (Conforms.change _).bind fun _ t' hmodify => ?_
      obtain rfl := modify_inv hmodify
      have hlisted := enlist_enlists t (g.canonical e.node).key
      refine conforms_refold (ht.of_enlists hlisted) (fun c hc => ?_) ?_
      · rw [hlisted.issued]
        exact hlt (hcanon c hc).1
      · rw [hlisted.issued]
        exact hlt (hw.root_lt (hw.owner_lt he))

/-- The parents of a class are repaired one by one, each in a graph that steps from
the first one have led to. -/
theorem conforms_repair (hw : g.WellFormed) (hx : x < g.issued) :
    Conforms (Checked.repair x) (repair x) g := by
  refine .get (.get ((Conforms.change _).bind fun _ g₁ hclear => ?_))
  obtain rfl := modify_inv hclear
  have hstart := steps_cleared g x
  have hloop : Conforms ((g.record x).parents.toList.forM Checked.repairParent)
      ((g.record x).parents.toList.forM repairParent) (g.cleared x) :=
    .forM (I := Steps g) hstart fun key _ t ht =>
      ⟨conforms_repairParent (ht.wellFormed hw) key,
      fun t' hrun => ht.trans (repairParent_steps (ht.wellFormed hw) hrun)⟩
  refine hloop.bind fun _ t hrun => ?_
  have ht : Steps g t :=
    hstart.trans (steps_of_forM_repairParent (hstart.wellFormed hw) hrun)
  have hlt : x < t.issued := Nat.lt_of_lt_of_le hx (Steps.extends hw ht).issued_le
  exact .check (Checked.listed_eq (ht.wellFormed hw) hlt) (.change _)

/-- The classes of a pass are looked up in a graph that has changed since the pass
began, but only by steps, which take no number back. -/
theorem conforms_rebuildPasses (hw : g.WellFormed) (passes : ℕ) :
    Conforms (Checked.rebuildPasses passes) (rebuildPasses passes) g := by
  induction passes generalizing g with
  | zero => exact .pure ()
  | succ passes ih =>
      unfold Checked.rebuildPasses rebuildPasses
      refine .get ?_
      dsimp only
      split
      · exact .pure ()
      · refine (Conforms.change _).bind fun _ g₁ htake => ?_
        obtain rfl := modify_inv htake
        have hstart := steps_take_pending g
        refine (Conforms.forM (I := Steps g) hstart fun id hid t ht =>
          ⟨?_, fun t' hrun => ht.trans (repair_steps (ht.wellFormed hw) hrun)⟩).bind
          fun _ t hrun => ?_
        · have hwt := ht.wellFormed hw
          have hlt : id < t.issued :=
            Nat.lt_of_lt_of_le (hw.pending_lt id (Array.mem_toList_iff.1 hid))
            (Steps.extends hw ht).issued_le
          exact .check (Checked.find_natCast hlt)
            ((conforms_repair hwt (hwt.root_lt hlt)).congr rfl)
        · exact ih ((steps_of_forM_repair (hstart.wellFormed hw) hrun).wellFormed
            (hstart.wellFormed hw))

theorem conforms_rebuild (hw : g.WellFormed) : Conforms Checked.rebuild rebuild g :=
  .get (conforms_rebuildPasses hw _)

/-! ## Patterns and equations -/

/-- As without checks, a layer is added after its slots. -/
theorem checked_instantiate_ofNode (s : Subst) (n : Node Pattern) :
    Checked.instantiate s (.ofNode n) = (do
      let refs ← n.children.mapM (Checked.instantiate s)
      Int.ofNat <$> Checked.add ((n.map fun _ => 0).withChildren refs)) := by
  cases n <;> simp [Pattern.ofNode, Checked.instantiate, Node.children, Node.map,
    Node.withChildren]

/-- An instance whose variables are bound. The references to the slots mean issued
numbers when the layer is added, although other slots were added after them. -/
theorem conforms_instantiate (hw : g.WellFormed) (hs : g.BoundIn s)
    (hvars : ∀ name ∈ p.occurrences, (s.get? name).isSome) :
    Conforms (Checked.instantiate s p) (instantiate s p) g := by
  induction p using Pattern.layers generalizing g with
  | var name =>
      obtain ⟨ref, hget⟩ :=
        Option.isSome_iff_exists.1 (hvars name List.mem_cons_self)
      rw [Checked.instantiate, instantiate, hget]
      exact .pure ref
  | node n ih =>
      rw [checked_instantiate_ofNode, instantiate_ofNode]
      rw [Pattern.occurrences_ofNode] at hvars
      refine (Conforms.mapM (I := Calls g) .refl fun q hq t ht => ?_).bind
        fun refs t hrefs => ?_
      · have hwt := Calls.wellFormed hw ht
        have hbound := hs.of_extends (Calls.extends hw ht)
        exact ⟨ih q hq hwt hbound fun name hname =>
          hvars name (List.mem_flatMap.2 ⟨q, hq, hname⟩),
          fun ref t' hrun => ht.trans (instantiate_calls hwt hrun)⟩
      · obtain ⟨hwt, -, hrel⟩ :=
          refers_slots (P := fun _ => True)
            (fun q _ t r t' hwt hbound _ hrun =>
              ⟨trivial, refers_of_instantiate hwt hbound hrun⟩) hw hs trivial hrefs
        refine (conforms_add hwt fun ref href => ?_).map
        obtain ⟨q, -, hrefers⟩ := hrel.exists_left href
        exact hrefers.1

/-- An application whose class and variables are known. -/
theorem conforms_applyAt (hw : g.WellFormed) (hid : app.id < g.issued)
    (hs : g.BoundIn app.subst)
    (hvars : ∀ name ∈ app.equation.rhs.occurrences, (app.subst.get? name).isSome) :
    Conforms (Checked.applyAt app) (applyAt app) g := by
  refine (conforms_instantiate hw hs hvars).bind fun ref t hrun => ?_
  have hcalls := instantiate_calls hw hrun
  have hwt := Calls.wellFormed hw hcalls
  have hidt : app.id < t.issued :=
    Nat.lt_of_lt_of_le hid (Calls.extends hw hcalls).issued_le
  have href := (refers_of_instantiate hw hs hrun).1
  have hl : ask (·.find app.id) t = .ok (t.root app.id) t := by
    rw [ask, find_natCast hidt]
  have hr : ask (·.find ref) t = .ok (t.root ref.toNat) t := by
    rw [ask, find_of_issued href]
  -- the plain application looks up two numbers, too, and fails at neither
  refine Conforms.congr
    (y := if t.root app.id = t.root ref.toNat then pure false else do
      let _ ← unite (t.root app.id) (t.root ref.toNat)
      return true)
    (.check (Checked.find_natCast hidt) (.check (Checked.find_eq href) ?_)) ?_
  · split
    · exact .pure false
    · exact (conforms_unite hwt (hwt.root_lt hidt) (hwt.root_lt href.2)).bind
        fun _ _ _ => .pure true
  · rw [bind_ok hl, bind_ok hr]

/-! ## Runs of equations -/

end EGraph

/-- The variables of the right side are among those of the left side. -/
def Equation.Binding (eqn : Equation) : Prop :=
  ∀ name ∈ eqn.rhs.occurrences, name ∈ eqn.lhs.occurrences

theorem Rule.binding (r : Rule) : r.toEquation.Binding := fun name hname =>
  Pattern.mem_vars.1 (r.rhs_bound name (Pattern.mem_vars.2 hname))

namespace EGraph

variable {g g' t : EGraph} {apps : List Application} {eqn : Equation}
  {equations : List Equation} {o : Options}

/-- What is found is the same, and no guard fails, since the variables that it reads
are bound. -/
theorem checked_applications_eq (hw : g.WellFormed)
    (happs : g.applications equations = .ok apps) :
    Checked.applications g equations = .ok apps := by
  have hcandidates : Checked.gather equations (fun eqn => do
      return (← Checked.search g eqn.lhs).flatMap fun found =>
        found.substs.map fun s => ⟨eqn, found.id, s⟩) =
        .ok (equations.flatMap g.candidates) := by
    refine Checked.gather_eq fun eqn _ => ?_
    rw [Checked.search_eq hw]
    rfl
  rw [Rule.applications_eq hw] at happs
  obtain rfl := Except.ok.inj happs
  rw [Checked.applications, hcandidates]
  exact filterM_eq_ok fun app happ => by
    rw [Rule.guard_of_mem_candidates hw happ]
    rfl

/-- What equations offer can be applied. The offers were made before the first one
was applied, so each of them is applied in a graph that calls have led to since. -/
theorem conforms_applyEach (hw : g.WellFormed) (hE : ∀ eqn ∈ equations, eqn.Binding)
    (happs : g.applications equations = .ok apps) :
    Conforms (Checked.applyEach apps) (applyEach apps) g := by
  refine Conforms.foldlM (I := Calls g) .refl fun app happ n t ht =>
    ⟨?_, fun n' t' hrun => ?_⟩
  · obtain ⟨heqn, hoffered⟩ := offered_of_mem_applications hw happs happ
    have hext := Calls.extends hw ht
    have hvars : ∀ name ∈ app.equation.rhs.occurrences,
        (app.subst.get? name).isSome := by
      intro name hname
      obtain ⟨-, ref, hget, -⟩ :=
        hoffered.realizes.exists_bound (hE _ heqn name hname)
      rw [hget]
      rfl
    exact (conforms_applyAt (Calls.wellFormed hw ht)
      (Nat.lt_of_lt_of_le hoffered.lt hext.issued_le)
      (hoffered.boundIn.of_extends hext) hvars).bind fun _ _ _ => .pure _
  · obtain ⟨b, t₁, hb, hpure⟩ := bind_inv hrun
    obtain ⟨-, rfl⟩ := pure_inv hpure
    exact ht.trans (applyAt_calls (Calls.wellFormed hw ht) hb)

theorem conforms_applyAll (hw : g.WellFormed) (hE : ∀ eqn ∈ equations, eqn.Binding)
    (happs : g.applications equations = .ok apps) :
    Conforms (Checked.applyAll apps) (applyAll apps) g := by
  refine (conforms_applyEach hw hE happs).bind fun n t hrun => ?_
  have hwt := Calls.wellFormed hw (applyEach_calls hw hrun)
  exact (conforms_rebuild hwt).bind fun _ _ _ => .pure n

/-- Both collect the same applications and go on with them. -/
theorem conforms_applications (hw : g.WellFormed) {α : Type}
    {f : List Application → CheckedM α} {k : List Application → GraphM α}
    (h : ∀ apps, g.applications equations = .ok apps →
      Conforms (f apps) (k apps) g) :
    Conforms (do f (← Checked.ask (Checked.applications · equations)))
      (do k (← ask (·.applications equations))) g := by
  obtain ⟨apps, happs⟩ := exists_applications hw equations
  have hask : ask (·.applications equations) g = .ok apps g := by rw [ask, happs]
  exact .check (checked_applications_eq hw happs)
    ((h apps happs).congr (bind_ok hask))

/-- Whether there is another round is decided by numbers that are the same in both
runs. -/
theorem conforms_saturateRounds (hw : g.WellFormed)
    (hE : ∀ eqn ∈ equations, eqn.Binding) (rounds : ℕ)
    (p : Progress) :
    Conforms (Checked.saturateRounds equations o rounds p)
      (saturateRounds equations o rounds p) g := by
  induction rounds generalizing g p with
  | zero => exact .pure p
  | succ rounds ih =>
      unfold Checked.saturateRounds saturateRounds
      refine .get ?_
      dsimp only
      split
      · exact .pure _
      · refine conforms_applications hw fun apps happs => ?_
        refine (conforms_applyAll hw hE happs).bind fun unions t hall => .get ?_
        split
        · exact .pure _
        · exact ih (Calls.wellFormed hw (applyAll_calls hw hall)) _

/-- A run conforms to the run with all checks. -/
theorem conforms_saturate (hw : g.WellFormed) (hE : ∀ eqn ∈ equations, eqn.Binding)
    (o : Options) :
    Conforms (Checked.saturate equations o) (saturate equations o) g := by
  refine (conforms_rebuild hw).bind fun _ t hrun => ?_
  have hwt := Steps.wellFormed hw (rebuild_steps hw hrun)
  exact (conforms_saturateRounds hwt hE _ _).bind fun p t' _ => .get (.pure _)

/-- The same for a single equation. -/
theorem conforms_applyOnce (hw : g.WellFormed) (hE : eqn.Binding) :
    Conforms (Checked.applyOnce eqn) (applyOnce eqn) g := by
  refine (conforms_rebuild hw).bind fun _ t hrun => ?_
  have hwt := Steps.wellFormed hw (rebuild_steps hw hrun)
  refine conforms_applications hwt fun apps happs => ?_
  exact conforms_applyAll hwt
    (fun eqn' heqn => by obtain rfl := List.mem_singleton.1 heqn; exact hE) happs

/-- In any graph that operations have led to, failed ones included, rules fail by
conflicts only. A search for any pattern passes all checks, and so do the guards of a
rule wherever its left side is found, and its report. Applying a rule once and
saturating with rules, with any limits, end as they do with all checks: with a
result, or because two constants were to become one. -/
theorem conforms_of_visited (hg : Visited g) :
    (∀ p, Checked.search g p = .ok (g.search p)) ∧
    (∀ r : Rule, (∃ found, r.matchesIn g = .ok found) ∧
      (∀ found ∈ g.search r.lhs, ∀ s ∈ found.substs, ∃ holds,
        r.toEquation.guard g s = .ok holds) ∧
      Conforms (Checked.applyOnce r.toEquation) (applyOnce r.toEquation) g) ∧
    ∀ (rules : List Rule) (o : Options),
      Conforms (Checked.saturate (rules.map Rule.toEquation) o)
        (saturate (rules.map Rule.toEquation) o) g := by
  have hw := hg.wellFormed
  refine ⟨Checked.search_eq hw, fun r =>
    ⟨?_, fun found hfound s hs => ?_, conforms_applyOnce hw r.binding⟩,
    fun rules o => conforms_saturate hw (fun eqn heqn => ?_) o⟩
  · obtain ⟨found, hfound, -⟩ := Rule.exists_matchesIn hw r
    exact ⟨found, hfound⟩
  · have hplace : (found.id, s) ∈ r.places g :=
      List.mem_flatMap.2 ⟨found, hfound, List.mem_map_of_mem hs⟩
    exact exists_guard (Rule.boundIn_of_mem_places hw hplace) _
  · obtain ⟨r, -, rfl⟩ := List.mem_map.1 heqn
    exact r.binding

/-- Seven is eight. -/
def sevenIsEight : Rule where
  name := "seven-is-eight"
  lhs := .literal 7
  rhs := .literal 8
  condition := none
  lhs_consistent := by decide
  rhs_consistent := by decide
  rhs_bound := by decide
  condition_bound := by decide

/-- A rebuild that finds three plus one to be seven fails half-way, and a run that
takes seven for eight fails after it, both by a conflict. -/
theorem conforms_of_visited_sevenIsEight : ∃ g g' id existing incoming, Visited g ∧
    saturate ([sevenIsEight].map Rule.toEquation) {} g =
      .error (.constantConflict id existing incoming) g' ∧
    Checked.saturate ([sevenIsEight].map Rule.toEquation) {} g =
      .error (.refused (.constantConflict id existing incoming)) g' := by
  have hrun : (fromEmpty (ε := GraphError) do
      let _ ← EGraph.addGround (.derived .sum (.symbol "a") (.symbol "a"))
      let _ ← EGraph.addGround (.literal 7)
      let _ ← EGraph.addGround (.literal 3)
      let _ ← EGraph.merge 1 2
      let _ ← EGraph.merge 0 3
      let g ← get
      return match EGraph.rebuild g with
        | .ok .. => false
        | .error _ t =>
            match EGraph.saturate ([sevenIsEight].map Rule.toEquation) {} t with
            | .ok .. => false
            | .error .. => true).toOption.map (·.1) = some true := by
    decide +kernel
  obtain ⟨⟨result, g₅⟩, hok, hresult⟩ := Option.map_eq_some_iff.1 hrun
  obtain ⟨a₁, g₁, h₁, hok⟩ := bind_inv (fromEmpty_inv (toOption_inv hok))
  obtain ⟨a₂, g₂, h₂, hok⟩ := bind_inv hok
  obtain ⟨a₃, g₃, h₃, hok⟩ := bind_inv hok
  obtain ⟨a₄, g₄, h₄, hok⟩ := bind_inv hok
  obtain ⟨a₅, g₅, h₅, hok⟩ := bind_inv hok
  rw [get_bind] at hok
  obtain ⟨rfl, rfl⟩ := pure_inv hok
  have hvisited : Visited g₅ :=
    .run (.merge 0 3) (.run (.merge 1 2) (.run (.addTerm _) (.run (.addTerm _)
    (.run (.addTerm _) .empty ⟨a₁, h₁⟩) ⟨a₂, h₂⟩) ⟨a₃, h₃⟩) ⟨a₄, h₄⟩) ⟨a₅, h₅⟩
  dsimp only at hresult
  cases hrebuild : EGraph.rebuild g₅ with
  | ok => rw [hrebuild] at hresult; cases hresult
  | error err t =>
      rw [hrebuild] at hresult
      dsimp only at hresult
      have hafter : Visited t := .fail .rebuild hvisited ⟨err, hrebuild⟩
      cases (conforms_of_visited hafter).2.2 [sevenIsEight] {} with
      | ok _ run => rw [run] at hresult; cases hresult
      | conflict checked run => exact ⟨t, _, _, _, _, hafter, run, checked⟩

end EGraph

end Datapath
