import Datapath.Proofs.Numbers

/-!
# Datapath.Proofs.Failures

What a failed operation leaves behind.

An operation that fails keeps the changes it has made. Outside of a rebuild these are
calls and at most a node that was entered without being equated with its value
(`Aborted`). A rebuild that fails has made steps, but a repair takes a node out
before it unites the class of the node with that of a congruent one, and if these
classes have different constants, the node is lost (`Halted`). Either of the two is
behind every failure.

`Visited` are the graphs that any operations lead to, failed ones included. They are
well-formed.
-/

namespace Datapath

/-! ## Failed computations taken apart -/

section

variable {ε σ α β : Type} {s s' : σ} {e : ε}

theorem bind_error {x : EStateM ε σ α} {f : α → EStateM ε σ β}
    (hx : x s = .error e s') : (x >>= f) s = .error e s' := by
  show EStateM.bind x f s = .error e s'
  rw [EStateM.bind, hx]

/-- A sequence fails in its first part or, after that has succeeded, in its
second. -/
theorem bind_error_inv {x : EStateM ε σ α} {f : α → EStateM ε σ β}
    (h : (x >>= f) s = .error e s') :
    x s = .error e s' ∨ ∃ a t, x s = .ok a t ∧ f a t = .error e s' := by
  change EStateM.bind x f s = .error e s' at h
  unfold EStateM.bind at h
  cases hx : x s with
  | ok a t => rw [hx] at h; exact Or.inr ⟨a, t, rfl, h⟩
  | error e t => rw [hx] at h; cases h; exact Or.inl rfl

/-- Two computations agree in a state if their first steps do and what follows agrees
wherever the first step leads. -/
theorem bind_eq_bind {x y : EStateM ε σ α} {f k : α → EStateM ε σ β} (hx : x s = y s)
    (h : ∀ a t, y s = .ok a t → f a t = k a t) : (x >>= f) s = (y >>= k) s := by
  change EStateM.bind x f s = EStateM.bind y k s
  unfold EStateM.bind
  rw [hx]
  cases hy : y s with
  | ok a t => exact h a t hy
  | error e t => rfl

/-- Applying a function to the result does not fail by itself. -/
theorem map_error_inv {x : EStateM ε σ α} {f : α → β}
    (h : (f <$> x) s = .error e s') : x s = .error e s' := by
  change EStateM.map f x s = .error e s' at h
  unfold EStateM.map at h
  cases hx : x s with
  | ok a t => rw [hx] at h; cases h
  | error e t => rw [hx] at h; cases h; rfl

/-- A loop fails at one of its elements, to which it comes with its invariant. -/
theorem forM_error_inv {f : α → EStateM ε σ Unit} {I : σ → Prop} {l : List α}
    (hstep : ∀ a ∈ l, ∀ s t, I s → f a s = .ok () t → I t) (h0 : I s)
    (h : l.forM f s = .error e s') : ∃ a ∈ l, ∃ t, I t ∧ f a t = .error e s' := by
  induction l generalizing s with
  | nil => cases h
  | cons a rest ih =>
      rcases bind_error_inv h with ha | ⟨⟨⟩, t, ha, hrest⟩
      · exact ⟨a, List.mem_cons_self, s, h0, ha⟩
      · obtain ⟨b, hb, t', ht', hfail⟩ :=
          ih (fun b hb => hstep b (List.mem_cons_of_mem _ hb))
          (hstep a List.mem_cons_self s t h0 ha) hrest
        exact ⟨b, List.mem_cons_of_mem _ hb, t', ht', hfail⟩

/-- The same for loops that collect results. -/
theorem mapM_error_inv {f : α → EStateM ε σ β} {I : σ → Prop} {l : List α}
    (hstep : ∀ a ∈ l, ∀ s b t, I s → f a s = .ok b t → I t) (h0 : I s)
    (h : l.mapM f s = .error e s') : ∃ a ∈ l, ∃ t, I t ∧ f a t = .error e s' := by
  induction l generalizing s with
  | nil => cases h
  | cons a rest ih =>
      rw [List.mapM_cons] at h
      rcases bind_error_inv h with ha | ⟨b, t, hb, hrest⟩
      · exact ⟨a, List.mem_cons_self, s, h0, ha⟩
      · rcases bind_error_inv hrest with hfail | ⟨bs, t', -, hpure⟩
        · obtain ⟨c, hc, t', ht', hfail⟩ :=
            ih (fun c hc => hstep c (List.mem_cons_of_mem _ hc))
            (hstep a List.mem_cons_self s b t h0 hb) hfail
          exact ⟨c, List.mem_cons_of_mem _ hc, t', ht', hfail⟩
        · cases hpure

/-- The same for loops that pass a value on. -/
theorem foldlM_error_inv {f : β → α → EStateM ε σ β} {I : σ → Prop} {l : List α}
    {b : β} (hstep : ∀ a ∈ l, ∀ b s c t, I s → f b a s = .ok c t → I t) (h0 : I s)
    (h : l.foldlM f b s = .error e s') :
    ∃ a ∈ l, ∃ c t, I t ∧ f c a t = .error e s' := by
  induction l generalizing s b with
  | nil => cases h
  | cons a rest ih =>
      rw [List.foldlM_cons] at h
      rcases bind_error_inv h with ha | ⟨c, t, hc, hrest⟩
      · exact ⟨a, List.mem_cons_self, b, s, h0, ha⟩
      · obtain ⟨a', ha', d, t', ht', hfail⟩ :=
          ih (fun a' ha' => hstep a' (List.mem_cons_of_mem _ ha'))
          (hstep a List.mem_cons_self b s c t h0 hc) hrest
        exact ⟨a', List.mem_cons_of_mem _ ha', d, t', ht', hfail⟩

end

namespace EGraph

variable {g g' t : EGraph} {x y : ClassId} {key node : Node ClassId} {e e' : Entry}
  {err : GraphError} {s : Subst} {p : Pattern} {app : Application}
  {apps : List Application} {eqn : Equation}
  {equations : List Equation} {o : Options}

theorem ask_error_inv {α : Type} {answer : EGraph → Except GraphError α}
    (h : ask answer g = .error err g') : answer g = .error err ∧ g' = g := by
  unfold ask at h
  cases ha : answer g with
  | ok b => rw [ha] at h; cases h
  | error e => rw [ha] at h; cases h; exact ⟨rfl, rfl⟩

/-! ## The graph at the moment of failure -/

/-- What an operation that fails outside of a rebuild may have done to a graph. -/
inductive Aborted (g g' : EGraph) : Prop
  /-- Calls that succeeded. -/
  | called (calls : Calls g g')
  /-- In the end a node was entered, and perhaps the literal of its value, but they
  were not equated. -/
  | entered {t : EGraph} {node : Node ClassId} (calls : Calls g t)
      (children : ∀ c ∈ node.children, c < t.issued ∧ t.root c = c)
      (fresh : t.table.get? node.key = none)
      (result : g' = t.issue node ∨
        ∃ v, (t.issue node).table.get? (Node.literal v).key = none ∧
          g' = (t.issue node).issue (.literal v))

theorem Aborted.after (c : Calls g t) (h : Aborted t g') : Aborted g g' := by
  cases h with
  | called calls => exact .called (c.trans calls)
  | entered calls children fresh result =>
      exact .entered (c.trans calls) children fresh result

/-- A graph that a failed operation leaves outside of a rebuild is well-formed:
entering a node or a literal keeps it so. -/
theorem Aborted.wellFormed (hw : g.WellFormed) (h : Aborted g g') :
    g'.WellFormed := by
  cases h with
  | called calls => exact Calls.wellFormed hw calls
  | entered calls children fresh result =>
      have hnode := (Calls.wellFormed hw calls).issue fresh fun c hc =>
        (children c hc).1
      rcases result with rfl | ⟨v, hfresh, rfl⟩
      · exact hnode
      · exact hnode.issue hfresh (by simp [Node.children])

/-! ## Adding and uniting -/

/-- A union that fails changes nothing, as the conflict is found before anything is
written. -/
theorem unite_error (h : unite x y g = .error err g') : g' = g := by
  unfold unite at h
  dsimp only at h
  split at h
  · cases h
  · split at h
    · cases h
      rfl
    · cases h

/-- Entering a node cannot fail, so at most a literal has been added when equating
fails. -/
theorem equate_error {v : Binary64} (h : equate v y g = .error err g') :
    g' = g ∨ g.table.get? (Node.literal v).key = none ∧
    g' = g.issue (.literal v) := by
  rcases bind_error_inv h with henter | ⟨x, t, henter, hunite⟩
  · obtain ⟨a, t, ha⟩ := succeeds_enter (.literal v) g
    rw [ha] at henter
    cases henter
  · obtain rfl := unite_error hunite
    rcases enter_cases henter with ⟨-, -, -, rfl⟩ | ⟨hnone, -, rfl⟩
    · exact Or.inl rfl
    · exact Or.inr ⟨hnone, rfl⟩

/-- Interning fails only when the node and its value are to be united. -/
theorem intern_error (hc : ∀ c ∈ node.children, c < g.issued ∧ g.root c = c)
    (h : intern node g = .error err g') : Aborted g g' := by
  unfold intern at h
  split at h
  · next v hnone hv =>
    rcases bind_error_inv h with henter | ⟨x, t, henter, hequate⟩
    · obtain ⟨a, t, ha⟩ := succeeds_enter node g
      rw [ha] at henter
      cases henter
    · rcases enter_cases henter with ⟨e, he, -⟩ | ⟨-, -, rfl⟩
      · rw [hnone] at he
        cases he
      · exact .entered .refl hc hnone
          ((equate_error hequate).imp_right fun h => ⟨v, h⟩)
  · obtain ⟨a, t, ha⟩ := succeeds_enter node g
    rw [ha] at h
    cases h

/-- References are looked up before anything is added. -/
theorem add_error (hw : g.WellFormed) {n : Node Int} (h : add n g = .error err g') :
    Aborted g g' := by
  rcases bind_error_inv h with hask | ⟨m, t, hask, hintern⟩
  · rw [(ask_error_inv hask).2]
    exact .called .refl
  · obtain ⟨hresolve, rfl⟩ := ask_inv hask
    obtain ⟨rfl, hc⟩ := resolve_inv hresolve
    exact intern_error (canonical_children hw (children_toNat_lt hc)) hintern

/-- A merge that fails changes nothing. -/
theorem merge_error {a b : Int} (h : merge a b g = .error err g') : g' = g := by
  rcases bind_error_inv h with hask | ⟨i, t, hask, hrest⟩
  · exact (ask_error_inv hask).2
  · obtain ⟨-, rfl⟩ := ask_inv hask
    rcases bind_error_inv hrest with hask | ⟨j, t, hask, hunite⟩
    · exact (ask_error_inv hask).2
    · obtain ⟨-, rfl⟩ := ask_inv hask
      exact unite_error hunite

/-! ## Repairs -/

/-- What a rebuild that fails may have done to a graph. -/
inductive Halted (g g' : EGraph) : Prop
  /-- Steps that a successful rebuild makes too. -/
  | stepped (steps : Steps g g')
  /-- A node was taken out in the end because another one has its canonical key. -/
  | dropped {t : EGraph} {e e' : Entry} (steps : Steps g t)
      (stored : t.table.get? e.key = some e)
      (congruent : t.congruent? e (t.canonical e.node) = some e')
      (result : g' = t.dropKey e.key (t.root e.owner))

theorem Halted.after (s : Steps g t) (h : Halted t g') : Halted g g' := by
  cases h with
  | stepped steps => exact .stepped (s.trans steps)
  | dropped steps stored congruent result =>
      exact .dropped (s.trans steps) stored congruent result

/-- A graph that a failed rebuild leaves is well-formed, even with a node taken
out. -/
theorem Halted.wellFormed (hw : g.WellFormed) (h : Halted g g') : g'.WellFormed := by
  cases h with
  | stepped steps => exact steps.wellFormed hw
  | dropped steps stored _ result =>
      rw [result]
      exact (steps.wellFormed hw).dropKey stored

/-- The literal of a value may stay although the union with it fails. -/
theorem refold_error (stored : g.table.get? node.key = some e)
    (h : refold node y g = .error err g') :
    Steps g g' := by
  unfold refold at h
  rw [get_bind] at h
  cases hv : g.foldDerived? node with
  | some v =>
      rw [hv] at h
      obtain ⟨fn, l, r, a, b, rfl, ha, hb, rfl⟩ := foldDerived?_inv hv
      rcases equate_error (map_error_inv h) with rfl | ⟨hfresh, rfl⟩
      · exact .refl
      · exact .single (.literal stored ha hb hfresh)
  | none =>
      rw [hv] at h
      cases h

/-- A node is stored again without failing, unless it is congruent to another one. -/
theorem rekey_error (he : g.table.get? e.key = some e)
    (h : rekey e (g.canonical e.node) (g.root e.owner) g = .error err g') :
    Halted g g' := by
  unfold rekey at h
  split at h
  · next e' hc => exact .dropped .refl he hc (unite_error (map_error_inv h))
  · cases h

/-- Repairing a parent fails when it is stored again or when its width is computed
anew. In the second case everything up to there were steps. -/
theorem repairParent_error (hw : g.WellFormed)
    (h : repairParent key g = .error err g') :
    Halted g g' := by
  unfold repairParent at h
  rw [get_bind] at h
  cases he : g.table.get? key with
  | none =>
      rw [he] at h
      cases h
  | some e =>
      rw [he] at h
      obtain rfl := WellFormed.key_eq he
      rcases bind_error_inv h with hrekey | ⟨⟨⟩, g₁, hrekey, h⟩
      · exact rekey_error he hrekey
      · rcases bind_error_inv h with hlist | ⟨⟨⟩, g₂, hlist, hfold⟩
        · cases hlist
        · obtain rfl := modify_inv hlist
          obtain ⟨step, e', he', -⟩ := rekey_steps hw he hrekey
          have hlisted := enlist_enlists g₁ (g.canonical e.node).key
          have hstored : (g₁.enlist (g.canonical e.node).key).table.get?
              (g.canonical e.node).key = some e' := by
            rw [hlisted.table]
            exact he'
          exact .stepped (.head step
            ((Steps.of_enlists hlisted).trans (refold_error hstored hfold)))

/-- The repair of a class fails at one of its parents, and has made steps before. -/
theorem repair_error (hw : g.WellFormed) (h : repair x g = .error err g') :
    Halted g g' := by
  unfold repair at h
  rw [get_bind, get_bind] at h
  rcases bind_error_inv h with hclear | ⟨⟨⟩, g₁, hclear, h⟩
  · cases hclear
  · obtain rfl := modify_inv hclear
    rcases bind_error_inv h with hloop | ⟨⟨⟩, g₂, -, hlast⟩
    · obtain ⟨key, -, t, ht, hfail⟩ := forM_error_inv (I := Steps g)
        (fun key _ s t hs hrun =>
          hs.trans (repairParent_steps (hs.wellFormed hw) hrun))
        (steps_cleared g x) hloop
      exact (repairParent_error (ht.wellFormed hw) hfail).after ht
    · cases hlast

/-- A pass fails at one of its classes, and has made steps before, as have the passes
that were completed. -/
theorem rebuildPasses_error (hw : g.WellFormed) {passes : ℕ}
    (h : rebuildPasses passes g = .error err g') : Halted g g' := by
  induction passes generalizing g with
  | zero => cases h
  | succ passes ih =>
      unfold rebuildPasses at h
      rw [get_bind] at h
      split at h
      · cases h
      · rcases bind_error_inv h with htake | ⟨⟨⟩, g₁, htake, h⟩
        · cases htake
        · obtain rfl := modify_inv htake
          have htaken := steps_take_pending g
          rcases bind_error_inv h with hloop | ⟨⟨⟩, g₂, hloop, hlater⟩
          · obtain ⟨p, -, t, ht, hfail⟩ := forM_error_inv (I := Steps g)
              (fun p _ s t hs hrun =>
                hs.trans (repair_steps (hs.wellFormed hw) hrun)) htaken hloop
            exact (repair_error (ht.wellFormed hw) hfail).after ht
          · have hsteps : Steps g g₂ :=
              htaken.trans (steps_of_forM_repair (htaken.wellFormed hw) hloop)
            exact (ih (hsteps.wellFormed hw) hlater).after hsteps

/-- So a rebuild that fails has made steps and has at most dropped one node. -/
theorem rebuild_error (hw : g.WellFormed) (h : rebuild g = .error err g') :
    Halted g g' := by
  unfold rebuild at h
  rw [get_bind] at h
  exact rebuildPasses_error hw h

/-! ## Patterns and equations -/

/-- Adding a pattern fails at one of its layers, after calls for those that were
added, or at a variable that is not bound. -/
theorem instantiate_error (hw : g.WellFormed)
    (h : instantiate s p g = .error err g') : Aborted g g' := by
  induction p using Pattern.layers generalizing g g' with
  | var name =>
      unfold instantiate at h
      cases hs : s.get? name with
      | some ref => rw [hs] at h; cases h
      | none => rw [hs] at h; cases h; exact .called .refl
  | node n ih =>
      rw [instantiate_ofNode] at h
      rcases bind_error_inv h with hslots | ⟨refs, g₁, hslots, hadd⟩
      · obtain ⟨q, hq, t, ht, hfail⟩ := mapM_error_inv (I := Calls g)
          (fun q _ s r t hs hrun =>
            hs.trans (instantiate_calls (Calls.wellFormed hw hs) hrun)) .refl hslots
        exact (ih q hq (Calls.wellFormed hw ht) hfail).after ht
      · obtain ⟨hcalls, -⟩ := mapM_inv (I := Calls g) (P := fun _ _ _ => True)
          (fun q _ t r t' ht hrun =>
            ⟨ht.trans (instantiate_calls (Calls.wellFormed hw ht) hrun), trivial,
              fun hp => hp⟩) .refl hslots
        have hfail := add_error (Calls.wellFormed hw hcalls) (map_error_inv hadd)
        exact hfail.after hcalls

/-- A term that has variables is refused before anything is added. -/
theorem addGround_error (hw : g.WellFormed) (h : addGround p g = .error err g') :
    Aborted g g' := by
  unfold addGround at h
  split at h
  · exact instantiate_error hw h
  · cases h
    exact .called .refl

theorem loading_error_inv {α : Type} {x : GraphM α} {e : LoadError}
    (h : loading x g = .error e g') : ∃ err, x g = .error err g' := by
  unfold loading at h
  cases hx : x g with
  | ok a t => rw [hx] at h; cases h
  | error err t => rw [hx] at h; cases h; exact ⟨err, rfl⟩

/-- A text that is not read changes nothing, and one that is read is added as a
term. -/
theorem load_error (hw : g.WellFormed) {text : String} {e : LoadError}
    (h : load text g = .error e g') : Aborted g g' := by
  rcases bind_error_inv h with hread | ⟨term, t, hread, hload⟩
  · unfold reading at hread
    cases hp : Pattern.parse text with
    | ok p => rw [hp] at hread; cases hread
    | error e => rw [hp] at hread; cases hread; exact .called .refl
  · unfold reading at hread
    cases hp : Pattern.parse text with
    | error e => rw [hp] at hread; cases hread
    | ok p =>
        rw [hp] at hread
        obtain ⟨-, rfl⟩ := pure_inv hread
        obtain ⟨err, hadd⟩ := loading_error_inv hload
        exact addGround_error hw hadd

/-- An application fails while it adds its right side, or when the two classes are to
be united, which changes nothing more. -/
theorem applyAt_error (hw : g.WellFormed) (h : applyAt app g = .error err g') :
    Aborted g g' := by
  rcases bind_error_inv h with hinst | ⟨ref, g₁, hinst, h⟩
  · exact instantiate_error hw hinst
  · have hcalls := instantiate_calls hw hinst
    rcases bind_error_inv h with hask | ⟨l, t, hask, hrest⟩
    · rw [(ask_error_inv hask).2]
      exact .called hcalls
    · obtain ⟨-, rfl⟩ := ask_inv hask
      rcases bind_error_inv hrest with hask | ⟨r, t, hask, hlast⟩
      · rw [(ask_error_inv hask).2]
        exact .called hcalls
      · obtain ⟨-, rfl⟩ := ask_inv hask
        split at hlast
        · cases hlast
        · rcases bind_error_inv hlast with hunite | ⟨z, t, -, hpure⟩
          · rw [unite_error hunite]
            exact .called hcalls
          · cases hpure

/-- A list of applications fails at one of them, after calls for those before it. -/
theorem applyEach_error (hw : g.WellFormed) (h : applyEach apps g = .error err g') :
    Aborted g g' := by
  obtain ⟨app, -, n, t, ht, hfail⟩ :=
    foldlM_error_inv (I := Calls g) (fun app _ n s m t hs hrun => by
      obtain ⟨b, t', hb, hpure⟩ := bind_inv hrun
      obtain ⟨-, rfl⟩ := pure_inv hpure
      exact hs.trans (applyAt_calls (Calls.wellFormed hw hs) hb)) .refl h
  rcases bind_error_inv hfail with hb | ⟨b, t', -, hpure⟩
  · exact (applyAt_error (Calls.wellFormed hw ht) hb).after ht
  · cases hpure

/-- After calls that succeeded, an application of equations fails. -/
def FailsApplying (g g' : EGraph) : Prop :=
  ∃ t apps err, Calls g t ∧ applyEach apps t = .error err g'

/-- After calls that succeeded, a rebuild fails. -/
def FailsRebuilding (g g' : EGraph) : Prop :=
  ∃ t err, Calls g t ∧ rebuild t = .error err g'

theorem applying_or_rebuilding_after (c : Calls g t)
    (h : FailsApplying t g' ∨ FailsRebuilding t g') :
    FailsApplying g g' ∨ FailsRebuilding g g' :=
  h.imp (fun ⟨s, apps, err, calls, fails⟩ => ⟨s, apps, err, c.trans calls, fails⟩)
    fun ⟨s, err, calls, fails⟩ => ⟨s, err, c.trans calls, fails⟩

/-- A round fails in its applications or in the repair after them. -/
theorem applyAll_error (hw : g.WellFormed) (h : applyAll apps g = .error err g') :
    FailsApplying g g' ∨ FailsRebuilding g g' := by
  rcases bind_error_inv h with heach | ⟨n, g₁, heach, h⟩
  · exact Or.inl ⟨_, _, _, .refl, heach⟩
  · rcases bind_error_inv h with hrebuild | ⟨⟨⟩, t, -, hpure⟩
    · exact Or.inr ⟨_, _, applyEach_calls hw heach, hrebuild⟩
    · cases hpure

/-- Searching does not fail in a well-formed graph, so a single application of an
equation fails in one of its two repairs or while applying. -/
theorem applyOnce_error (hw : g.WellFormed) (h : applyOnce eqn g = .error err g') :
    FailsApplying g g' ∨ FailsRebuilding g g' := by
  rcases bind_error_inv h with hrebuild | ⟨⟨⟩, g₁, hrebuild, h⟩
  · exact Or.inr ⟨_, _, .refl, hrebuild⟩
  · have hcalls : Calls g g₁ := .single (.rebuild hrebuild)
    have hw₁ := Calls.wellFormed hw hcalls
    obtain ⟨apps, happs⟩ := exists_applications hw₁ [eqn]
    rcases bind_error_inv h with hask | ⟨apps', t, hask, hall⟩
    · rw [(ask_error_inv hask).1] at happs
      cases happs
    · obtain ⟨-, rfl⟩ := ask_inv hask
      exact applying_or_rebuilding_after hcalls (applyAll_error hw₁ hall)

/-- Rounds fail in one of them, to which they come with an invariant of the earlier
ones. -/
theorem saturateRounds_error_inv {P : EGraph → Prop}
    (step : ∀ g g' apps n, P g → g.applications equations = .ok apps →
      applyAll apps g = .ok n g' → P g')
    {rounds : ℕ} {pr : Progress} (h0 : P g)
    (h : saturateRounds equations o rounds pr g = .error err g') :
    ∃ t, P t ∧ ((t.applications equations = .error err ∧ g' = t) ∨
      ∃ apps, t.applications equations = .ok apps ∧
        applyAll apps t = .error err g') := by
  induction rounds generalizing g pr with
  | zero => cases h
  | succ rounds ih =>
      unfold saturateRounds at h
      rw [get_bind] at h
      split at h
      · cases h
      · rcases bind_error_inv h with hask | ⟨apps, t, hask, hround⟩
        · exact ⟨g, h0, Or.inl (ask_error_inv hask)⟩
        · obtain ⟨happs, rfl⟩ := ask_inv hask
          rcases bind_error_inv hround with hall | ⟨n, g₁, hall, hrest⟩
          · exact ⟨t, h0, Or.inr ⟨apps, happs, hall⟩⟩
          · rw [get_bind] at hrest
            split at hrest
            · cases hrest
            · exact ih (step t g₁ apps n h0 happs hall) hrest

/-- Rounds fail in the same ways, after rounds that were calls. -/
theorem saturateRounds_error (hw : g.WellFormed) {rounds : ℕ} {pr : Progress}
    (h : saturateRounds equations o rounds pr g = .error err g') :
    FailsApplying g g' ∨ FailsRebuilding g g' := by
  obtain ⟨t, ht, ⟨happs, -⟩ | ⟨apps, -, hall⟩⟩ :=
    saturateRounds_error_inv (P := Calls g)
    (fun s t apps n hs _ hall =>
      hs.trans (applyAll_calls (Calls.wellFormed hw hs) hall)) .refl h
  · obtain ⟨apps, hok⟩ := exists_applications (Calls.wellFormed hw ht) equations
    rw [happs] at hok
    cases hok
  · exact applying_or_rebuilding_after ht
      (applyAll_error (Calls.wellFormed hw ht) hall)

/-- So does a run, whose first repair may fail, too. -/
theorem saturate_error (hw : g.WellFormed)
    (h : saturate equations o g = .error err g') :
    FailsApplying g g' ∨ FailsRebuilding g g' := by
  rcases bind_error_inv h with hrebuild | ⟨⟨⟩, g₁, hrebuild, h⟩
  · exact Or.inr ⟨_, _, .refl, hrebuild⟩
  · have hcalls : Calls g g₁ := .single (.rebuild hrebuild)
    rcases bind_error_inv h with hrounds | ⟨pr, t, -, h⟩
    · exact applying_or_rebuilding_after hcalls
        (saturateRounds_error (Calls.wellFormed hw hcalls) hrounds)
    · cases h

/-! ## Runs with failures -/

/-- The operation fails on the first graph and leaves the second one. -/
def Operation.Fails (g g' : EGraph) : Operation → Prop
  | add node => ∃ err, EGraph.add node g = .error err g'
  | addTerm term => ∃ err, EGraph.addGround term g = .error err g'
  | addText text => ∃ err, EGraph.load text g = .error err g'
  | merge a b => ∃ err, EGraph.merge a b g = .error err g'
  | rebuild => ∃ err, EGraph.rebuild g = .error err g'
  | applyOnce eqn => ∃ err, EGraph.applyOnce eqn g = .error err g'
  | saturate equations o => ∃ err, EGraph.saturate equations o g = .error err g'

/-- The operation fails outside of a rebuild. -/
def Operation.FailsOutside (g g' : EGraph) : Operation → Prop
  | add node => ∃ err, EGraph.add node g = .error err g'
  | addTerm term => ∃ err, EGraph.addGround term g = .error err g'
  | addText text => ∃ err, EGraph.load text g = .error err g'
  | merge a b => ∃ err, EGraph.merge a b g = .error err g'
  | rebuild => False
  | applyOnce _ | saturate .. => FailsApplying g g'

/-- Every failure is one outside of a rebuild, or it happens in a rebuild after calls
that succeeded. -/
theorem Operation.outside_or_rebuilding (hw : g.WellFormed) {op : Operation}
    (h : op.Fails g g') : op.FailsOutside g g' ∨ FailsRebuilding g g' := by
  cases op with
  | add | addTerm | addText | merge => exact Or.inl h
  | rebuild => exact Or.inr ⟨g, h.choose, .refl, h.choose_spec⟩
  | applyOnce => exact applyOnce_error hw h.choose_spec
  | saturate => exact saturate_error hw h.choose_spec

/-- Failures outside of a rebuild leave what `Aborted` says. -/
theorem Operation.FailsOutside.aborted (hw : g.WellFormed) {op : Operation}
    (h : op.FailsOutside g g') : Aborted g g' := by
  cases op with
  | add => exact add_error hw h.choose_spec
  | addTerm => exact addGround_error hw h.choose_spec
  | addText => exact load_error hw h.choose_spec
  | merge => exact .called (merge_error h.choose_spec ▸ .refl)
  | rebuild => exact h.elim
  | applyOnce | saturate =>
      obtain ⟨t, apps, err, calls, fails⟩ := h
      exact (applyEach_error (Calls.wellFormed hw calls) fails).after calls

/-- Whatever fails, the graph that is left is well-formed. -/
theorem Operation.Fails.wellFormed (hw : g.WellFormed) {op : Operation}
    (h : op.Fails g g') : g'.WellFormed := by
  rcases Operation.outside_or_rebuilding hw h with h | ⟨t, err, calls, fails⟩
  · exact (h.aborted hw).wellFormed hw
  · have ht := Calls.wellFormed hw calls
    exact (rebuild_error ht fails).wellFormed ht

/-- The graphs that operations lead to, whether or not they fail. -/
inductive Visited : EGraph → Prop
  | empty : Visited .empty
  | run {g g' : EGraph} (op : Operation) (start : Visited g)
      (runs : op.Runs g g') : Visited g'
  | fail {g g' : EGraph} (op : Operation) (start : Visited g)
      (fails : op.Fails g g') : Visited g'

theorem Reached.visited (h : Reached g) : Visited g := by
  induction h with
  | empty => exact .empty
  | run op _ runs ih => exact .run op ih runs

theorem Visited.wellFormed (h : Visited g) : g.WellFormed := by
  induction h with
  | empty => exact wellFormed_empty
  | run op _ runs ih => exact Calls.wellFormed ih (op.calls ih runs)
  | fail op _ fails ih => exact fails.wellFormed ih

end EGraph

end Datapath
