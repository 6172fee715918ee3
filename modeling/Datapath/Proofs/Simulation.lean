import Datapath.Proofs.Observations

/-!
# Datapath.Proofs.Simulation

Repairs and runs of equations on the maps.

A repair deletes keys from one map after the other and files nodes anew in between.
Wherever it can fail, the maps are parts of one table again, so it agrees with the
repair of the graph in failure, too. As searches only read, so do the runs of
equations.
-/

namespace Datapath.Concrete

variable {α β : Type} {c c' : Concrete} {g g' : EGraph} {f : UnionFind}
  {id x y : ClassId} {key node : Node ClassId} {e : Entry} {s : Subst}
  {p : Pattern} {ref : Int}

/-! ## Repairs -/

/-- A parent that now computes a number is united with the literal of it. -/
theorem agree_refold (h : Models c g) (hc : ∀ d ∈ node.children, d < g.issued)
    (hx : x < g.issued) : Agree (refold node x) (EGraph.refold node x) c g := by
  obtain ⟨f, hf, hfold⟩ := h.fold hc
  refine .after hfold ?_
  rw [width?_fold]
  cases hv : g.foldDerived? node with
  | none =>
      refine (Agree.pure (h.look hf) ()).congr ?_
      rw [EGraph.refold, get_bind, hv]
  | some v =>
      refine (agree_equate (h.look hf) hx v).map.congr ?_
      rw [EGraph.refold, get_bind, hv]
      rfl

/-- Without a key, and without it in the lists of its class, the maps stand for the
graph from which it has been dropped. -/
theorem models_dropKey (h : Models c g) (he : g.table.get? e.key = some e) :
    Models ((c.unfile e.key).dropKey e.key (g.root e.owner))
      (g.dropKey e.key (g.root e.owner)) where
  toShows := by
    refine .of_maps ⟨h.forest, ?_⟩ h.pending fun k => ?_
    · simp only [dropKey, unfile, forget, modifyRecord, EGraph.dropKey,
        EGraph.modifyRecord, h.classes]
    · rw [EGraph.get?_dropKey]
      simp only [dropKey, unfile, forget, modifyRecord, KeyMap.erase, h.hashcons,
        h.store, h.owner]
      split <;> exact ⟨rfl, rfl, rfl⟩
  wellFormed := h.wellFormed.dropKey he
  listed hi k e' he' d hd := by
    rw [(EGraph.dropKey_sameFrame g e.key _).root,
      (EGraph.dropKey_sameFrame g e.key _).parents]
    exact h.listed hi (EGraph.get?_dropKey_inv he').2 d hd

/-- Filing a node under another key, or under its own one again, gives the maps of
the graph that has restored it. -/
theorem shows_refile (h : Shows c g) (he : g.table.get? e.key = some e)
    (node : Node ClassId) (x : ClassId) :
    Shows ((c.unfile e.key).refile e.key node x) (g.restore e node x) := by
  have hframe := EGraph.restore_sameFrame g e node x
  have hget := EGraph.get?_restore he node x
  have hpending := h.pending.trans hframe.pending.symm
  by_cases hkey : node.key = e.key
  · rw [refile, if_pos hkey]
    refine .of_maps ⟨?_, ?_⟩ hpending fun k => ?_
    · rw [hframe.sets]
      exact h.forest
    · unfold EGraph.restore
      rw [if_pos (Node.same_iff.2 hkey)]
      split <;> exact h.classes
    · rw [hget]
      simp only [file, unfile, KeyMap.insert, KeyMap.erase, h.hashcons,
        h.store, h.owner]
      grind
  · rw [refile, if_neg hkey]
    refine .of_maps ⟨?_, ?_⟩ hpending fun k => ?_
    · rw [hframe.sets]
      exact h.forest
    · unfold EGraph.restore
      rw [if_neg fun hsame => hkey (Node.same_iff.1 hsame)]
      simp only [file, unfile, forget, modifyRecord, EGraph.modifyRecord, h.classes]
    · rw [hget]
      simp only [file, unfile, forget, modifyRecord, KeyMap.insert, KeyMap.erase,
        h.hashcons, h.store, h.owner]
      grind

/-- A node is filed anew in the maps as it is in the table. A repair is under way, so
that its key may wait for being listed. -/
theorem agree_rekey (h : Models c g) (he : g.table.get? e.key = some e)
    (hi : g.intact = false) :
    Agree (rekey e.key (g.canonical e.node) (g.root e.owner))
      (EGraph.rekey e (g.canonical e.node) (g.root e.owner)) (c.unfile e.key) g := by
  have hw := h.wellFormed
  have howner := hw.root_lt (hw.owner_lt he)
  refine .read ?_
  cases hcongr : g.congruent? e (g.canonical e.node) with
  | some e' =>
      obtain ⟨hne, he'⟩ := EGraph.congruent?_inv hcongr
      have hfound : (c.unfile e.key).hashcons (g.canonical e.node).key =
          some e'.owner := by
        simp only [unfile, KeyMap.erase, if_neg hne, h.hashcons_some he']
      rw [hfound]
      have hframes : Frames (c.unfile e.key) g := ⟨h.forest, h.classes⟩
      -- without the key the maps stand for the graph from which it has been dropped
      have hmerge := agree_merge (x := g.root e.owner) (y := e'.owner)
        (models_dropKey h he) howner (hw.owner_lt he')
        (Datapath.find_natCast howner) (Datapath.find_natCast (hw.owner_lt he'))
      refine .after (hframes.requireClass hw howner)
        (.after rfl (hmerge.map.congr ?_))
      rw [EGraph.rekey, hcongr]
      rfl
  | none =>
      have hfree : (c.unfile e.key).hashcons (g.canonical e.node).key = none := by
        simp only [unfile, KeyMap.erase]
        rcases EGraph.congruent?_eq_none hcongr with hsame | hnone
        · rw [if_pos hsame]
        · rw [h.hashcons_none hnone, ite_self]
      rw [hfree]
      have hrun : EGraph.rekey e (g.canonical e.node) (g.root e.owner) g =
          .ok () (g.restore e (g.canonical e.node) (g.root e.owner)) := by
        rw [EGraph.rekey, hcongr]
      refine .ok rfl hrun ⟨shows_refile h.toShows he _ _, hw.restore he hcongr,
        fun hintact => ?_⟩
      rw [EGraph.intact_rekey hrun, hi] at hintact
      cases hintact

/-- A node is listed with its children on the maps as in the graph. -/
theorem Models.registerParent (h : Models c g)
    (hc : ∀ d ∈ node.children, d < g.issued) :
    ∃ c', registerParent node.key node c = .ok () c' ∧
      Models c' (g.enlist node.key) := by
  obtain ⟨f, hf, hrun⟩ := h.toFrames.registerParent hc
  have hlist := EGraph.enlist_enlists g node.key
  rw [← Node.children_key node] at hrun
  refine ⟨_, hrun,
    .of_maps ⟨?_, rfl⟩ (h.pending.trans hlist.pending.symm) fun k => ?_,
    h.wellFormed.of_enlists hlist, fun hi => ?_⟩
  · rw [hlist.sets]
    exact hf.trans h.forest
  · rw [hlist.table]
    exact ⟨h.hashcons k, h.store k, h.owner k⟩
  · rw [EGraph.intact_enlist] at hi
    exact (h.listed hi).of_enlists hlist

/-- Bringing a parent up to date, in a repair that is under way. -/
theorem agree_repairParent (h : Models c g) (hi : g.intact = false)
    (key : Node ClassId) :
    Agree (repairParent key) (EGraph.repairParent key) c g := by
  have hw := h.wellFormed
  refine .get ?_
  rw [h.store, h.owner]
  cases he : g.table.get? key with
  | none => exact .pure h ()
  | some e =>
      obtain rfl := EGraph.WellFormed.key_eq he
      have hc : ∀ d ∈ e.node.children, d < g.issued := fun d hd =>
        hw.child_lt he d (by rwa [Entry.key, Node.children_key])
      have hcanon := EGraph.canonical_children hw hc
      obtain ⟨f, hf, hfind⟩ := h.find_natCast (hw.owner_lt he)
      have hlooked := h.look hf
      have hframes : Frames (({ c with forest := f } : Concrete).unfile e.key) g :=
        ⟨hlooked.forest, hlooked.classes⟩
      -- the key is gone from the maps by now, but look-ups read the forest only
      obtain ⟨f', hf', hcanonical⟩ := hframes.canonicalize_ofNat hc
      refine .after hfind (.after rfl (.after hcanonical ?_))
      refine (agree_rekey (hlooked.look hf') he hi).bind fun _ c₁ t hrekey hm => ?_
      have hlt {d : ClassId} (hd : d < g.issued) : d < t.issued :=
        EGraph.lt_of_rekey hw he hrekey hd
      obtain ⟨c₂, hregister, hm₂⟩ :=
        hm.registerParent fun d hd => hlt (hcanon d hd).1
      have hissued : (t.enlist (g.canonical e.node).key).issued = t.issued :=
        (EGraph.enlist_enlists t _).issued
      refine .after hregister
        (Agree.congr (agree_refold hm₂ (fun d hd => ?_) ?_) rfl)
      · rw [hissued]
        exact hlt (hcanon d hd).1
      · rw [hissued]
        exact hlt (hw.root_lt (hw.owner_lt he))

/-- Listing nodes again that are stored. -/
theorem Models.relist (h : Models c g) (l : List (Node ClassId)) :
    ∃ c', l.forM relistKey c = .ok () c' ∧
      Models c' (l.foldl EGraph.enlistStored g) := by
  induction l generalizing c g with
  | nil => exact ⟨c, rfl, h⟩
  | cons key rest ih =>
      have hfirst :
          ∃ c', relistKey key c = .ok () c' ∧ Models c' (g.enlistStored key) := by
        have hstored : g.enlistStored key =
            if (g.table.get? key).isSome then g.enlist key else g := by
          rw [← NodeTable.containsAt_code]
          rfl
        rw [relistKey, get_bind, h.store, hstored]
        cases he : g.table.get? key with
        | none => exact ⟨c, rfl, h⟩
        | some e =>
            obtain rfl := EGraph.WellFormed.key_eq he
            exact h.registerParent fun d hd =>
              h.wellFormed.child_lt he d (by rwa [Entry.key, Node.children_key])
      obtain ⟨c', hrun, hm⟩ := hfirst
      obtain ⟨c'', hrest, hm'⟩ := ih hm
      exact ⟨c'', (bind_ok hrun).trans hrest, hm'⟩

/-- A repair on the maps lists the nodes of the class again in any case, which
changes nothing if they are listed. -/
theorem agree_repair (h : Models c g) (hid : id < g.issued) (hroot : g.root id = id) :
    Agree (repair id) (EGraph.repair id) c g := by
  have hw := h.wellFormed
  refine .get ?_
  rw [if_pos (by rwa [h.classes, hw.classes_size]), h.record]
  have hclear : Models (c.modifyRecord id fun r => { r with parents := .empty })
      (g.cleared id) := by
    refine ⟨⟨⟨h.forest, ?_⟩, h.hashcons, h.store, h.owner, h.pending⟩,
      (EGraph.steps_cleared g id).wellFormed hw, fun hi => ?_⟩
    · simp only [modifyRecord, EGraph.cleared, EGraph.modifyRecord, h.classes]
    · cases hi
  have hloop : Agree ((g.record id).parents.toList.forM repairParent)
      ((g.record id).parents.toList.forM EGraph.repairParent)
      (c.modifyRecord id fun r => { r with parents := .empty }) (g.cleared id) :=
    .forM (I := fun t => t.intact = false) hclear rfl fun key _ c' t hm hi =>
      ⟨agree_repairParent hm hi key, fun t' hrun =>
        (EGraph.intact_repairParent hrun).trans hi⟩
  refine .after rfl (Agree.congr (hloop.bind fun _ c₂ g₂ hrun hm => ?_) rfl)
  -- the graph does not know during the loop whether earlier repairs have failed; now
  -- it matters
  have hi : g₂.intact = false := forM_induction (fun _ t => t.intact = false)
    (fun key _ t t' ht hstep => (EGraph.intact_repairParent hstep).trans ht) rfl hrun
  obtain ⟨c₃, hrelist, hm₃⟩ := hm.relist (g₂.record id).nodes.toList
  refine .read ?_
  rw [hm.record]
  by_cases hintact : g.intact = true
  · -- none has failed, so all nodes are listed and listing those of the class again
    -- changes nothing
    have hall : EGraph.repair id g = .ok () { g₂ with intact := true } := by
      rw [EGraph.repair, get_bind, get_bind]
      refine (bind_ok rfl).trans ((bind_ok hrun).trans ?_)
      rw [hintact]
      rfl
    rw [← hroot] at hall
    have hdone : EGraph.Listed { g₂ with intact := true } :=
      (h.listed hintact).repair hw hall
    have hlisted : g₂.Listed := hdone
    have hsame : (g₂.record id).nodes.toList.foldl EGraph.enlistStored g₂ = g₂ :=
      hlisted.relist_eq id
    rw [hsame] at hm₃
    have hm₄ : Models c₃ { g₂ with intact := true } := by
      refine ⟨⟨⟨hm₃.forest, hm₃.classes⟩, hm₃.hashcons, hm₃.store, hm₃.owner,
        hm₃.pending⟩, ?_, fun _ => hdone⟩
      exact hm₃.wellFormed.of_sameContent ⟨rfl, rfl, rfl, fun _ => rfl, fun _ => rfl,
        fun _ => rfl⟩ hm₃.wellFormed.pending_lt
    refine .ok hrelist ?_ hm₄
    rw [hintact]
    rfl
  · refine .ok hrelist ?_ hm₃
    rw [Bool.eq_false_iff.2 hintact]
    rfl

/-- Passes agree, by induction on how many are left. Each takes the pending classes
off the queue before it repairs them, so a failure leaves the same classes behind. -/
theorem agree_rebuildPasses (h : Models c g) (passes : ℕ) :
    Agree (rebuildPasses passes) (EGraph.rebuildPasses passes) c g := by
  induction passes generalizing c g with
  | zero => exact .pure h ()
  | succ passes ih =>
      unfold rebuildPasses EGraph.rebuildPasses
      refine .get ?_
      rw [h.pending]
      dsimp only
      split
      · exact .pure h ()
      · have hw := h.wellFormed
        have htaken : Models { c with pending := #[] } { g with pending := #[] } :=
          ⟨⟨⟨h.forest, h.classes⟩, h.hashcons, h.store, h.owner, rfl⟩,
            (EGraph.steps_take_pending g).wellFormed hw, h.listed⟩
        refine Agree.bind (.ok rfl rfl htaken) fun _ c₁ g₁ htake hm₁ => ?_
        obtain rfl := modify_inv htake
        refine (Agree.forM (I := fun t => g.issued ≤ t.issued) hm₁ le_rfl
          fun p hp c' t hm hle => ?_).bind fun _ c' t _ hm => ih hm
        have hlt : p < t.issued :=
          Nat.lt_of_lt_of_le (hw.pending_lt p (Array.mem_toList_iff.1 hp)) hle
        obtain ⟨f, hf, hfind⟩ := hm.find_natCast hlt
        have hrepair := agree_repair (hm.look hf) (hm.wellFormed.root_lt hlt)
          (hm.wellFormed.root_root p)
        refine ⟨.after hfind (hrepair.congr rfl), fun t' hrun => hle.trans ?_⟩
        rw [get_bind] at hrun
        exact (EGraph.Steps.extends hm.wellFormed
          (EGraph.repair_steps hm.wellFormed hrun)).issued_le

theorem agree_rebuild (h : Models c g) : Agree rebuild EGraph.rebuild c g := by
  refine .get ?_
  rw [h.forest.size]
  exact agree_rebuildPasses h _

/-- A rebuild that succeeds leaves nothing pending, so it does not stop for having
run out of passes. -/
theorem rebuild_pending (h : Models c g) {c' : Concrete}
    (hrun : rebuild c = .ok () c') : c'.pending = #[] := by
  cases agree_rebuild h with
  | ok concrete run models =>
      obtain ⟨-, rfl⟩ := EStateM.Result.ok.inj (concrete.symm.trans hrun)
      rw [models.pending]
      exact EGraph.rebuild_pending h.wellFormed run
  | error concrete _ _ => cases concrete.symm.trans hrun

/-- Uniting the classes that two references mean. -/
theorem agree_mergeAt (h : Models c g) (a b : Int) :
    Agree (merge a b) (EGraph.merge a b) c g := by
  obtain ⟨f, hf, hfind⟩ := h.find a
  have h₁ := h.look hf
  cases ha : g.find a with
  | error e =>
      rw [ha] at hfind
      exact .error (bind_error hfind) (bind_error (by rw [EGraph.ask, ha])) h₁
  | ok x =>
      rw [ha] at hfind
      obtain ⟨f', hf', hfind'⟩ := h₁.find b
      have hfirst : EGraph.ask (·.find a) g = .ok x g := by rw [EGraph.ask, ha]
      cases hb : g.find b with
      | error e =>
          rw [hb] at hfind'
          exact .error ((bind_ok hfind).trans (bind_error hfind'))
            ((bind_ok hfirst).trans (bind_error (by rw [EGraph.ask, hb])))
            (h₁.look hf')
      -- both references are known, so what they mean is united
      | ok y =>
          have hroot {ref : Int} {id : ClassId} (hfind : g.find ref = .ok id) :
              id < g.issued ∧ g.find ref = .ok (g.root id) := by
            obtain ⟨-, hlt, rfl⟩ := EGraph.find_inv hfind
            exact ⟨h.wellFormed.root_lt hlt, by rw [hfind, h.wellFormed.root_root]⟩
          refine (agree_merge h (hroot ha).1 (hroot hb).1 (hroot ha).2
            (hroot hb).2).congr ?_
          exact (bind_ok hfirst).trans (bind_ok (by rw [EGraph.ask, hb]))

/-! ## Patterns -/

/-- A layer is added after its slots, from left to right. -/
theorem instantiate_ofNode (s : Subst) (n : Node Pattern) :
    instantiate s (.ofNode n) = (do
      let refs ← n.children.mapM (instantiate s)
      Int.ofNat <$> add ((n.map fun _ => 0).withChildren refs)) := by
  cases n <;> simp [Pattern.ofNode, instantiate, Node.children, Node.map,
    Node.withChildren]

/-- Adding an instance agrees, by induction on the layers of the pattern: its slots
are added first, from left to right. -/
theorem agree_instantiate (h : Models c g) (s : Subst) (p : Pattern) :
    Agree (instantiate s p) (EGraph.instantiate s p) c g := by
  induction p using Pattern.layers generalizing c g with
  | var name =>
      unfold instantiate EGraph.instantiate
      cases s.get? name with
      | some ref => exact .pure h ref
      | none => exact .throw h _
  | node n ih =>
      rw [instantiate_ofNode, EGraph.instantiate_ofNode]
      refine (Agree.mapM h fun q hq c' g' hm => ih q hq hm).bind
        fun refs c' g' _ hm => ?_
      exact (agree_add hm _).map

theorem agree_addGround (h : Models c g) (p : Pattern) :
    Agree (addGround p) (EGraph.addGround p) c g := by
  unfold addGround EGraph.addGround
  split
  · exact agree_instantiate h [] p
  · exact .throw h _

/-! ## Equations -/

/-- An application agrees: the instance of the right side is added, and the two
classes are looked up and united if they are not one. -/
theorem agree_applyAt (h : Models c g) (app : Application) :
    Agree (applyAt app) (EGraph.applyAt app) c g := by
  refine (agree_instantiate h app.subst app.equation.rhs).bind
    fun right c₁ g₁ _ h₁ => ?_
  refine (Agree.ask h₁ (h₁.find app.id)).bind fun l c₂ g₂ hl h₂ => ?_
  refine (Agree.ask h₂ (h₂.find right)).bind fun r c₃ g₃ hr h₃ => ?_
  obtain ⟨hleft, rfl⟩ := EGraph.ask_inv hl
  obtain ⟨hright, rfl⟩ := EGraph.ask_inv hr
  have hw := h₃.wellFormed
  have hroot {ref : Int} {id : ClassId} (hfind : g₃.find ref = .ok id) :
      id < g₃.issued ∧ g₃.find id = .ok (g₃.root id) := by
    obtain ⟨-, hlt, rfl⟩ := EGraph.find_inv hfind
    exact ⟨hw.root_lt hlt, Datapath.find_natCast (hw.root_lt hlt)⟩
  split
  · exact .pure h₃ false
  · refine (agree_merge h₃ (hroot hleft).1 (hroot hright).1 (hroot hleft).2
      (hroot hright).2).bind ?_
    exact fun _ _ _ _ h₄ => .pure h₄ true

theorem agree_applyEach (h : Models c g) (apps : List Application) :
    Agree (applyEach apps) (EGraph.applyEach apps) c g :=
  .foldlM h fun app _ _ _ _ hm =>
    (agree_applyAt hm app).bind fun _ _ _ _ hm => .pure hm _

theorem agree_applyAll (h : Models c g) (apps : List Application) :
    Agree (applyAll apps) (EGraph.applyAll apps) c g :=
  (agree_applyEach h apps).bind fun _ _ _ _ hm =>
    (agree_rebuild hm).bind fun _ _ _ _ hm => .pure hm _

theorem agree_applications (h : Models c g) (equations : List Equation) :
    Agree (applications equations) (EGraph.ask (·.applications equations)) c g :=
  .ask h (reads_applications h equations)

theorem agree_applyOnce (h : Models c g) (eqn : Equation) :
    Agree (applyOnce eqn) (EGraph.applyOnce eqn) c g :=
  (agree_rebuild h).bind fun _ _ _ _ hm =>
    (agree_applications hm [eqn]).bind fun apps _ _ _ hm => agree_applyAll hm apps

/-- The number of classes is counted on the maps and read off the graph. -/
theorem agree_size {k : ℕ → ConcreteM α} {q : EGraph → GraphM α} (h : Models c g)
    (hk : ∀ {c'}, Models c' g → Agree (k g.size) (q g) c' g) :
    Agree (size >>= k) (get >>= q) c g := by
  obtain ⟨f, hf, hsize⟩ := reads_size h
  exact .after hsize ((hk (h.look hf)).congr rfl)

/-- Rounds agree, so both sides stop after the same one and for the same reason. -/
theorem agree_saturateRounds (h : Models c g) (equations : List Equation)
    (o : Options) (rounds : ℕ) (p : Progress) :
    Agree (saturateRounds equations o rounds p)
      (EGraph.saturateRounds equations o rounds p) c g := by
  induction rounds generalizing c g p with
  | zero => exact .pure h p
  | succ rounds ih =>
      unfold saturateRounds EGraph.saturateRounds
      refine agree_size h fun h₁ => ?_
      dsimp only
      split
      · exact .pure h₁ _
      · refine (agree_applications h₁ equations).bind fun apps _ _ _ h₂ => ?_
        refine (agree_applyAll h₂ apps).bind fun unions _ _ _ h₃ =>
          agree_size h₃ fun h₄ => ?_
        split
        · exact .pure h₄ _
        · exact ih h₄ _

theorem agree_saturate (h : Models c g) (equations : List Equation) (o : Options) :
    Agree (saturate equations o) (EGraph.saturate equations o) c g :=
  (agree_rebuild h).bind fun _ _ _ _ h₁ =>
    (agree_saturateRounds h₁ equations o _ {}).bind fun _ _ _ _ h₂ =>
      agree_size h₂ fun h₃ => .pure h₃ _

end Datapath.Concrete
