import Datapath.Proofs.Concrete
import Datapath.Proofs.Diagnostics

/-!
# Datapath.Proofs.Refinement

The maps are a graph.

`Models` relates what is kept to the graph that it stands for: the forests have the
same roots and ranks, all three maps are parts of the table, and the rest is the
same. Look-ups change pointers only (`Reads`), so they leave this relation alone. An
operation on the maps and the operation on the graph `Agree`: from related states
both succeed with one result, or both fail by one error, and in either case they end
in related states.

A repair on a graph does not list the nodes of its class again unless a repair has
failed before. The relation therefore says of a graph in which none has that all its
nodes are listed (`Listed`), and that lists grow no further.
-/

namespace Datapath

namespace Node

/-- Replacing children one after the other, by way of the list of them. -/
theorem mapExcept_eq_mapM {ε α β : Type} (f : α → Except ε β)
    (node : Node α) (b : β) :
    node.mapExcept f =
      (do return (node.map fun _ => b).withChildren (← node.children.mapM f)) := by
  cases node <;> simp [mapExcept, children, map, withChildren]

end Node

namespace EGraph

variable {g g' : EGraph} {id x y z w l : ClassId} {key node : Node ClassId}
  {e : Entry} {v : Binary64}

/-! ## Listed nodes -/

/-- Every stored node is among the parents of its children. -/
def Listed (g : EGraph) : Prop :=
  ∀ ⦃key e⦄, g.table.get? key = some e → ∀ c ∈ key.children,
    key ∈ (g.record (g.root c)).parents

theorem listed_of_tidy {T : List ClassId} (h : Tidy [] T g) : g.Listed :=
  fun key e he => (h key e he List.not_mem_nil).1.listed

/-- Where every class is due, it matters only that all nodes are listed. -/
theorem Listed.tidy (hw : g.WellFormed) (h : g.Listed) {T : List ClassId}
    (hT : ∀ c < g.issued, c ∈ T) : Tidy [] T g := by
  intro key e he _
  have hdue {c : ClassId} (hc : c ∈ key.children) : Due T g c :=
    ⟨c, Or.inl (hT c (hw.child_lt he c hc)), rfl⟩
  refine ⟨⟨h he, fun c hc => Or.inr (hdue hc)⟩, fun fn l r a b hk _ _ =>
    Or.inr (Or.inl (hdue ?_))⟩
  simp [hk, Node.children]

theorem listed_empty : empty.Listed := listed_of_tidy tidy_empty

theorem Listed.of_enlists (h : g.Listed) (hs : Enlists g g') : g'.Listed := by
  intro key e he c hc
  rw [hs.table] at he
  rw [hs.root]
  exact hs.parents (h he c hc)

theorem Listed.absorb (hw : g.WellFormed) (h : g.Listed) (hj : Joinable g w l) :
    (g.absorb w l).Listed :=
  fun key _ he =>
    ((h.tidy hw (fun _ => List.mem_range.2) key _ he List.not_mem_nil).1.absorb hw
      hj).listed

/-- A node that is given a class is listed there and then. -/
theorem Listed.issue (hw : g.WellFormed) (h : g.Listed)
    (hnew : g.table.get? node.key = none)
    (hc : ∀ c ∈ node.children, c < g.issued ∧ g.root c = c) :
    (g.issue node).Listed := by
  intro key e he
  by_cases hkey : key = node.key
  · rw [hkey]
    exact (placed_issue hw hc []).listed
  · exact ((h.tidy hw fun _ => List.mem_range.2).issue hw hnew key e he
      (by simpa using hkey)).1.listed

/-- A repair keeps all nodes listed if it succeeds. -/
theorem Listed.repair (hw : g.WellFormed) (h : g.Listed) {u : Unit}
    (hr : EGraph.repair (g.root id) g = .ok u g') : g'.Listed :=
  listed_of_tidy ((h.tidy hw fun _ hc =>
    List.mem_cons_of_mem id (List.mem_range.2 hc)).repair hw hr)

/-- Listing nodes again changes nothing where they are all listed. -/
theorem Listed.relist_eq (h : g.Listed) (id : ClassId) : g.relist id = g := by
  have hkey (key : Node ClassId) : g.enlistStored key = g := by
    unfold enlistStored
    dsimp only
    split
    · next hmem =>
      rw [NodeTable.containsAt_code, Option.isSome_iff_exists] at hmem
      obtain ⟨e, he⟩ := hmem
      refine List.foldlRecOn key.children _ (motive := (· = g)) rfl ?_
      rintro t rfl c hc
      rw [enlistAt, KeySet.containsAt_code,
        if_pos (KeySet.contains_iff.2 (h he c hc))]
    · rfl
  exact List.foldl_fixed' hkey _

/-- Listing a key puts it at the end of the parents, unless it is there already. -/
theorem classes_enlistAt (key : Node ClassId) (g : EGraph) (c : ClassId) :
    (enlistAt key.code key g c).classes =
      g.classes.modify (g.root c) fun e =>
        { e with parents := e.parents.add key } := by
  have hrecord {e : EClass} (he : g.classes[g.root c]? = some e) :
      g.record (g.root c) = e := by
    rw [record, Array.getD_eq_getD_getElem?, he, Option.getD_some]
  unfold enlistAt
  dsimp only
  rw [KeySet.containsAt_code]
  split
  · next hmem =>
    refine Array.ext_getElem? fun i => ?_
    rw [Array.getElem?_modify]
    split
    · next hi =>
      subst hi
      cases he : g.classes[g.root c]? with
      | none => rfl
      | some e =>
          rw [hrecord he] at hmem
          rw [Option.map_some, KeySet.add, if_pos hmem]
    · rfl
  · next hmem =>
    refine Array.ext_getElem? fun i => ?_
    rw [modifyRecord, Array.getElem?_modify, Array.getElem?_modify]
    split
    · next hi =>
      subst hi
      cases he : g.classes[g.root c]? with
      | none => rfl
      | some e =>
          rw [hrecord he] at hmem
          rw [Option.map_some, Option.map_some, KeySet.add, if_neg hmem]
    · rfl

/-! ## Unions that are not refused -/

/-- The order of two roots by rank, in which they can be joined if their constants
agree. -/
theorem exists_order (hw : g.WellFormed) (hx : x < g.issued) (hy : y < g.issued)
    (hne : g.root x ≠ g.root y) :
    ∃ w l, g.sets.order (g.root x) (g.root y) = (w, l) ∧ w < g.issued ∧
      l < g.issued ∧ (g.conflict? w l = none → Joinable g w l) := by
  have hxr := hw.root_lt hx
  have hyr := hw.root_lt hy
  rcases UnionFind.order_cases g.sets (g.root x) (g.root y) with
    ⟨ho, hrank⟩ | ⟨ho, hrank⟩
  · exact ⟨_, _, ho, hxr, hyr, fun hnone =>
      ⟨hxr, hyr, hw.root_root x, hw.root_root y, hne, hrank, hnone⟩⟩
  · exact ⟨_, _, ho, hyr, hxr, fun hnone =>
      ⟨hyr, hxr, hw.root_root y, hw.root_root x, Ne.symm hne, hrank, hnone⟩⟩

/-! ## Repairs that have not failed -/

theorem intact_enlistAt (code : ℕ) (key : Node ClassId) (g : EGraph) (c : ClassId) :
    (enlistAt code key g c).intact = g.intact := by
  unfold enlistAt
  dsimp only
  split <;> rfl

theorem intact_foldl {α : Type} {f : EGraph → α → EGraph}
    (hf : ∀ g a, (f g a).intact = g.intact) (l : List α) (g : EGraph) :
    (l.foldl f g).intact = g.intact :=
  List.foldlRecOn l f (motive := fun t => t.intact = g.intact) rfl fun t ht a _ =>
    (hf t a).trans ht

theorem intact_enlist (g : EGraph) (key : Node ClassId) :
    (g.enlist key).intact = g.intact :=
  intact_foldl (intact_enlistAt _ _) _ _

/-- Nothing but a repair touches the mark of failed repairs. -/
theorem intact_unite (h : unite x y g = .ok z g') : g'.intact = g.intact := by
  unfold unite at h
  dsimp only at h
  split at h
  · cases h
    rfl
  · split at h <;> cases h
    rfl

theorem intact_equate (h : equate v x g = .ok z g') : g'.intact = g.intact := by
  obtain ⟨a, t, henter, hunite⟩ := bind_inv h
  refine (intact_unite hunite).trans ?_
  rcases enter_cases henter with ⟨-, -, -, rfl⟩ | ⟨-, -, rfl⟩
  · rfl
  · exact intact_enlist _ _

theorem intact_rekey {u : Unit} (h : rekey e node x g = .ok u g') :
    g'.intact = g.intact := by
  obtain ⟨e', z, -, hz⟩ | ⟨-, rfl⟩ := rekey_cases h
  · exact (intact_unite hz).trans rfl
  · unfold restore
    split
    · split <;> rfl
    · rfl

/-- Only the end of a repair tells that it has not failed. -/
theorem intact_repairParent {u : Unit} (h : repairParent key g = .ok u g') :
    g'.intact = g.intact := by
  obtain ⟨-, rfl⟩ | ⟨e, t, -, -, hrekey, hfold⟩ := repairParent_cases h
  · rfl
  · have hlast : g'.intact = (t.enlist (g.canonical e.node).key).intact := by
      obtain ⟨v, z, -, hz⟩ | ⟨-, hsame⟩ := refold_cases hfold
      · exact intact_equate hz
      · rw [hsame]
    exact hlast.trans ((intact_enlist _ _).trans (intact_rekey hrekey))

end EGraph

/-! ## Reading -/

/-- What a computation results in that answers `r` and ends in the state `s`. -/
def outcome {ε σ α : Type} (r : Except ε α) (s : σ) : EStateM.Result ε σ α :=
  match r with
  | .ok a => .ok a s
  | .error e => .error e s

namespace Concrete

variable {α β : Type} {c c' : Concrete} {g g' : EGraph} {f : UnionFind}
  {id x y : ClassId} {key node : Node ClassId} {e : Entry} {v : Binary64}
  {ref a b : Int}

/-- The computation answers `r` and changes pointers at most. -/
def Reads (x : ConcreteM α) (c : Concrete) (r : Except GraphError α) : Prop :=
  ∃ f : UnionFind, f.Alike c.forest ∧ x c = outcome r { c with forest := f }

namespace Reads

theorem pure (h : c.forest.Ranked) (a : α) : Reads (Pure.pure a) c (.ok a) :=
  ⟨c.forest, .refl h, rfl⟩

theorem bind {x : ConcreteM α} {k : α → ConcreteM β} {r : Except GraphError α}
    {q : α → Except GraphError β} (h : Reads x c r)
    (hk : ∀ a f, r = .ok a → f.Alike c.forest →
      Reads (k a) { c with forest := f } (q a)) :
    Reads (x >>= k) c (r >>= q) := by
  obtain ⟨f, hf, hx⟩ := h
  cases r with
  | ok a =>
      obtain ⟨f', hf', hk'⟩ := hk a f rfl hf
      exact ⟨f', hf'.trans hf, (bind_ok hx).trans hk'⟩
  | error e => exact ⟨f, hf, bind_error hx⟩

/-- What a part answers is known. -/
theorem after {x : ConcreteM α} {k : α → ConcreteM β} {a : α}
    {r : Except GraphError β} (h : Reads x c (.ok a))
    (hk : ∀ f : UnionFind, f.Alike c.forest → Reads (k a) { c with forest := f } r) :
    Reads (x >>= k) c r := by
  refine h.bind (q := fun _ => r) fun b f hb hf => ?_
  cases hb
  exact hk f hf

/-- Reading is done for the members of a list one after the other. -/
theorem mapM {γ : Type} {k : γ → ConcreteM β} {q : γ → Except GraphError β}
    {l : List γ} (h : c.forest.Ranked)
    (hk : ∀ a ∈ l, ∀ f, f.Alike c.forest →
      Reads (k a) { c with forest := f } (q a)) :
    Reads (l.mapM k) c (l.mapM q) := by
  induction l generalizing c with
  | nil => exact .pure h []
  | cons a rest ih =>
      rw [List.mapM_cons, List.mapM_cons]
      refine (hk a List.mem_cons_self c.forest (.refl h)).bind fun b f _ hf => ?_
      have hrest : Reads (rest.mapM k) { c with forest := f } (rest.mapM q) :=
        ih hf.ranked fun a' ha' f' hf' =>
          hk a' (List.mem_cons_of_mem _ ha') f' (hf'.trans hf)
      exact hrest.bind fun bs f' _ hf' => .pure hf'.ranked _

end Reads

/-- The forest and the classes of a graph. -/
structure Frames (c : Concrete) (g : EGraph) : Prop where
  forest : c.forest.Alike g.sets
  classes : c.classes = g.classes

namespace Frames

theorem look (h : Frames c g) (hf : f.Alike c.forest) :
    Frames { c with forest := f } g :=
  ⟨hf.trans h.forest, h.classes⟩

theorem record (h : Frames c g) (id : ClassId) : c.record id = g.record id := by
  rw [Concrete.record, EGraph.record, h.classes]

/-- A look-up answers the root of a known number, or that the number is unknown. -/
theorem find (h : Frames c g) (ref : Int) : Reads (find ref) c (g.find ref) := by
  cases ref with
  | negSucc n => exact ⟨c.forest, .refl h.forest.ranked, rfl⟩
  | ofNat id =>
      have hsize : c.forest.size = g.issued := h.forest.size
      by_cases hid : id < g.issued
      · refine ⟨c.forest.compress id,
          UnionFind.alike_compress h.forest.ranked id, ?_⟩
        rw [EGraph.find, if_pos hid, Concrete.find, if_pos (by rwa [hsize]),
          h.forest.root]
        rfl
      · refine ⟨c.forest, .refl h.forest.ranked, ?_⟩
        rw [EGraph.find, if_neg hid, Concrete.find, if_neg (by rwa [hsize])]
        rfl

theorem find_natCast (h : Frames c g) (hid : id < g.issued) :
    Reads (Concrete.find id) c (.ok (g.root id)) := by
  rw [← Datapath.find_natCast hid]
  exact h.find id

theorem canonicalize (h : Frames c g) (node : Node Int) :
    Reads (canonicalize node) c (g.resolve node) := by
  rw [EGraph.resolve, Node.mapExcept_eq_mapM g.find node 0]
  refine (Reads.mapM h.forest.ranked fun ref _ f hf => (h.look hf).find ref).bind
    fun refs f _ hf => ?_
  exact .pure hf.ranked _

/-- A node whose children have been issued has a canonical form. -/
theorem canonicalize_ofNat (h : Frames c g)
    (hc : ∀ c ∈ node.children, c < g.issued) :
    Reads (Concrete.canonicalize (node.map Int.ofNat)) c
      (.ok (g.canonical node)) := by
  have hresolve : g.resolve (node.map Int.ofNat) = .ok (g.canonical node) := by
    rw [EGraph.resolve_of_issued, EGraph.canonical, Node.map_map, Node.map_map]
    · rfl
    · intro ref href
      rw [Node.children_map] at href
      obtain ⟨d, hd, rfl⟩ := List.mem_map.1 href
      exact ⟨Int.natCast_nonneg d, hc d hd⟩
  rw [← hresolve]
  exact h.canonicalize _

theorem constantAt (h : Frames c g) (ref : Int) :
    Reads (constantAt ref) c (g.constantAt ref) := by
  refine (h.find ref).bind fun id f _ hf => ⟨f, .refl hf.ranked, ?_⟩
  rw [get_bind, (h.look hf).record]
  rfl

/-- What a node folds to depends on two look-ups, of which neither fails. -/
theorem fold (h : Frames c g) (hc : ∀ c ∈ node.children, c < g.issued) :
    Reads (fold node) c (.ok (g.fold node)) := by
  cases node with
  | literal | sign | symbol | binary => exact .pure h.forest.ranked _
  | derived fn l r =>
      have hat {c : Concrete} (h : Frames c g) {x : ClassId} (hx : x < g.issued) :
          Reads (Concrete.constantAt x) c (.ok (g.constant? x)) := by
        have hknown := h.constantAt x
        rw [EGraph.constantAt, Datapath.find_natCast hx] at hknown
        exact hknown
      refine (hat h (hc l (by simp [Node.children]))).after fun f hf => ?_
      refine (hat (h.look hf) (hc r (by simp [Node.children]))).after
        fun f' hf' => ?_
      rw [EGraph.fold]
      cases g.constant? l <;> cases g.constant? r <;> exact .pure hf'.ranked _

/-- Listing a key with its children redirects pointers and lengthens parent lists. -/
theorem registerParent (h : Frames c g) (hc : ∀ d ∈ node.children, d < g.issued) :
    ∃ f : UnionFind, f.Alike c.forest ∧ registerParent key node c = .ok ()
      { c with
        forest := f
        classes := (node.children.foldl (EGraph.enlistAt key.code key) g).classes } := by
  unfold Concrete.registerParent
  generalize node.children = l at hc
  induction l generalizing c g with
  | nil =>
      refine ⟨c.forest, .refl h.forest.ranked, ?_⟩
      rw [List.foldl_nil, ← h.classes]
      rfl
  | cons d rest ih =>
      obtain ⟨hd, hrest⟩ := List.forall_mem_cons.1 hc
      obtain ⟨f, hf, hfind⟩ := h.find_natCast hd
      have hlist := EGraph.enlistAt_enlists key.code key g d
      have hframes : Frames ({ c with forest := f }.addParent (g.root d) key)
          (EGraph.enlistAt key.code key g d) := by
        refine ⟨?_, ?_⟩
        · rw [hlist.sets]
          exact hf.trans h.forest
        · rw [EGraph.classes_enlistAt, ← h.classes]
          rfl
      -- the other children are listed in a forest with other pointers
      obtain ⟨f', hf', hrun⟩ := ih hframes fun d' hd' => by
        rw [hlist.issued]
        exact hrest d' hd'
      have hfirst : (do
          let id ← Concrete.find d
          modify (·.addParent id key) : ConcreteM Unit) c =
          .ok () ({ c with forest := f }.addParent (g.root d) key) := bind_ok hfind
      exact ⟨f', hf'.trans hf, (bind_ok hfirst).trans hrun⟩

end Frames

/-- The maps show a graph. -/
structure Shows (c : Concrete) (g : EGraph) : Prop extends Frames c g where
  hashcons : ∀ k, c.hashcons k = (g.table.get? k).map Entry.owner
  store : ∀ k, c.store k = (g.table.get? k).map Entry.node
  owner : ∀ k, c.owner k = (g.table.get? k).map Entry.owner
  pending : c.pending = g.pending

theorem Shows.of_maps (hf : Frames c g) (hp : c.pending = g.pending)
    (hmaps : ∀ k, c.hashcons k = (g.table.get? k).map Entry.owner ∧
      c.store k = (g.table.get? k).map Entry.node ∧
      c.owner k = (g.table.get? k).map Entry.owner) : Shows c g :=
  ⟨hf, fun k => (hmaps k).1, fun k => (hmaps k).2.1, fun k => (hmaps k).2.2, hp⟩

theorem Shows.look (h : Shows c g) (hf : f.Alike c.forest) :
    Shows { c with forest := f } g :=
  ⟨h.toFrames.look hf, h.hashcons, h.store, h.owner, h.pending⟩

/-- The maps stand for a well-formed graph, in which all nodes are listed unless a
repair has failed. -/
structure Models (c : Concrete) (g : EGraph) : Prop extends Shows c g where
  wellFormed : g.WellFormed
  listed : g.intact = true → g.Listed

theorem Models.look (h : Models c g) (hf : f.Alike c.forest) :
    Models { c with forest := f } g :=
  ⟨h.toShows.look hf, h.wellFormed, h.listed⟩

/-- Everything is the same but for the pointers of the forest, and those lead to the
same roots. -/
def SameButPointers (c c' : Concrete) : Prop :=
  c'.forest.Alike c.forest ∧ c' = { c with forest := c'.forest }

/-- Two collections of maps that stand for one graph differ in pointers only. -/
theorem Models.sameButPointers (h : Models c g) (h' : Models c' g) :
    SameButPointers c c' := by
  refine ⟨h'.forest.of_common h.forest, ?_⟩
  have hhashcons : c'.hashcons = c.hashcons :=
    funext fun k => (h'.hashcons k).trans (h.hashcons k).symm
  have hstore : c'.store = c.store :=
    funext fun k => (h'.store k).trans (h.store k).symm
  have howner : c'.owner = c.owner :=
    funext fun k => (h'.owner k).trans (h.owner k).symm
  rw [← hhashcons, ← hstore, ← howner, h.classes,
    h.pending, ← h'.classes, ← h'.pending]

theorem models_empty : Models empty .empty where
  forest := .refl UnionFind.ranked_empty
  classes := rfl
  hashcons k := by simp [empty, KeyMap.empty, EGraph.empty]
  store k := by simp [empty, KeyMap.empty, EGraph.empty]
  owner k := by simp [empty, KeyMap.empty, EGraph.empty]
  pending := rfl
  wellFormed := EGraph.wellFormed_empty
  listed _ := EGraph.listed_empty

/-! ## Agreement -/

/-- From related states both computations succeed with one result, or both fail by
one error, and end in related states. -/
inductive Agree {ε : Type} (x : EStateM ε Concrete α) (y : EStateM ε EGraph α)
    (c : Concrete) (g : EGraph) : Prop
  | ok {a : α} {c' : Concrete} {g' : EGraph} (concrete : x c = .ok a c')
      (run : y g = .ok a g') (models : Models c' g')
  | error {e : ε} {c' : Concrete} {g' : EGraph} (concrete : x c = .error e c')
      (run : y g = .error e g') (models : Models c' g')

namespace Agree

variable {ε γ : Type} {x : EStateM ε Concrete α} {y : EStateM ε EGraph α}

theorem pure (h : Models c g) (a : α) :
    Agree (Pure.pure a : EStateM ε Concrete α) (Pure.pure a) c g :=
  .ok rfl rfl h

theorem throw (h : Models c g) (e : ε) :
    Agree (MonadExcept.throw e : EStateM ε Concrete α) (MonadExcept.throw e) c g :=
  .error rfl rfl h

/-- Computations that agree can be put one after the other. -/
theorem bind {k : α → EStateM ε Concrete β} {q : α → EStateM ε EGraph β}
    (h : Agree x y c g)
    (hk : ∀ a c' g', y g = .ok a g' → Models c' g' → Agree (k a) (q a) c' g') :
    Agree (x >>= k) (y >>= q) c g := by
  cases h with
  | ok concrete run models =>
      cases hk _ _ _ run models with
      | ok concrete' run' models' =>
          exact .ok ((bind_ok concrete).trans concrete')
            ((bind_ok run).trans run') models'
      | error concrete' run' models' =>
          exact .error ((bind_ok concrete).trans concrete')
            ((bind_ok run).trans run') models'
  | error concrete run models =>
      exact .error (bind_error concrete) (bind_error run) models

theorem map {k : α → β} (h : Agree x y c g) : Agree (k <$> x) (k <$> y) c g := by
  rw [map_eq_pure_bind, map_eq_pure_bind]
  exact h.bind fun _ _ _ _ hm => .pure hm _

theorem congr {z : EStateM ε EGraph α} (h : Agree x y c g') (hrun : z g = y g') :
    Agree x z c g := by
  cases h with
  | ok concrete run models => exact .ok concrete (hrun.trans run) models
  | error concrete run models => exact .error concrete (hrun.trans run) models

theorem get {k : Concrete → EStateM ε Concrete α} {q : EGraph → EStateM ε EGraph α}
    (h : Agree (k c) (q g) c g) : Agree (get >>= k) (get >>= q) c g := by
  cases h with
  | ok concrete run models => exact .ok concrete run models
  | error concrete run models => exact .error concrete run models

theorem after {k : β → EStateM ε Concrete α} {z : EStateM ε Concrete β} {b : β}
    (hz : z c = .ok b c') (h : Agree (k b) y c' g) : Agree (z >>= k) y c g := by
  cases h with
  | ok concrete run models => exact .ok ((bind_ok hz).trans concrete) run models
  | error concrete run models =>
      exact .error ((bind_ok hz).trans concrete) run models

theorem read {k : Concrete → EStateM ε Concrete α} (h : Agree (k c) y c g) :
    Agree (MonadState.get >>= k) y c g :=
  .after rfl h

/-- What the maps answer, the graph answers too. -/
theorem ask {z : ConcreteM α} {answer : EGraph → Except GraphError α}
    (hm : Models c g) (h : Reads z c (answer g)) :
    Agree z (EGraph.ask answer) c g := by
  obtain ⟨f, hf, hz⟩ := h
  cases ha : answer g with
  | ok a =>
      rw [ha] at hz
      exact .ok hz (by rw [EGraph.ask, ha]) (hm.look hf)
  | error e =>
      rw [ha] at hz
      exact .error hz (by rw [EGraph.ask, ha]) (hm.look hf)

/-- A loop agrees if each of its rounds does and keeps what the rounds need. -/
theorem forM {l : List γ} {k : γ → EStateM ε Concrete Unit}
    {q : γ → EStateM ε EGraph Unit} {I : EGraph → Prop} (hm : Models c g) (hI : I g)
    (step : ∀ d ∈ l, ∀ c' g', Models c' g' → I g' →
      Agree (k d) (q d) c' g' ∧ ∀ t, q d g' = .ok () t → I t) :
    Agree (l.forM k) (l.forM q) c g := by
  induction l generalizing c g with
  | nil => exact .pure hm ()
  | cons d rest ih =>
      obtain ⟨hd, hkeep⟩ := step d List.mem_cons_self c g hm hI
      exact hd.bind fun _ c' g' hrun hm' =>
        ih hm' (hkeep g' hrun) fun d' hd' => step d' (List.mem_cons_of_mem _ hd')

/-- Runs over a list agree if the computations for its members do. -/
theorem mapM {l : List γ} {k : γ → EStateM ε Concrete β} {q : γ → EStateM ε EGraph β}
    (hm : Models c g)
    (step : ∀ d ∈ l, ∀ c' g', Models c' g' → Agree (k d) (q d) c' g') :
    Agree (l.mapM k) (l.mapM q) c g := by
  induction l generalizing c g with
  | nil => exact .pure hm []
  | cons d rest ih =>
      rw [List.mapM_cons, List.mapM_cons]
      refine (step d List.mem_cons_self c g hm).bind fun b c' g' _ hm' => ?_
      exact (ih hm' fun d' hd' => step d' (List.mem_cons_of_mem _ hd')).bind
        fun _ _ _ _ hm => .pure hm _

/-- A fold agrees if each of its steps does. -/
theorem foldlM {l : List γ} {k : β → γ → EStateM ε Concrete β}
    {q : β → γ → EStateM ε EGraph β} {b : β}
    (hm : Models c g)
    (step : ∀ d ∈ l, ∀ b c' g', Models c' g' → Agree (k b d) (q b d) c' g') :
    Agree (l.foldlM k b) (l.foldlM q b) c g := by
  induction l generalizing c g b with
  | nil => exact .pure hm b
  | cons d rest ih =>
      rw [List.foldlM_cons, List.foldlM_cons]
      exact (step d List.mem_cons_self b c g hm).bind fun _ _ _ _ hm' =>
        ih hm' fun d' hd' => step d' (List.mem_cons_of_mem _ hd')

end Agree

/-! ## Uniting -/

theorem Frames.clash? (h : Frames c g) (w l : ClassId) :
    Concrete.clash? (c.record w) (c.record l) = g.conflict? w l := by
  rw [h.record, h.record]
  rfl

theorem Frames.requireClass (h : Frames c g) (hw : g.WellFormed)
    (hid : id < g.issued) : requireClass id c = .ok (c.record id) c := by
  rw [Concrete.requireClass, get_bind, if_pos (by rwa [h.classes, hw.classes_size])]
  rfl

/-- The maps of two classes are united as the graph unites them. -/
theorem Models.absorb (h : Models c g) (hj : EGraph.Joinable g x y) :
    Models (c.absorb x y (c.record y)) (g.absorb x y) where
  forest := h.forest.link h.wellFormed.ranked hj.winner_lt hj.loser_lt hj.ne
    hj.winner_root hj.loser_root hj.rank_le
  classes := by
    simp only [Concrete.absorb, EGraph.absorb, Concrete.modifyRecord,
      EGraph.modifyRecord, h.record, h.classes]
  hashcons := h.hashcons
  store := h.store
  owner := h.owner
  pending := congrArg (Array.push · x) h.pending
  wellFormed := h.wellFormed.absorb hj
  listed hi := (h.listed hi).absorb h.wellFormed hj

/-- Uniting classes by references to them. -/
theorem agree_merge (h : Models c g) (hx : x < g.issued) (hy : y < g.issued)
    (ha : g.find a = .ok (g.root x)) (hb : g.find b = .ok (g.root y)) :
    Agree (merge a b) (EGraph.unite x y) c g := by
  have hw := h.wellFormed
  obtain ⟨f, hf, hfind⟩ := h.find a
  rw [ha] at hfind
  obtain ⟨f', hf', hfind'⟩ := (h.look hf).find b
  rw [hb] at hfind'
  have hm := (h.look hf).look hf'
  refine .after hfind (.after hfind' ?_)
  by_cases hroot : g.root x = g.root y
  · rw [if_pos hroot]
    exact .ok rfl (if_pos hroot) hm
  · rw [if_neg hroot]
    -- the ranks decide which root wins, and they do not depend on pointers
    have horder :
        f'.order (g.root x) (g.root y) = g.sets.order (g.root x) (g.root y) :=
      hm.forest.order _ _
    refine .read ?_
    rw [horder]
    obtain ⟨w, l, hpair, hwl, hll, hjoin⟩ := EGraph.exists_order hw hx hy hroot
    rw [hpair]
    dsimp only
    refine .after (hm.requireClass hw hwl) (.after (hm.requireClass hw hll) ?_)
    rw [hm.clash?]
    cases hc : g.conflict? w l with
    | none =>
        have hrun : EGraph.unite x y g = .ok w (g.absorb w l) := by
          simp only [EGraph.unite, if_neg hroot, hpair, hc]
        exact .ok rfl hrun (hm.absorb (hjoin hc))
    | some pair =>
        have hrun : EGraph.unite x y g =
            .error (.constantConflict w pair.1 pair.2) g := by
          simp only [EGraph.unite, if_neg hroot, hpair, hc]
        exact .error rfl hrun hm

/-! ## Adding -/

/-- A new member of the forest does not change what a node folds to. -/
theorem fold_push (hw : g.WellFormed) (node : Node ClassId) :
    ({ g with sets := g.sets.push } : EGraph).fold node = g.fold node := by
  have hconstant (x : ClassId) : ({ g with sets := g.sets.push } : EGraph).constant?
      x = g.constant? x :=
    congrArg (fun r => (g.record r).constant) (UnionFind.root_push hw.ranked x)
  cases node with
  | literal | sign | symbol | binary => rfl
  | derived fn l r => simp only [EGraph.fold, hconstant]

/-- A new class is issued in the same order: first the member of the forest, then
what the node folds to, then the entries of the node, and at last the lists of
parents. -/
theorem issue_eq (h : Models c g) (hnew : g.table.get? node.key = none)
    (hc : ∀ d ∈ node.children, d < g.issued ∧ g.root d = d) :
    ∃ c', issue node c = .ok (g.issued, g.fold node) c' ∧
      Models c' (g.issue node) := by
  have hw := h.wellFormed
  have hsize : c.forest.size = g.issued := h.forest.size
  have hlt : ∀ d ∈ node.children, d < g.issued + 1 :=
    fun d hd => Nat.lt_succ_of_lt (hc d hd).1
  have hpushed :
      Frames { c with forest := c.forest.push } { g with sets := g.sets.push } :=
    ⟨h.forest.push hw.ranked, h.classes⟩
  obtain ⟨f, hf, hfold⟩ := hpushed.fold fun d hd => by
    rw [EGraph.issued, UnionFind.size_push]
    exact hlt d hd
  rw [fold_push hw] at hfold
  -- the class is filed before it is listed
  have hfiled : Frames
      ({ c with
        forest := f
        classes := c.classes.push
          ⟨g.issued, .single node.key, .empty, g.fold node⟩ }.file node g.issued)
      { g with
        sets := g.sets.push
        classes := g.classes.push ⟨g.issued, .single node.key, .empty, g.fold node⟩
        table := g.table.insert ⟨node, g.issued⟩ } :=
    ⟨hf.trans hpushed.forest, congrArg (Array.push · _) h.classes⟩
  obtain ⟨f', hf', hlist⟩ := hfiled.registerParent fun d hd => by
    rw [EGraph.issued, UnionFind.size_push]
    exact hlt d hd
  rw [← Node.children_key node] at hlist
  refine ⟨{ c with forest := f', classes := (g.issue node).classes }.file node
    g.issued, ?_, ?_, hw.issue hnew fun d hd => (hc d hd).1, ?_⟩
  · rw [issue, get_bind, hsize]
    exact (bind_ok rfl).trans
      ((bind_ok hfold).trans ((bind_ok rfl).trans (bind_ok hlist)))
  · refine .of_maps ⟨?_, rfl⟩
      (h.pending.trans (EGraph.pending_issue g node).symm) fun k => ?_
    · rw [(EGraph.issue_enlists g node).sets]
      exact hf'.trans hfiled.forest
    · rw [EGraph.get?_issue]
      simp only [file, KeyMap.insert, h.hashcons, h.store, h.owner]
      split <;> exact ⟨rfl, rfl, rfl⟩
  · intro hi
    rw [EGraph.issue, EGraph.intact_enlist] at hi
    exact (h.listed hi).issue hw hnew hc

theorem Shows.hashcons_some (h : Shows c g) (he : g.table.get? key = some e) :
    c.hashcons key = some e.owner := by
  rw [h.hashcons, he]
  rfl

theorem Shows.hashcons_none (h : Shows c g) (he : g.table.get? key = none) :
    c.hashcons key = none := by
  rw [h.hashcons, he]
  rfl

/-- A literal is found under its key, or it gets a class. -/
theorem agree_literal (h : Models c g) (v : Binary64) :
    Agree (literal v) (EGraph.enter (.literal v)) c g := by
  refine .read ?_
  cases he : g.table.get? (Node.literal v : Node ClassId).key with
  | some e =>
      rw [h.hashcons_some he]
      obtain ⟨f, hf, hfind⟩ := h.find_natCast (h.wellFormed.owner_lt he)
      exact .ok hfind (by rw [EGraph.enter, he]) (h.look hf)
  | none =>
      rw [h.hashcons_none he]
      obtain ⟨c', hissue, hm⟩ := issue_eq h he (by simp [Node.children])
      exact .ok (bind_ok hissue) (by rw [EGraph.enter, he]) hm

/-- Equating a class with a value agrees: the literal is found or entered, and
united. -/
theorem agree_equate (h : Models c g) (hx : x < g.issued) (v : Binary64) :
    Agree (equate v x) (EGraph.equate v x) c g := by
  refine (agree_literal h v).bind fun l c' t henter hm => ?_
  obtain ⟨hl, hxt⟩ : l < t.issued ∧ x < t.issued := by
    rcases EGraph.enter_cases henter with ⟨e, he, rfl, rfl⟩ | ⟨-, rfl, rfl⟩
    · exact ⟨hm.wellFormed.root_lt (hm.wellFormed.owner_lt he), hx⟩
    · exact ⟨EGraph.issued_lt_issue _ _, EGraph.lt_issue hx _⟩
  exact agree_merge hm hl hxt (Datapath.find_natCast hl) (Datapath.find_natCast hxt)

theorem width?_fold (g : EGraph) (node : Node ClassId) :
    width? node (g.fold node) = g.foldDerived? node := by
  cases node <;> rfl

/-- Adding a node agrees: its canonical form is looked up, and if there is none, the
node gets a class, which is united with the class of its value. -/
theorem agree_add (h : Models c g) (node : Node Int) :
    Agree (add node) (EGraph.add node) c g := by
  refine Agree.bind (.ask h (h.canonicalize node)) fun m c' t hask hm => ?_
  obtain ⟨hresolve, rfl⟩ := EGraph.ask_inv hask
  obtain ⟨rfl, hissued⟩ := EGraph.resolve_inv hresolve
  have hc :=
    EGraph.canonical_children hm.wellFormed (EGraph.children_toNat_lt hissued)
  generalize t.canonical (node.map Int.toNat) = m at hc
  refine .read ?_
  cases he : t.table.get? m.key with
  | some e =>
      rw [hm.hashcons_some he]
      obtain ⟨f, hf, hfind⟩ := hm.find_natCast (hm.wellFormed.owner_lt he)
      exact .ok hfind (by rw [EGraph.intern, he, EGraph.enter, he]) (hm.look hf)
  | none =>
      rw [hm.hashcons_none he]
      obtain ⟨c'', hissue, hm'⟩ := issue_eq hm he hc
      have henter : EGraph.enter m t = .ok t.issued (t.issue m) := by
        rw [EGraph.enter, he]
      refine .after hissue ?_
      dsimp only
      rw [width?_fold]
      cases hv : t.foldDerived? m with
      | none => exact .ok rfl (by rw [EGraph.intern, he, hv]; exact henter) hm'
      | some v =>
          have hlt : t.issued < (t.issue m).issued := EGraph.issued_lt_issue _ _
          refine (agree_equate hm' hlt v).congr ?_
          rw [EGraph.intern, he, hv]
          exact bind_ok henter

end Concrete

end Datapath
