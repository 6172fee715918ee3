import Datapath.Proofs.Simulation

/-!
# Datapath.Proofs.Sessions

Whole sessions with a graph.

A session is a list of requests, each of which is answered before the next one is
made. A request that fails is answered with its error, and the session goes on with
what the failure has left behind. Sessions are run on the graph and on the maps in
which it is kept.

The maps stand for the graph all the time (`models_after`), and two consequences are
drawn from that. Calls that only read change no later answer, although they redirect
pointers (`replies_among_queries`), and the maps belong together whatever has failed
(`consistent_after`).
-/

namespace Datapath

/-! ## Requests -/

/-- A call that only reads. -/
inductive Query
  | find (ref : Int)
  | constantAt (ref : Int)
  | lookup (node : Node Int)
  | nodesOf (ref : Int)
  | classOf (ref : Int)
  | classIds
  | size
  | lines
  | search (p : Pattern)
  | matchesAt (p : Pattern) (ref : Int)
  | valuation (s : Subst) (p : Pattern)
  | matchesIn (r : Rule)
  | guard (eqn : Equation) (s : Subst)

/-- What a caller can ask for. -/
inductive Request
  | operation (op : EGraph.Operation)
  | addTexts (text : String)
  | instantiate (s : Subst) (p : Pattern)
  | query (q : Query)

/-- What a caller is told. -/
inductive Reply
  | done
  | truth (b : Bool)
  | count (n : Nat)
  | reference (ref : Int)
  | references (refs : List Int)
  | owner (id : Option ClassId)
  | constant (value : Option Binary64)
  | record (id : ClassId) (e : EClass)
  | nodes (nodes : List (Node ClassId))
  | lines (lines : List String)
  | found (found : List Found)
  | substs (substs : List Subst)
  | valuation (values : Valuation)
  | reports (found : List Rule.Match)
  | stats (stats : Stats)
  | failed (error : LoadError)

namespace EGraph

/-- What a graph answers. -/
def answer (g : EGraph) : Query → Except GraphError Reply
  | .find ref => (fun id => .reference (Int.ofNat id)) <$> g.find ref
  | .constantAt ref => .constant <$> g.constantAt ref
  | .lookup node => .owner <$> g.lookup node
  | .nodesOf ref => .nodes <$> g.nodesOf ref
  | .classOf ref => (fun pair => .record pair.1 pair.2) <$> g.classOf ref
  | .classIds => return .references (g.classIds.map Int.ofNat)
  | .size => return .count g.size
  | .lines => return .lines g.lines
  | .search p => return .found (g.search p)
  | .matchesAt p ref => .substs <$> g.matchesAt p ref
  | .valuation s p => .valuation <$> g.valuation s p
  | .matchesIn r => .reports <$> r.matchesIn g
  | .guard eqn s => .truth <$> eqn.guard g s

/-- Does on a graph what an operation says. -/
def operate : Operation → EStateM LoadError EGraph Reply
  | .add node => loading ((fun id => .reference (Int.ofNat id)) <$> add node)
  | .addTerm term => loading (.reference <$> addGround term)
  | .addText text => .reference <$> load text
  | .merge a b => loading ((fun id => .reference (Int.ofNat id)) <$> merge a b)
  | .rebuild => loading ((fun _ => .done) <$> rebuild)
  | .applyOnce eqn => loading (.count <$> applyOnce eqn)
  | .saturate equations o => loading (.stats <$> saturate equations o)

/-- Does on a graph what is asked for. -/
def perform : Request → EStateM LoadError EGraph Reply
  | .operation op => operate op
  | .addTexts text => .references <$> loadAll text
  | .instantiate s p => loading (.reference <$> instantiate s p)
  | .query q => loading (ask (·.answer q))

end EGraph

namespace Concrete

/-- What the maps answer. -/
def answer : Query → ConcreteM Reply
  | .find ref => (fun id => .reference (Int.ofNat id)) <$> find ref
  | .constantAt ref => .constant <$> constantAt ref
  | .lookup node => .owner <$> lookup node
  | .nodesOf ref => .nodes <$> nodesOf ref
  | .classOf ref => (fun pair => .record pair.1 pair.2) <$> classOf ref
  | .classIds => (fun ids => .references (ids.map Int.ofNat)) <$> classIds
  | .size => .count <$> size
  | .lines => .lines <$> lines
  | .search p => .found <$> search p
  | .matchesAt p ref => .substs <$> matchPattern p ref []
  | .valuation s p => .valuation <$> valuationOf s p.vars
  | .matchesIn r => .reports <$> matchesIn r
  | .guard eqn s => .truth <$> guard eqn s

/-- Does on the maps what an operation says. -/
def operate : EGraph.Operation → EStateM LoadError Concrete Reply
  | .add node => loading ((fun id => .reference (Int.ofNat id)) <$> add node)
  | .addTerm term => loading (.reference <$> addGround term)
  | .addText text => .reference <$> load text
  | .merge a b => loading ((fun id => .reference (Int.ofNat id)) <$> merge a b)
  | .rebuild => loading ((fun _ => .done) <$> rebuild)
  | .applyOnce eqn => loading (.count <$> applyOnce eqn)
  | .saturate equations o => loading (.stats <$> saturate equations o)

/-- Does on the maps what is asked for. -/
def perform : Request → EStateM LoadError Concrete Reply
  | .operation op => operate op
  | .addTexts text => .references <$> loadAll text
  | .instantiate s p => loading (.reference <$> instantiate s p)
  | .query q => loading (answer q)

end Concrete

/-! ## Sessions -/

section

variable {σ : Type}

/-- Makes one request. The error of one that fails is its answer, and what it has
changed stays changed. -/
def respond (perform : Request → EStateM LoadError σ Reply) (s : σ)
    (r : Request) : Reply × σ :=
  match perform r s with
  | .ok reply s => (reply, s)
  | .error e s => (.failed e, s)

/-- The state that a session leaves behind. -/
def stateAfter (perform : Request → EStateM LoadError σ Reply) (s : σ)
    (requests : List Request) : σ :=
  requests.foldl (fun s r => (respond perform s r).2) s

/-- The answers to the requests of a session. -/
def replies (perform : Request → EStateM LoadError σ Reply) :
    σ → List Request → List Reply
  | _, [] => []
  | s, r :: rest =>
    let step := respond perform s r
    step.1 :: replies perform step.2 rest

/-- The answers to the requests of a session in which some queries are made before
each of them. What the queries are answered is left out. -/
def repliesAmong (perform : Request → EStateM LoadError σ Reply) :
    σ → List (List Query × Request) → List Reply
  | _, [] => []
  | s, (queries, r) :: rest =>
    let step := respond perform (stateAfter perform s (queries.map .query)) r
    step.1 :: repliesAmong perform step.2 rest

end

namespace Concrete

variable {α β : Type} {c : Concrete} {g : EGraph}

/-! ## Requests agree -/

/-- Errors of a graph are passed on to the caller alike. -/
theorem Agree.loading {x : ConcreteM α} {y : GraphM α} (h : Agree x y c g) :
    Agree (loading x) (EGraph.loading y) c g := by
  cases h with
  | ok concrete run models =>
      exact .ok (by rw [Concrete.loading, concrete])
        (by rw [EGraph.loading, run]) models
  | error concrete run models =>
      exact .error (by rw [Concrete.loading, concrete])
        (by rw [EGraph.loading, run]) models

theorem agree_reading (h : Models c g) (x : Except SyntaxError α) :
    Agree (reading x) (EGraph.reading x) c g := by
  cases x with
  | ok a => exact .pure h a
  | error e => exact .throw h _

theorem agree_load (h : Models c g) (text : String) :
    Agree (load text) (EGraph.load text) c g :=
  (agree_reading h _).bind fun term _ _ _ hm => (agree_addGround hm term).loading

theorem agree_loadAll (h : Models c g) (text : String) :
    Agree (loadAll text) (EGraph.loadAll text) c g :=
  (agree_reading h _).bind fun _ _ _ _ hm =>
    .mapM hm fun term _ _ _ hm => (agree_addGround hm term).loading

/-- Every query is answered from the maps as from the graph, and changes pointers at
most. -/
theorem reads_answer (h : Models c g) (q : Query) :
    Reads (answer q) c (g.answer q) := by
  cases q with
  | find ref => exact (h.find ref).map _
  | constantAt ref => exact (h.constantAt ref).map _
  | lookup node => exact (reads_lookup h node).map _
  | nodesOf ref => exact (reads_nodesOf h ref).map _
  | classOf ref => exact (reads_classOf h ref).map _
  | classIds => exact (reads_classIds h).map _
  | size => exact (reads_size h).map _
  | lines => exact (reads_lines h).map _
  | search p => exact (reads_search h p).map _
  | matchesAt p ref => exact (reads_matchesAt h p ref).map _
  | valuation s p => exact (reads_valuationOf h s p.vars).map _
  | matchesIn r => exact (reads_matchesIn h r).map _
  | guard eqn s => exact (reads_guard h eqn s).map _

/-- Every operation on the maps agrees with the one on the graph, failures
included. -/
theorem agree_operate (h : Models c g) (op : EGraph.Operation) :
    Agree (operate op) (EGraph.operate op) c g := by
  cases op with
  | add node => exact (agree_add h node).map.loading
  | addTerm term => exact (agree_addGround h term).map.loading
  | addText text => exact (agree_load h text).map
  | merge a b => exact (agree_mergeAt h a b).map.loading
  | rebuild => exact (agree_rebuild h).map.loading
  | applyOnce eqn => exact (agree_applyOnce h eqn).map.loading
  | saturate equations o => exact (agree_saturate h equations o).map.loading

/-- A request is answered on the maps as on the graph that they stand for, and leads
to maps that stand for the graph that it leads to. -/
theorem agree_perform (h : Models c g) (r : Request) :
    Agree (perform r) (EGraph.perform r) c g := by
  cases r with
  | operation op => exact agree_operate h op
  | addTexts text => exact (agree_loadAll h text).map
  | instantiate s p => exact (agree_instantiate h s p).map.loading
  | query q => exact (Agree.ask h (reads_answer h q)).loading

/-- So does the answer to a request, whether it is a result or an error. -/
theorem respond_agrees (h : Models c g) (r : Request) :
    (respond perform c r).1 = (respond EGraph.perform g r).1 ∧
      Models (respond perform c r).2 (respond EGraph.perform g r).2 := by
  unfold respond
  cases agree_perform h r with
  | ok concrete run models =>
      rw [concrete, run]
      exact ⟨rfl, models⟩
  | error concrete run models =>
      rw [concrete, run]
      exact ⟨rfl, models⟩

/-- After a query, whatever its answer, the maps stand for the same graph. -/
theorem models_query (h : Models c g) (q : Query) :
    Models (respond perform c (.query q)).2 g := by
  obtain ⟨f, hf, hq⟩ := reads_answer h q
  have hrun : perform (.query q) c = loading (answer q) c := rfl
  unfold respond
  rw [hrun, loading, hq]
  cases g.answer q <;> exact h.look hf

/-! ## Sessions agree -/

theorem models_stateAfter (h : Models c g) (requests : List Request) :
    Models (stateAfter perform c requests)
      (stateAfter EGraph.perform g requests) := by
  induction requests generalizing c g with
  | nil => exact h
  | cons r rest ih => exact ih (respond_agrees h r).2

/-- The maps stand for the graph after every session. -/
theorem models_after (requests : List Request) :
    Models (stateAfter perform empty requests)
      (stateAfter EGraph.perform .empty requests) :=
  models_stateAfter models_empty requests

theorem models_queries (h : Models c g) (queries : List Query) :
    Models (stateAfter perform c (queries.map .query)) g := by
  induction queries generalizing c with
  | nil => exact h
  | cons q rest ih => exact ih (models_query h q)

/-- The answers of a session are those that the graph gives. -/
theorem replies_eq (h : Models c g) (requests : List Request) :
    replies perform c requests = replies EGraph.perform g requests := by
  induction requests generalizing c g with
  | nil => rfl
  | cons r rest ih =>
      obtain ⟨hreply, hm⟩ := respond_agrees h r
      rw [replies, replies]
      exact congrArg₂ List.cons hreply (ih hm)

/-- With queries in between, the maps still answer what the graph answers without
them. -/
theorem repliesAmong_eq (h : Models c g) (script : List (List Query × Request)) :
    repliesAmong perform c script =
      replies EGraph.perform g (script.map Prod.snd) := by
  induction script generalizing c g with
  | nil => rfl
  | cons entry rest ih =>
      obtain ⟨queries, r⟩ := entry
      obtain ⟨hreply, hm⟩ := respond_agrees (models_queries h queries) r
      rw [repliesAmong, List.map_cons, replies]
      exact congrArg₂ List.cons hreply (ih hm)

/-- Queries are not observed. Whatever a session has led to, with failures or
without, a session that follows is answered alike with and without queries in
between: they change no number, no substitution and no order in which anything is
listed, no error, and no answer of another query. Both times the answers are those
that the graph gives. -/
theorem replies_among_queries (before : List Request)
    (script : List (List Query × Request)) :
    repliesAmong perform (stateAfter perform empty before) script =
      replies perform (stateAfter perform empty before) (script.map Prod.snd) ∧
    repliesAmong perform (stateAfter perform empty before) script =
      replies EGraph.perform (stateAfter EGraph.perform .empty before)
        (script.map Prod.snd) := by
  have hm := models_after before
  exact ⟨(repliesAmong_eq hm script).trans (replies_eq hm _).symm,
    repliesAmong_eq hm script⟩

/-- Three merges leave `D` two pointers away from its root, and asking for its root
redirects the first of them. -/
example :
    let session : List EGraph.Operation :=
      [.add (.symbol "A"), .add (.symbol "B"), .add (.symbol "C"),
        .add (.symbol "D"), .merge 0 1, .merge 2 3, .merge 0 2]
    let c := stateAfter perform empty (session.map .operation)
    (c.forest.parent 3, (stateAfter perform c [.query (.find 3)]).forest.parent 3) =
      (2, 0) := by
  decide +kernel

/-! ## The maps belong together -/

/-- The maps are about the same keys, every node is filed under its own key in the
class that owns it and in no other class, and all children have been issued. -/
structure Consistent (c : Concrete) : Prop where
  classes_size : c.classes.size = c.forest.size
  /-- A node is found in the class that owns it, so the two maps have the same
  keys. -/
  hashcons_eq : ∀ key, c.hashcons key = c.owner key
  /-- A node is stored under the keys that are owned. -/
  store_isSome : ∀ key, (c.store key).isSome = (c.owner key).isSome
  key_eq : ∀ {key node}, c.store key = some node → node.key = key
  /-- A key is listed by the class of its owner, and by no other class. -/
  owned : ∀ {key id}, c.owner key = some id → id < c.forest.size ∧
    ∀ r < c.forest.size, c.forest.root r = r →
      (key ∈ (c.record r).nodes ↔ r = c.forest.root id)
  /-- A class lists keys that nodes are stored under: those of the nodes that are
  read for it, in this order. -/
  listed : ∀ r < c.forest.size, c.forest.root r = r →
    ((c.record r).nodes.toList.filterMap c.store).map Node.key =
      (c.record r).nodes.toList
  child_lt : ∀ {key node}, c.store key = some node → ∀ d ∈ node.children,
    d < c.forest.size

/-- Where every key of a list has a node, the nodes that are read have these keys, in
the same order. -/
theorem map_key_filterMap {store : KeyMap (Node ClassId)}
    {keys : List (Node ClassId)}
    (h : ∀ key ∈ keys, ∃ node, store key = some node ∧ node.key = key) :
    (keys.filterMap store).map Node.key = keys := by
  induction keys with
  | nil => rfl
  | cons key rest ih =>
      obtain ⟨⟨node, hnode, hkey⟩, hrest⟩ := List.forall_mem_cons.1 h
      rw [List.filterMap_cons_some hnode, List.map_cons, hkey, ih hrest]

/-- What the maps have in common they have from the table of the graph, in which
every node is stored under its key and owned by the class that lists it. -/
theorem Models.consistent (h : Models c g) : Consistent c := by
  have hw := h.wellFormed
  have hsize : c.forest.size = g.issued := h.forest.size
  have hroot (id : ClassId) : c.forest.root id = g.root id := h.forest.root id
  have hstored {key node : Node ClassId} (hnode : c.store key = some node) :
      ∃ e, g.table.get? key = some e ∧ e.node = node := by
    rw [h.store] at hnode
    exact Option.map_eq_some_iff.1 hnode
  constructor
  case classes_size => rw [h.classes, hw.classes_size, hsize]
  case hashcons_eq =>
    intro key
    rw [h.hashcons, h.owner]
  case store_isSome =>
    intro key
    rw [h.store, h.owner, Option.isSome_map, Option.isSome_map]
  case key_eq =>
    intro key node hnode
    obtain ⟨e, he, rfl⟩ := hstored hnode
    exact EGraph.WellFormed.key_eq he
  case owned =>
    intro key id hid
    rw [h.owner] at hid
    obtain ⟨e, he, rfl⟩ := Option.map_eq_some_iff.1 hid
    rw [hsize, hroot]
    refine ⟨hw.owner_lt he, fun r _ hr => ?_⟩
    rw [hroot] at hr
    rw [h.record]
    constructor
    · intro hkey
      obtain ⟨e', he', ho⟩ := hw.stored hr hkey
      obtain rfl := Option.some.inj (he.symm.trans he')
      exact ho.symm
    · rintro rfl
      exact hw.mem_nodes he
  case listed =>
    intro r _ hr
    rw [hroot] at hr
    rw [h.record]
    refine map_key_filterMap fun key hkey => ?_
    obtain ⟨e, he, -⟩ := hw.stored hr hkey
    refine ⟨e.node, ?_, EGraph.WellFormed.key_eq he⟩
    rw [h.store, he]
    rfl
  case child_lt =>
    intro key node hnode d hd
    obtain ⟨e, he, rfl⟩ := hstored hnode
    rw [hsize]
    refine hw.child_lt he d ?_
    rwa [← EGraph.WellFormed.key_eq he, Entry.key, Node.children_key]

/-- Whatever has been asked for, and whatever of it has failed at whatever moment,
the maps belong together. -/
theorem consistent_after (requests : List Request) :
    Consistent (stateAfter perform empty requests) :=
  (models_after requests).consistent

end Concrete

end Datapath
