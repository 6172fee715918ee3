import Datapath.Proofs.Persistence

/-!
# Datapath.Proofs.Soundness

What a graph says is true in every model of what was put into it.

A `Semantics` says which nodes over a set of values denote what. It may be partial,
so that both an interpretation of all terms and the least congruence on class numbers
are examples. Given a value for every class number, a graph is `Sound` if equal
classes have equal values, stored nodes denote the value of their class, and classes
with a known constant show it.

The only changes that need a reason are a new class and a union: a new class needs a
value that its node denotes, and united classes need to have had equal values. In a
repair the reasons come for free, because congruent nodes denote the same and a
semantics respects computed widths (`Semantics.Folds`). Constants may be restricted
to a set in which these computations are exact; it is enough to know that the
constants of the last graph are in it.
-/

namespace Datapath

variable {D : Type}

/-- Which nodes over a set of values denote which value. -/
structure Semantics (D : Type) where
  Denotes : Node D → D → Prop
  unique : ∀ {node d d'}, Denotes node d → Denotes node d' → d = d'

namespace Semantics

/-- A literal or sign with the number `v` denotes `d`. Zeros count as equal. -/
def Shows (S : Semantics D) (d : D) (v : Binary64) : Prop :=
  ∃ (m : Node D) (w : Binary64), m.value? = some w ∧
    w.withoutMinusZero = v.withoutMinusZero ∧ S.Denotes m.key d

/-- Computed widths of numbers in `ok` denote the same as the literal of their value,
if that is in `ok` too. -/
def Folds (S : Semantics D) (ok : Binary64 → Prop) : Prop :=
  ∀ {fn x y d e a b}, S.Denotes (.derived fn x y) d → S.Shows x a → S.Shows y b →
    ok a → ok b → ok (fn.eval a b) →
    S.Denotes (Node.literal (fn.eval a b)).key e → d = e

end Semantics

namespace EGraph

variable {S : Semantics D} {ν ν' : ClassId → D} {ok : Binary64 → Prop}
  {g g' g'' : EGraph} {id w l x y : ClassId} {key k node : Node ClassId}
  {e e' : Entry}

/-- The values that class numbers stand for make everything in a graph true. -/
structure Sound (S : Semantics D) (ν : ClassId → D) (g : EGraph) : Prop where
  root : ∀ x, ν (g.root x) = ν x
  stored : ∀ {key e}, g.table.get? key = some e → S.Denotes (key.map ν) (ν e.owner)
  constant : ∀ {x c}, x < g.issued → g.constant? x = some c → S.Shows (ν x) c

/-- A set of numbers that has both zeros or none. -/
def ZeroBlind (ok : Binary64 → Prop) : Prop :=
  ∀ {v w : Binary64}, v.withoutMinusZero = w.withoutMinusZero → ok v → ok w

/-- The known constants of a graph are in a set. -/
def Within (ok : Binary64 → Prop) (g : EGraph) : Prop :=
  ∀ x < g.issued, ∀ c, g.constant? x = some c → ok c

/-- If what a later graph knows is in a set, so is what an earlier one knew. -/
theorem Within.of_extends (hz : ZeroBlind ok) (hext : Extends g g')
    (h : Within ok g') : Within ok g := by
  intro x hx c hc
  obtain ⟨d, hd, hdc⟩ := hext.constant hx hc
  exact hz hdc (h x (Nat.lt_of_lt_of_le hx hext.issued_le) d hd)

theorem Within.literal (hz : ZeroBlind ok) (hw : g.WellFormed) (h : Within ok g)
    {v : Binary64} (he : g.table.get? (Node.literal v).key = some e) : ok v := by
  obtain ⟨c, hc, hcv⟩ := hw.known he (v := v.withoutMinusZero) rfl
  rw [Binary64.withoutMinusZero_idem] at hcv
  exact hz hcv (h _ (hw.owner_lt he) c hc)

theorem sound_empty (S : Semantics D) (ν : ClassId → D) : Sound S ν empty where
  root _ := rfl
  stored he := by simp [empty] at he
  constant hx := absurd hx (Nat.not_lt_zero _)

namespace Sound

theorem of_root_eq (h : Sound S ν g) (heq : g.root x = g.root y) : ν x = ν y := by
  rw [← h.root x, heq, h.root y]

/-- Only the values of issued numbers matter. -/
theorem congr (hw : g.WellFormed) (h : Sound S ν g)
    (hν : ∀ i < g.issued, ν' i = ν i) : Sound S ν' g where
  root x := by
    by_cases hx : x < g.issued
    · rw [hν _ (hw.root_lt hx), hν x hx, h.root]
    · rw [hw.root_of_le (Nat.le_of_not_lt hx)]
  stored he := by
    rw [hν _ (hw.owner_lt he), Node.map_congr fun c hc => hν c (hw.child_lt he c hc)]
    exact h.stored he
  constant hx hc := by
    rw [hν _ hx]
    exact h.constant hx hc

theorem of_sameContent (h : Sound S ν g) (hs : SameContent g g') : Sound S ν g' where
  root x := by rw [hs.root, h.root]
  stored he := by
    rw [hs.table] at he
    exact h.stored he
  constant hx hc := by
    rw [hs.issued] at hx
    rw [hs.constant?] at hc
    exact h.constant hx hc

/-- A new class needs a value that its node denotes and that its constant shows. -/
theorem issue (hw : g.WellFormed) (h : Sound S ν g)
    (hden : S.Denotes (node.key.map ν) (ν g.issued))
    (hconst : ∀ c, g.fold node = some c → S.Shows (ν g.issued) c) :
    Sound S ν (g.issue node) where
  root x := by rw [root_issue hw.ranked, h.root]
  stored he := by
    rcases get?_issue_inv he with ⟨rfl, rfl⟩ | he
    · exact hden
    · exact h.stored he
  constant {x c} hx hc := by
    rcases hw.constant?_issue_cases hx hc with ⟨hlt, hold⟩ | ⟨rfl, hfold⟩
    · exact h.constant hlt hold
    · exact hconst c hfold

/-- United classes must have had equal values. -/
theorem absorb (hw : g.WellFormed) (hj : Joinable g w l) (h : Sound S ν g)
    (heq : ν w = ν l) : Sound S ν (g.absorb w l) where
  root x := by
    rw [hj.root hw]
    split
    · next hl => rw [heq, ← hl, h.root]
    · exact h.root x
  stored he := h.stored he
  constant {x c} hx hc := by
    rw [issued_absorb] at hx
    -- the winner's constant is one of the two, and either is shown by the common
    -- value
    have hwinner : (g.absorb w l).constant? w = some c → S.Shows (ν w) c := by
      intro hcw
      rw [hj.constant?_winner hw] at hcw
      rcases Option.or_eq_some_iff.1 hcw with hcw | ⟨-, hcl⟩
      · refine h.constant hj.winner_lt ?_
        rw [constant?, hj.winner_root]
        exact hcw
      · rw [heq]
        refine h.constant hj.loser_lt ?_
        rw [constant?, hj.loser_root]
        exact hcl
    by_cases hjoined : (g.absorb w l).root x = w
    · have hxw : ν x = ν w := by
        rw [hj.root hw] at hjoined
        split at hjoined
        · next hl => rw [← h.root x, hl, heq]
        · rw [← h.root x, hjoined]
      rw [hxw]
      refine hwinner ?_
      rw [constant?, hj.root_winner hw]
      rwa [constant?, hjoined] at hc
    · rw [hj.root hw] at hjoined
      split at hjoined
      · exact absurd rfl hjoined
      · next hl =>
        rw [hj.constant?_of_ne hw hjoined hl] at hc
        exact h.constant hx hc

/-- So do those that a union has made equal, if it had a reason. -/
theorem unite (hw : g.WellFormed) {z : ClassId} (hx : x < g.issued)
    (hy : y < g.issued) (h : Sound S ν g) (heq : ν x = ν y)
    (hu : EGraph.unite x y g = .ok z g') : Sound S ν g' := by
  rcases unite_cases hw hx hy hu with ⟨-, rfl, -⟩ | ⟨w, l, hj, rfl, -, hroots⟩
  · exact h
  · refine h.absorb hw hj ?_
    rcases hroots with ⟨hxw, hyl⟩ | ⟨hxl, hyw⟩
    · rw [← hxw, ← hyl, h.root, h.root, heq]
    · rw [← hxl, ← hyw, h.root, h.root, heq]

theorem dropKey (h : Sound S ν g) (key : Node ClassId) (owner : ClassId) :
    Sound S ν (g.dropKey key owner) where
  root := h.root
  stored he := h.stored (get?_dropKey_inv he).2
  constant hx hc :=
  h.constant hx (((dropKey_sameFrame g key owner).constant? _).symm.trans hc)

/-- Canonical children have the values of the children. -/
theorem map_canonical (h : Sound S ν g) (node : Node ClassId) :
    (g.canonical node).key.map ν = node.key.map ν := by
  rw [canonical, Node.key_map, Node.map_map]
  exact Node.map_congr fun c _ => h.root c

/-- Storing a node under its canonical key keeps the graph sound. -/
theorem restore (h : Sound S ν g) (he : g.table.get? e.key = some e) :
    Sound S ν (g.restore e (g.canonical e.node) (g.root e.owner)) := by
  have hframe := restore_sameFrame g e (g.canonical e.node) (g.root e.owner)
  constructor
  case root =>
    intro x
    rw [hframe.root, h.root]
  case stored =>
    intro key e' he'
    rcases get?_restore_inv he he' with ⟨rfl, rfl⟩ | ⟨-, -, he'⟩
    · rw [h.map_canonical, h.root]
      exact h.stored he
    · exact h.stored he'
  case constant =>
    intro x c hx hc
    rw [hframe.issued] at hx
    rw [hframe.constant?] at hc
    exact h.constant hx hc

/-- Represented nodes denote the value of their class. -/
theorem denotes_of_represents (h : Sound S ν g) (hrep : g.Represents node x) :
    S.Denotes (node.key.map ν) (ν x) := by
  obtain ⟨key, e, he, hkey, ho⟩ := hrep
  have hroot (m : Node ClassId) : m.map ν = (m.map g.root).map ν := by
    rw [Node.map_map]
    exact Node.map_congr fun c _ => (h.root c).symm
  have hden := h.stored he
  rwa [hroot, hkey, ← hroot, h.of_root_eq ho] at hden

/-- Values that make a later graph true have made the earlier ones true. -/
theorem of_extends (hw : g.WellFormed) (hext : Extends g g')
    (h : Sound S ν g') : Sound S ν g where
  root x := h.of_root_eq (hext.root_eq (hw.root_root x))
  stored {key e} he := by
    have hden := h.denotes_of_represents (hext.represents (represents_of_get? he))
    rwa [← WellFormed.key_eq he, Entry.key, Node.key_key, ← Entry.key,
      WellFormed.key_eq he] at hden
  constant {x c} hx hc := by
    obtain ⟨d, hd, hdc⟩ := hext.constant hx hc
    -- the constant is still known, up to the sign of a zero, and the later graph
    -- shows it
    obtain ⟨m, w, hm, hwd, hden⟩ :=
      h.constant (Nat.lt_of_lt_of_le hx hext.issued_le) hd
    exact ⟨m, w, hm, hwd.trans hdc, hden⟩

end Sound

/-! ## Repairs -/

/-- A step keeps a graph sound, where a new literal needs its value. -/
theorem Step.sound (hw : g.WellFormed) (hfold : S.Folds ok) (hz : ZeroBlind ok)
    (hok : Within ok g) (h : Sound S ν g) (s : Step g g')
    (hnew : ∀ v, g' = g.issue (.literal v) →
      S.Denotes (Node.literal v).key (ν g.issued)) :
    Sound S ν g' := by
  cases s with
  | @literal fn l r a b _ _ _ _ _ =>
      have hden : S.Denotes (Node.literal (fn.eval a b)).key (ν g.issued) :=
        hnew _ rfl
      exact h.issue hw hden fun c hc =>
        ⟨.literal (fn.eval a b), fn.eval a b, rfl, by rw [Option.some.inj hc], hden⟩
  | fold stored left right value hx hy union =>
      have hchild := hw.child_lt stored
      have hl := hchild _ (List.mem_cons_self)
      have hr := hchild _ (List.mem_cons_of_mem _ List.mem_cons_self)
      refine h.unite hw (lt_of_root_eq hw (hw.owner_lt value) hx)
        (lt_of_root_eq hw (hw.owner_lt stored) hy) ?_ union
      -- both constants are shown by the values of the children, so the node folds
      rw [h.of_root_eq hx, h.of_root_eq hy]
      exact (hfold (h.stored stored) (h.constant hl left) (h.constant hr right)
        (hok _ hl _ left) (hok _ hr _ right) (hok.literal hz hw value)
        (h.stored value)).symm
  | move stored _ => exact h.restore stored
  | @fuse _ e e' z stored congruent union =>
      obtain ⟨-, he'⟩ := congruent?_inv congruent
      refine (h.dropKey e.key _).unite (hw.dropKey stored)
        (hw.root_lt (hw.owner_lt stored)) (hw.owner_lt he') ?_ union
      -- the two nodes have the same canonical form, so they denote the same value
      have hden := h.stored he'
      rw [h.map_canonical] at hden
      rw [h.root]
      exact S.unique (h.stored stored) hden
  | note same _ => exact h.of_sameContent same

/-- Steps keep a graph sound, where the numbers they issue stand for literals of what
the last graph knows about them. -/
theorem Steps.sound (hw : g.WellFormed) (hfold : S.Folds ok) (hz : ZeroBlind ok)
    (hok : Within ok g') (h : Sound S ν g) (s : Steps g g')
    (hnew : ∀ n c, g.issued ≤ n → n < g'.issued → g'.constant? n = some c →
      S.Denotes (Node.literal c).key (ν n)) : Sound S ν g' := by
  induction s with
  | refl => exact h
  | @tail t t' s₁ s₂ ih =>
      have ht := Steps.wellFormed hw s₁
      have hext := s₂.extends ht
      have hokt := hok.of_extends hz hext
      refine s₂.sound ht hfold hz hokt (ih hokt ?_) ?_
      · -- the later steps keep what is known of a number issued so far
        intro n c hn hlt hc
        obtain ⟨d, hd, hdc⟩ := hext.constant hlt hc
        have hden := hnew n d hn (Nat.lt_of_lt_of_le hlt hext.issued_le) hd
        rwa [Node.key, hdc] at hden
      · intro v hv
        subst hv
        refine hnew t.issued v (Steps.extends hw s₁).issued_le ?_ ?_
        · exact issued_lt_issue _ _
        · rw [ht.constant?_issue_new]
          rfl

end EGraph

end Datapath
