import Datapath.Proofs.Decimals
import Datapath.Proofs.Layers

/-!
# Datapath.Proofs.KeyTexts

The texts of keys.

The text of a key is a tag, a colon and what the tag leaves open, which is the text
of a number, the name of a sign, any name at all, or class numbers with commas in
between. Nothing is quoted. All the same, different keys have different texts. No tag
has a colon, so that the first one ends the tag even if a name has more of them
(`tag_and_payload_inj`), and the tag says how the rest is to be read: a name is all
that is left, and numbers have no commas (`numbers_inj`).
-/

namespace Datapath

namespace Binary64

variable {x y : Binary64}

/-! ## Texts of numbers -/

/-- Whether the text of a value begins with a minus sign. -/
def writesMinus : Binary64 → Bool
  | nan => false
  | infinity negative => negative
  | finite negative units _ => negative && decide (units ≠ 0)

/-- The value without its sign. -/
def withoutSign : Binary64 → Binary64
  | nan => nan
  | infinity _ => infinity false
  | finite _ units fits => finite false units fits

/-- Where a digit is first, there is no sign. -/
theorem takeSign_of_isDigit {c : Char} (hc : c.isDigit = true) (cs : List Char) :
    takeSign (c :: cs) = (false, c :: cs) := by
  unfold takeSign
  split
  · next heq =>
    cases heq
    cases hc
  · next heq =>
    cases heq
    cases hc
  · rfl

/-- The sign that a text is read with is the one it was written with. -/
theorem takeSign_render (x : Binary64) :
    takeSign x.render = (x.writesMinus, x.withoutSign.render) := by
  cases x with
  | nan => rfl
  | infinity s => cases s <;> rfl
  | finite s u h =>
      obtain ⟨c, cs, hchars, hdigit, -⟩ := render_chars u h
      have hrender : (finite s u h).render =
          (if s ∧ u ≠ 0 then ['-'] else []) ++ (finite false u h).render := by
        rw [render_finite, render]
      by_cases hs : s = true ∧ u ≠ 0
      · rw [hrender, if_pos hs, writesMinus, withoutSign, hs.1, decide_eq_true hs.2]
        rfl
      · have hminus : (finite s u h).writesMinus = false := by
          simpa [writesMinus] using hs
        rw [hrender, if_neg hs, hminus, List.nil_append, withoutSign, hchars]
        exact takeSign_of_isDigit hdigit cs

/-- Values without a sign are told apart by their first characters, or they are
numbers. `NaN` and `Infinity` begin with a letter and numbers with a digit. -/
theorem withoutSign_inj (h : x.withoutSign.render = y.withoutSign.render) :
    x.withoutSign = y.withoutSign := by
  have hword {c : Char} {cs : List Char} {u : ℕ} {hu : Fits u}
      (hc : c.isDigit = false) : render (finite false u hu) ≠ c :: cs := by
    obtain ⟨d, ds, hchars, hd, -⟩ := render_chars u hu
    rw [hchars]
    rintro ⟨⟩
    rw [hc] at hd
    cases hd
  cases x with
  | nan =>
      cases y with
      | nan => rfl
      | infinity => cases h
      | finite => exact absurd h.symm (hword rfl)
  | infinity =>
      cases y with
      | nan => cases h
      | infinity => rfl
      | finite => exact absurd h.symm (hword rfl)
  | finite =>
      cases y with
      | nan | infinity => exact absurd h (hword rfl)
      | finite => exact render_inj h

/-- The sign and what is left without it determine a value, up to the sign of a zero,
which is not written. -/
theorem withoutMinusZero_eq_of_withoutSign (hs : x.writesMinus = y.writesMinus)
    (hm : x.withoutSign = y.withoutSign) :
    x.withoutMinusZero = y.withoutMinusZero := by
  cases x with
  | nan => cases y <;> first | rfl | cases hm
  | infinity s =>
      cases y with
      | infinity t =>
          obtain rfl : s = t := hs
          rfl
      | nan | finite => cases hm
  | finite s u h =>
      cases y with
      | finite t v h' =>
          cases hm
          by_cases hu : u = 0
          · subst hu
            rw [withoutMinusZero_finite_zero, withoutMinusZero_finite_zero]
          · have hst : s = t := by simpa [writesMinus, hu] using hs
            rw [hst]
      | nan | infinity => cases hm

/-- Only the two zeros have one text. -/
theorem toText_eq_iff :
    x.toText = y.toText ↔ x.withoutMinusZero = y.withoutMinusZero := by
  constructor
  · intro h
    have hsigns := congrArg takeSign (String.ofList_inj.1 h)
    rw [takeSign_render, takeSign_render] at hsigns
    obtain ⟨hs, hm⟩ := Prod.mk.inj hsigns
    exact withoutMinusZero_eq_of_withoutSign hs (withoutSign_inj hm)
  · intro h
    rcases eq_or_zeros h with rfl | ⟨s, t, rfl, rfl⟩
    · rfl
    · rw [toText, toText, zero, zero, render_zero, render_zero]

end Binary64

namespace Node

variable {m n : Node ClassId}

/-! ## Tags -/

/-- What the text of a key begins with. -/
inductive Tag
  | literal
  | sign
  | symbol
  | derived (fn : WidthFn)
  | binary (op : Operator)

namespace Tag

def text : Tag → String
  | literal => "const"
  | sign => "sign"
  | symbol => "sym"
  | derived fn => fn.symbol
  | binary op => op.name

theorem text_inj {s t : Tag} (h : s.text = t.text) : s = t := by
  rcases s with _ | _ | _ | (_ | _) | (_ | _ | _ | _ | _ | _) <;>
    rcases t with _ | _ | _ | (_ | _) | (_ | _ | _ | _ | _ | _) <;>
      first | rfl | exact absurd h (by decide)

theorem no_colon (t : Tag) : ∀ c ∈ t.text.toList, c ≠ ':' := by
  rcases t with _ | _ | _ | (_ | _) | (_ | _ | _ | _ | _ | _) <;>
    simp [text, WidthFn.symbol, Operator.name]

end Tag

/-- The tag of a node, which is all that its key has in front of the colon. -/
def tag : Node ClassId → Tag
  | .literal _ => .literal
  | .sign _ => .sign
  | .symbol _ => .symbol
  | .derived fn .. => .derived fn
  | .binary op .. => .binary op

/-- What the text of a key has after the colon. -/
def payload : Node ClassId → String
  | .literal value => value.toText
  | .sign s => s.name
  | .symbol name => name
  | node => ",".intercalate (node.children.map toString)

/-- The text of a key is a tag, a colon and the rest. -/
theorem keyText_eq (n : Node ClassId) :
    n.keyText = n.tag.text ++ ":" ++ n.payload := by
  cases n <;> rfl

/-- The first colon is where the tag ends. There is no colon in a tag, so two texts
that agree agree about where their first colon is. -/
theorem tag_and_payload_inj (h : m.keyText = n.keyText) :
    m.tag = n.tag ∧ m.payload = n.payload := by
  have hchars : m.tag.text.toList ++ ':' :: m.payload.toList =
      n.tag.text.toList ++ ':' :: n.payload.toList := by
    have hlists := congrArg String.toList h
    simpa [keyText_eq] using hlists
  have htag (t : Tag) : ∀ c ∈ t.text.toList, (c != ':') = true :=
    fun c hc => bne_iff_ne.2 (t.no_colon c hc)
  have hcolon (s : String) : ∀ c ∈ (':' :: s.toList).head?, (c != ':') = false := by
    rintro c ⟨⟩
    rfl
  obtain ⟨htext, hrest⟩ :=
    append_inj_of_stop (htag m.tag) (htag n.tag) (hcolon _) (hcolon _) hchars
  exact ⟨Tag.text_inj (String.toList_inj.1 htext),
    String.toList_inj.1 (List.tail_eq_of_cons_eq hrest)⟩

/-! ## Numbers between commas -/

theorem notMem_toString (k : ℕ) : ',' ∉ (toString k).toList := by
  intro hmem
  have hdigit : ',' ∈ Nat.toDigits 10 k := by rwa [← Nat.toList_repr]
  exact absurd (Binary64.digits_toDigits k _ hdigit) (by decide)

/-- The commas tell where numbers end. -/
theorem numbers_inj {l l' : List ℕ} (hl : l ≠ []) (hl' : l' ≠ [])
    (h : ",".intercalate (l.map toString) = ",".intercalate (l'.map toString)) :
    l = l' := by
  have hsplit {l : List ℕ} (hl : l ≠ []) :
      (",".intercalate (l.map toString)).toList.splitOn ',' = l.map fun k =>
        (toString k).toList := by
    rw [String.toList_intercalate, List.map_map]
    refine List.splitOn_intercalate ',' (fun w hw => ?_) (by simpa using hl)
    obtain ⟨k, -, rfl⟩ := List.mem_map.1 hw
    exact notMem_toString k
  have hmap : (l.map fun k => (toString k).toList) = l'.map fun k =>
      (toString k).toList := by
    rw [← hsplit hl, h, hsplit hl']
  exact List.map_injective_iff.2
    (fun i j hij => Nat.repr_inj.1 (String.toList_inj.1 hij)) hmap

/-! ## Keys -/

/-- The text of a key determines the key. Two texts that are the same have the same
tag, which says how the rest is to be read. -/
theorem keyText_inj (h : m.keyText = n.keyText) : m.key = n.key := by
  obtain ⟨htag, hpayload⟩ := tag_and_payload_inj h
  cases m with
  | literal v =>
      cases n with
      | literal w => exact congrArg Node.literal (Binary64.toText_eq_iff.1 hpayload)
      | sign | symbol | derived | binary => cases htag
  | sign s =>
      cases n with
      | sign t =>
          cases s <;> cases t <;> first | rfl | exact absurd hpayload (by decide)
      | literal | symbol | derived | binary => cases htag
  | symbol name =>
      cases n with
      | symbol name' => exact congrArg Node.symbol hpayload
      | literal | sign | derived | binary => cases htag
  | derived fn l r =>
      cases n with
      | derived fn' l' r' =>
          cases htag
          cases numbers_inj (List.cons_ne_nil _ _) (List.cons_ne_nil _ _) hpayload
          rfl
      | literal | sign | symbol | binary => cases htag
  | binary op w wa sa a wb sb b =>
      cases n with
      | binary op' w' wa' sa' a' wb' sb' b' =>
          cases htag
          cases numbers_inj (List.cons_ne_nil _ _) (List.cons_ne_nil _ _) hpayload
          rfl
      | literal | sign | symbol | derived => cases htag

/-- A node has the text of its key. -/
theorem keyText_key (n : Node ClassId) : n.key.keyText = n.keyText := by
  cases n with
  | literal v =>
      exact congrArg ("const:" ++ ·)
        (Binary64.toText_eq_iff.2 (Binary64.withoutMinusZero_idem v))
  | sign | symbol | derived | binary => rfl

/-- Texts of keys are as good as keys. -/
theorem keyText_eq_iff_key_eq : m.keyText = n.keyText ↔ m.key = n.key :=
  ⟨keyText_inj, fun h => by rw [← keyText_key m, h, keyText_key]⟩

/-- Only the literals of the two zeros share a key. -/
theorem key_eq_key_iff :
    m.key = n.key ↔ m = n ∨ ∃ s t, m = .literal (.zero s) ∧
      n = .literal (.zero t) := by
  constructor
  · intro h
    cases m with
    | literal v =>
        cases n with
        | literal w =>
            rcases Binary64.eq_or_zeros (Node.literal.inj h) with
              rfl | ⟨s, t, rfl, rfl⟩
            · exact Or.inl rfl
            · exact Or.inr ⟨s, t, rfl, rfl⟩
        | sign | symbol | derived | binary => cases h
    | sign | symbol | derived | binary =>
        cases n <;> first | exact Or.inl h | cases h
  · rintro (rfl | ⟨s, t, rfl, rfl⟩)
    · rfl
    · exact congrArg Node.literal (Binary64.withoutMinusZero_zero s t)

theorem withChildren_map (n : Node ClassId) (f : ClassId → ClassId) :
    n.withChildren (n.children.map f) = n.map f := by
  cases n <;> rfl

/-- Nodes are mapped to one node if their heads are the same and their children are
mapped to the same. -/
theorem map_eq_map_iff {f : ClassId → ClassId} :
    m.map f = n.map f ↔ m.Rel (fun a b => f a = f b) n :=
  Rel.iff_map_eq.symm.trans Rel.map_right

/-- Keys never collide. Two nodes have one key text if and only if they have one key,
and then they are one node or both a zero, whatever names and numbers they have. When
their children are renamed, they have one key text afterwards if and only if they had
the same head, but for the sign of a zero, and children that got the same names. -/
theorem keyText_eq_iff (m n : Node ClassId) :
    (m.keyText = n.keyText ↔ m.key = n.key) ∧
    (m.key = n.key ↔ m = n ∨ ∃ s t, m = .literal (.zero s) ∧
      n = .literal (.zero t)) ∧
    ∀ f : ClassId → ClassId, (m.withChildren (m.children.map f)).keyText =
      (n.withChildren (n.children.map f)).keyText ↔
        m.key.Rel (fun a b => f a = f b) n.key := by
  refine ⟨keyText_eq_iff_key_eq, key_eq_key_iff, fun f => ?_⟩
  rw [withChildren_map, withChildren_map, keyText_eq_iff_key_eq, key_map, key_map,
    map_eq_map_iff]

/-- A name may look like the text of another key, and digits do not run together. -/
example : ([.symbol "max+1:1,12", .derived .sum 1 12, .derived .sum 11 2] : List
    (Node ClassId)).map keyText =
    ["sym:max+1:1,12", "max+1:1,12", "max+1:11,2"] := by
  decide +kernel

end Node

end Datapath
