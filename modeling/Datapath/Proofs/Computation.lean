import Datapath.Verdict
import Mathlib.Data.List.Forall2

/-!
# Datapath.Proofs.Computation

Successful computations taken apart.

Each lemma turns one way of building a computation around: from the success of the
whole it gives the successes of the parts and the states between them.
`forM_induction` is the rule for loops over a list, whose invariant may speak of the
part of the list that is still to come, and `mapM_inv` that for loops that collect
results.
-/

namespace Datapath

section

variable {ε σ α β : Type} {s s' : σ}

/-- A sequence that succeeds has a first part that succeeds, and its second part
succeeds from the state that the first one leaves. -/
theorem bind_inv {x : EStateM ε σ α} {f : α → EStateM ε σ β} {b : β}
    (h : (x >>= f) s = .ok b s') : ∃ a t, x s = .ok a t ∧ f a t = .ok b s' := by
  change EStateM.bind x f s = .ok b s' at h
  unfold EStateM.bind at h
  cases hx : x s with
  | ok a t => rw [hx] at h; exact ⟨a, t, rfl, h⟩
  | error e t => rw [hx] at h; cases h

/-- If applying a function to the result succeeds, so does the computation itself,
with the same final state. -/
theorem map_inv {x : EStateM ε σ α} {f : α → β} {b : β}
    (h : (f <$> x) s = .ok b s') : ∃ a, x s = .ok a s' ∧ f a = b := by
  change EStateM.map f x s = .ok b s' at h
  unfold EStateM.map at h
  cases hx : x s with
  | ok a t => rw [hx] at h; cases h; exact ⟨a, rfl, rfl⟩
  | error e t => rw [hx] at h; cases h

theorem discard_inv {x : EStateM ε σ α} {u : Unit} (h : (discard x) s = .ok u s') :
    ∃ a, x s = .ok a s' := by
  obtain ⟨a, ha, -⟩ := map_inv (f := fun _ => ()) h
  exact ⟨a, ha⟩

theorem pure_inv {a b : α} (h : (pure a : EStateM ε σ α) s = .ok b s') :
    a = b ∧ s = s' := by
  cases h
  exact ⟨rfl, rfl⟩

theorem modify_inv {f : σ → σ} {u : Unit}
    (h : (modify f : EStateM ε σ Unit) s = .ok u s') :
    s' = f s := by
  cases h
  rfl

theorem toOption_inv {x : Except ε α} {a : α} (h : x.toOption = some a) :
    x = .ok a := by
  cases x with
  | ok b => cases h; rfl
  | error e => cases h

theorem get_bind (f : σ → EStateM ε σ β) (s : σ) : (get >>= f) s = f s s := rfl

/-- An invariant of the loop body, for the rest of the list, holds with nothing left
at the end. -/
theorem forM_induction {f : α → EStateM ε σ Unit} (P : List α → σ → Prop)
    (step : ∀ a rest s t, P (a :: rest) s → f a s = .ok () t → P rest t)
    {xs : List α} {u : Unit} (h0 : P xs s) (h : xs.forM f s = .ok u s') :
    P [] s' := by
  induction xs generalizing s with
  | nil =>
      obtain ⟨-, rfl⟩ := pure_inv h
      exact h0
  | cons a rest ih =>
      obtain ⟨⟨⟩, t, ha, hrest⟩ := bind_inv h
      exact ih (step a rest s t h0 ha) hrest

/-- The body of a loop keeps an invariant and what was said of earlier results, so in
the end something can be said of all of them. -/
theorem mapM_inv {f : α → EStateM ε σ β} {I : σ → Prop} {P : α → β → σ → Prop}
    {l : List α} {bs : List β} (hstep : ∀ a ∈ l, ∀ s b t, I s → f a s = .ok b t →
      I t ∧ P a b t ∧ ∀ {a' b'}, P a' b' s → P a' b' t)
    (h0 : I s) (h : l.mapM f s = .ok bs s') :
    I s' ∧ List.Forall₂ (fun a b => P a b s') l bs ∧ ∀ {a' b'}, P a' b' s →
      P a' b' s' := by
  induction l generalizing s bs with
  | nil =>
      rw [List.mapM_nil] at h
      obtain ⟨rfl, rfl⟩ := pure_inv h
      exact ⟨h0, .nil, fun hp => hp⟩
  | cons a rest ih =>
      rw [List.mapM_cons] at h
      obtain ⟨b, s₁, hb, hrest⟩ := bind_inv h
      obtain ⟨bs', s₂, hbs, hpure⟩ := bind_inv hrest
      obtain ⟨rfl, rfl⟩ := pure_inv hpure
      obtain ⟨h₁, hp, hkeep⟩ := hstep a List.mem_cons_self s b s₁ h0 hb
      -- what was said of `b` is still true when the rest of the loop is done
      obtain ⟨h₂, hall, hkeep'⟩ :=
        ih (fun a' ha' => hstep a' (List.mem_cons_of_mem _ ha')) h₁ hbs
      exact ⟨h₂, .cons (hkeep' hp) hall, fun hp' => hkeep' (hkeep hp')⟩

end

namespace EGraph

variable {α : Type} {g g' : EGraph}

/-- A question leaves the graph alone, so its success is the success of the
answer. -/
theorem ask_inv {answer : EGraph → Except GraphError α} {a : α}
    (h : ask answer g = .ok a g') : answer g = .ok a ∧ g' = g := by
  unfold ask at h
  cases ha : answer g with
  | ok b => rw [ha] at h; cases h; exact ⟨rfl, rfl⟩
  | error e => rw [ha] at h; cases h

/-- A computation that was run for its result and its graph at once was a run from
the empty graph. -/
theorem fromEmpty_inv {ε : Type} {x : EStateM ε EGraph α} {a : α}
    (h : fromEmpty x = .ok (a, g)) : x .empty = .ok a g := by
  unfold fromEmpty at h
  cases hx : x .empty with
  | ok b g₁ => rw [hx] at h; cases h; rfl
  | error e g₁ => rw [hx] at h; cases h

end EGraph

end Datapath
