/-!
# Datapath.Bindings

Finite maps from variable names to values, in the order in which the names were first
bound.
-/

namespace Datapath

/-- Names and the values bound to them, each name at most once. -/
abbrev Bindings (α : Type) := List (String × α)

namespace Bindings

variable {α : Type}

/-- The value bound to a name. -/
def get? : Bindings α → String → Option α
  | [], _ => none
  | (n, v) :: rest, name => if n = name then some v else get? rest name

/-- Binds a name: a new one after all others, a bound one in its place. -/
def set : Bindings α → String → α → Bindings α
  | [], name, value => [(name, value)]
  | (n, v) :: rest, name, value =>
    if n = name then (n, value) :: rest else (n, v) :: set rest name value

/-- The bindings that a list of pairs makes one after the other. -/
def ofPairs (pairs : List (String × α)) : Bindings α :=
  pairs.foldl (fun b pair => set b pair.1 pair.2) []

theorem get?_set (b : Bindings α) (name n : String) (value : α) :
    (b.set name value).get? n = if n = name then some value else b.get? n := by
  induction b with
  | nil => simp [set, get?, eq_comm]
  | cons pair rest ih =>
    by_cases hm : pair.1 = name
    · by_cases h : name = n <;> simp [set, get?, hm, h, Ne.symm]
    · by_cases h : pair.1 = n
      · simp [set, get?, h, (h ▸ hm : n ≠ name)]
      · simp [set, get?, hm, h, ih]

end Bindings

end Datapath
