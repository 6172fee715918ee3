import Datapath.Equation

/-!
# Datapath.Saturation

Equality saturation: applying equations to an e-graph until nothing new is learnt or
a limit is reached.

In each round the applications of all equations are collected first, on a repaired
graph, and only those whose guard holds are kept. Then each is made, and the graph is
repaired. A round without a union ends the run as saturated.
-/

namespace Datapath

/-! ## Limits and progress -/

/-- Limits of a saturation run. -/
structure Options where
  /-- The most rounds. -/
  roundLimit : Int := 30
  /-- The most classes with which a round may begin. -/
  classLimit : Int := 10000
  /-- Whether progress is logged. -/
  verbose : Bool := false

/-- Why a run ended. -/
inductive Ending
  /-- A round united nothing. -/
  | saturated
  /-- The most rounds have been made. -/
  | roundLimit
  /-- The graph has too many classes. -/
  | classLimit
  deriving DecidableEq, Repr

/-- The name of an ending. -/
def Ending.text : Ending → String
  | saturated => "saturated"
  | roundLimit => "iteration-limit"
  | classLimit => "size-limit"

/-- What a run has done so far. -/
structure Progress where
  /-- The rounds made. -/
  rounds : Nat := 0
  /-- The applications made in all rounds. -/
  applied : Nat := 0
  /-- The unions that they led to, without those that repair adds. -/
  unions : Nat := 0
  ending : Ending := .roundLimit
  log : List String := []

/-- The result of a run. -/
structure Stats extends Progress where
  /-- The classes of the final graph. -/
  classes : Nat

/-- Whether a run ended because nothing new could be learnt. -/
def Progress.saturated (p : Progress) : Bool := p.ending = .saturated

namespace Progress

/-- Notes a line, if progress is logged. -/
def note (p : Progress) (o : Options) (line : String) : Progress :=
  if o.verbose then { p with log := p.log ++ ["[saturate] " ++ line] } else p

/-- Counts a round that applied `found` matches with `unions` unions and left
`classes` classes. -/
def countRound (p : Progress) (o : Options) (found unions classes : Nat) :
    Progress :=
  { p with
    rounds := p.rounds + 1
    applied := p.applied + found
    unions := p.unions + unions }.note o
      s!"Iter {p.rounds + 1}: {found} matches, {unions} merges, {classes} classes"

/-- Ends a run that met the limit on classes. -/
def stopAtLimit (p : Progress) (o : Options) (classes : Nat) : Progress :=
  { p with ending := .classLimit }.note o
    s!"Size limit exceeded: {classes} > {o.classLimit}"

/-- Ends a run whose last round united nothing. -/
def stopSaturated (p : Progress) (o : Options) : Progress :=
  { p with ending := .saturated }.note o s!"Saturated after {p.rounds} iterations"

end Progress

namespace EGraph

/-- Makes at most `rounds` more rounds. -/
def saturateRounds (equations : List Equation) (o : Options) :
    (rounds : Nat) → Progress → GraphM Progress
  | 0, p => return p
  | rounds + 1, p => do
    let classes := (← get).size
    if o.classLimit < classes then return p.stopAtLimit o classes
    let apps ← ask (·.applications equations)
    let unions ← applyAll apps
    let p := p.countRound o apps.length unions (← get).size
    if unions = 0 then return p.stopSaturated o
    saturateRounds equations o rounds p

/-- Repairs a graph and saturates it with equations. -/
def saturate (equations : List Equation) (o : Options) : GraphM Stats := do
  rebuild
  let p ← saturateRounds equations o o.roundLimit.toNat {}
  return { p with classes := (← get).size }

end EGraph

end Datapath
