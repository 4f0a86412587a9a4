import ProofDesk.Chain.Basic
import ProofDesk.View

/-!
This module contains the display of equivalence chains.
-/

namespace ProofDesk

structure ChainView where
  start : Marked
  lines : List LineView
  deriving DecidableEq, Repr

def ChainView.toJson (v : ChainView) : Json :=
  .obj [("start", v.start.toJson), ("lines", .arr (v.lines.map LineView.toJson))]

namespace Link

def marksIn (l : Link) (p : Formula) : List Position :=
  l.reading.chosenPositions l.chosen p

end Link

namespace Chain

def marksFromBelow (p : Formula) : Option Link → List (Position × Direction)
  | some next =>
    match next.direction with
    | .forward => (next.marksIn p).map (·, .forward)
    | .backward => []
  | none => []

def marks (link : Link) (next : Option Link) : List (Position × Direction) :=
  marksFromBelow link.formula next ++
    match link.direction with
    | .forward => []
    | .backward => (link.marksIn link.formula).map (·, .backward)

def linkView (above : Formula) (link : Link) (next : Option Link) : LineView where
  label := none
  depth := 0
  formula := link.formula.marked (marks link next)
  ruleName := link.reading.name?
  direction := link.direction
  isComplete := link.reading.isComplete
  isCorrect := link.isCorrect above
  isEditing := link.editing
  arguments := []
  choices := []
  needsVersion := link.reading.needsLattice
  matchCount := if link.reading.isComplete then some (link.matchCount above) else none
  isDeletable := next.isSome
  isEditable := true

def linkViews (above : Formula) : List Link → List LineView
  | [] => []
  | link :: links => linkView above link links.head? :: linkViews link.formula links

def view (c : Chain) : ChainView where
  start := c.start.marked (marksFromBelow c.start c.links.head?)
  lines := linkViews c.start c.links

end Chain

end ProofDesk
