/-!
# Exploring graphs

A graph is given by the successors of a node. `explore` lists what can be reached, breadth first;
`postorder` lists nodes depth first, each after its successors. Both stop after a bound on the
number of nodes.
-/

namespace Xref.Graph

variable {α : Type u} [DecidableEq α]

/-- The nodes that are new beside those listed, each once. -/
def fresh (known nodes : List α) : List α :=
  nodes.eraseDups.filter fun n => !known.contains n

/-- Continues a breadth first walk: `done` was handled, `queue` is waiting. -/
def explore (next : α → List α) : Nat → List α → List α → List α
  | 0, done, queue => done ++ queue
  | _ + 1, done, [] => done
  | bound + 1, done, n :: queue =>
    explore next bound (done ++ [n]) (queue ++ fresh (done ++ n :: queue) (next n))

/-- The nodes that can be reached from one, that one first; at most `bound` of them are expanded. -/
def reachable (next : α → List α) (bound : Nat) (start : α) : List α :=
  explore next bound [] [start]

/-- A depth first walk under way: the nodes entered, those left, in the order of leaving, and
whether a node was passed over because it lies too deep. -/
structure Walk (α : Type u) where
  entered : List α
  left : List α
  isCut : Bool

def Walk.start : Walk α :=
  ⟨[], [], false⟩

/-- Walks from a node; the first argument bounds the depth. -/
def Walk.visit (next : α → List α) : Nat → Walk α → α → Walk α
  | 0, w, n => if w.entered.contains n then w else { w with isCut := true }
  | bound + 1, w, n =>
    if w.entered.contains n then w
    else
      let w := (next n).foldl (Walk.visit next bound) { w with entered := n :: w.entered }
      { w with left := w.left ++ [n] }

/-- The nodes that can be reached from some roots, each after its successors. -/
def postorder (next : α → List α) (bound : Nat) (roots : List α) : List α :=
  (roots.foldl (Walk.visit next bound) .start).left

/-- Whether a depth first walk from some roots, which enters each node once, goes deeper than a
bound. -/
def exceeds (next : α → List α) (bound : Nat) (roots : List α) : Bool :=
  (roots.foldl (Walk.visit next bound) .start).isCut

end Xref.Graph
