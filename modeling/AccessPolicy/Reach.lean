import AccessPolicy.Ascending

/-!
# Reachability in finite graphs

A graph is given by the successors of its nodes. `Reach.nodes` finds what can be reached from a node
by one edge or more: it goes through a queue, adds each node that was not seen before to the seen
ones and puts its successors at the end of the queue. With at most `edges` edges in the graph, the
queue is empty after `2 * edges` steps, cycles or not.

`Reach.finds` looks for one node. It ends as soon as the node is a successor, and it marks nodes
when they are put into the queue, so that each of them is put there once; only the start, which is
not marked, may come again. So `edges + 1` steps are enough.
-/

namespace AccessPolicy.Reach

variable {α : Type} [DecidableEq α] [Ord α]

/-- Go through a queue. The count bounds the nodes that are taken from it. -/
def explore (next : α → List α) : (count : Nat) → (queue seen : List α) → List α
  | 0, _, seen => seen
  | _ + 1, [], seen => seen
  | count + 1, a :: queue, seen =>
    if a ∈ seen then explore next count queue seen
    else explore next count (queue ++ next a) (Ascending.insert a seen)

/-- The nodes that can be reached from a node by one edge or more, ascending. -/
def nodes (next : α → List α) (edges : Nat) (start : α) : List α :=
  explore next (2 * edges + 1) (next start) []

/-- Put the successors of a node at the end of the queue and mark them, but for those that are
marked; nothing is left to do if the target is among them. -/
def push? (target : α) : (successors queue marked : List α) → Option (List α × List α)
  | [], queue, marked => some (queue, marked)
  | b :: bs, queue, marked =>
    if b = target then none
    else if b ∈ marked then push? target bs queue marked
    else push? target bs (queue ++ [b]) (Ascending.insert b marked)

/-- Go through a queue until the target is found. The count bounds the nodes that are taken from
it. -/
def seek (next : α → List α) (target : α) : (count : Nat) → (queue marked : List α) → Bool
  | 0, _, _ => false
  | _ + 1, [], _ => false
  | count + 1, a :: queue, marked =>
    match push? target (next a) queue marked with
    | none => true
    | some (queue, marked) => seek next target count queue marked

/-- Whether a node is found from another one by one edge or more. -/
def finds (next : α → List α) (edges : Nat) (start target : α) : Bool :=
  seek next target (edges + 1) [start] []

end AccessPolicy.Reach
