import StructLang.Ssa.Basic

/-!
# Dominance

The table of dominators of a function's blocks, as the greatest solution of the usual equations: the
entry is dominated by itself only, and any other block by itself and by what dominates all its
predecessors. A set of blocks is a number whose bits say which blocks belong to it.
-/

namespace StructLang.Ssa

open scoped CoreNumbers

/-- A set of blocks as a bit mask. -/
abbrev BlockSet := Nat

namespace BlockSet

def all (n : Nat) : BlockSet := 2 ^ n - 1

def single (b : Nat) : BlockSet := 2 ^ b

end BlockSet

/-- The blocks to which control can go from a block. -/
def Block.successors (b : Block) : List Nat :=
  match b.terminator with
  | some t => t.successors
  | none => []

/-- The blocks from which control can go to a block. -/
def predecessors (blocks : List Block) (target : Nat) : List Nat :=
  (blocks.zipIdx.filter fun p => p.1.successors.contains target).map Prod.snd

/-- The dominators of a block as the equations give them from a table. -/
def dominatorsOf (blocks : List Block) (table : List BlockSet) (b : Nat) : BlockSet :=
  if b = 0 then BlockSet.single 0
  else
    (predecessors blocks b).foldl (fun s p => s &&& table.getD p 0) (BlockSet.all blocks.length)
      ||| BlockSet.single b

/-- Replace the set of one block by what the equations give for it. -/
def updateAt (blocks : List Block) (table : List BlockSet) (b : Nat) : List BlockSet :=
  table.set b (dominatorsOf blocks table b)

/-- Apply the equations to every block in order. A later block sees the new sets of the earlier ones. -/
def sweep (blocks : List Block) (table : List BlockSet) : List BlockSet :=
  (List.range blocks.length).foldl (updateAt blocks) table

/-- Sweep until nothing changes, at most the given number of times. -/
def refine (blocks : List Block) : Nat → List BlockSet → List BlockSet
  | 0, table => table
  | rounds + 1, table =>
    let next := sweep blocks table
    if next = table then table else refine blocks rounds next

/-- The table to begin with: any block may dominate any other, but the entry has itself only. -/
def undecided (blocks : List Block) : List BlockSet :=
  (List.range blocks.length).map fun b =>
    if b = 0 then BlockSet.single 0 else BlockSet.all blocks.length

/-- The dominators of each block. Each round but the last removes a block from some set, which bounds
their number; a block that control cannot reach is dominated by all. -/
def dominators (blocks : List Block) : List BlockSet :=
  refine blocks (blocks.length * blocks.length + 2) (undecided blocks)

end StructLang.Ssa
