import Mathlib.Logic.Basic

/-!
Note commitment trees during a fast sync. Below the handoff a block with supplied roots
advances only the Sprout tree, and the other trees are frozen until the handoff block writes
the embedded frontiers.
-/

namespace Zakura.Finalized

@[ext] structure NoteCommitmentTrees (Sprout Notes : Type) where
  sprout : Sprout
  notes : Notes
  deriving DecidableEq

structure TreeRules (Block Sprout Notes : Type) where
  empty : NoteCommitmentTrees Sprout Notes
  updateSprout : Sprout → Block → Option Sprout
  updateNotes : Notes → Block → Option Notes

structure FinalFrontiers (Sprout Notes : Type) where
  height : Nat
  trees : NoteCommitmentTrees Sprout Notes

/-- The trees at the tip and the handoff height of a fast sync, as they are stored. -/
structure TreeDatabase (Sprout Notes : Type) where
  tip : Option Nat
  trees : NoteCommitmentTrees Sprout Notes
  syncedBelow : Option Nat

/-- What the checks of supplied roots end with, the roots of the embedded frontiers apart. -/
inductive RootCheck
  | rejected
  | awaitingSuccessor
  | accepted (frontiersMatch : Bool)
  deriving DecidableEq

/-- What a commit returns and writes. A block with supplied roots below the handoff leaves
the stored notes as they are. -/
structure TreeWrite (Sprout Notes : Type) where
  trees : NoteCommitmentTrees Sprout Notes
  storedNotes : Notes
  syncedBelow : Option Nat

/-- `memory` is the writer's copy of the trees that the last commit returned. -/
structure TreeCommitter (Sprout Notes : Type) where
  db : TreeDatabase Sprout Notes
  source : Option (FinalFrontiers Sprout Notes)
  isBelowLastCheckpoint : Bool
  memory : Option (NoteCommitmentTrees Sprout Notes)

variable {Block Sprout Notes : Type}

namespace TreeDatabase

def nextHeight (db : TreeDatabase Sprout Notes) : Nat := db.tip.elim 0 (· + 1)

/-- The tip is in the band without stored trees. -/
def treeAbsent (db : TreeDatabase Sprout Notes) : Bool :=
  db.syncedBelow.any fun handoff => db.tip.any (· < handoff)

def treesForTip (rules : TreeRules Block Sprout Notes) (db : TreeDatabase Sprout Notes) :
    NoteCommitmentTrees Sprout Notes :=
  if db.treeAbsent then ⟨db.trees.sprout, rules.empty.notes⟩ else db.trees

end TreeDatabase

namespace TreeCommitter

variable [DecidableEq Sprout] (rules : TreeRules Block Sprout Notes)

/-- The trees that a commit starts from. -/
def parentTrees (state : TreeCommitter Sprout Notes) : NoteCommitmentTrees Sprout Notes :=
  state.memory.getD (state.db.treesForTip rules)

/-- The roots the writer passes on: none above the handoff or without a source. -/
def exactRoots (state : TreeCommitter Sprout Notes) (supplied : Option RootCheck) :
    Option RootCheck :=
  if state.source.any (state.db.nextHeight ≤ ·.height) then supplied else none

/-- The write of the next block, or none if it is refused, with the flag as the checks leave
it. -/
def prepare (state : TreeCommitter Sprout Notes) (block : Block) (supplied : Option RootCheck) :
    Bool × Option (TreeWrite Sprout Notes) :=
  let trees := state.parentTrees rules
  let refused := (state.isBelowLastCheckpoint, none)
  match state.exactRoots supplied with
  | some (.accepted frontiersMatch) =>
    match state.source, rules.updateSprout trees.sprout block with
    | some final, some sprout =>
      if state.db.nextHeight = final.height then
        if frontiersMatch && decide (sprout = final.trees.sprout) then
          (false, some ⟨⟨sprout, final.trees.notes⟩, final.trees.notes, some final.height⟩)
        else refused
      else (true, some ⟨⟨sprout, trees.notes⟩, state.db.trees.notes, some final.height⟩)
    | _, _ => refused
  | some _ => refused
  | none =>
    if state.isBelowLastCheckpoint then refused
    else
      match rules.updateSprout trees.sprout block, rules.updateNotes trees.notes block with
      | some sprout, some notes =>
        (state.isBelowLastCheckpoint, some ⟨⟨sprout, notes⟩, notes, state.db.syncedBelow⟩)
      | _, _ => refused

/-- A commit of the next block. A failed one may keep or drop the writer's trees. -/
def commit (state : TreeCommitter Sprout Notes) (block : Block) (supplied : Option RootCheck)
    (writes keeps : Bool) : TreeCommitter Sprout Notes :=
  let prepared := state.prepare rules block supplied
  match prepared.2, writes with
  | some write, true =>
    ⟨⟨some state.db.nextHeight, ⟨write.trees.sprout, write.storedNotes⟩, write.syncedBelow⟩,
      state.source, prepared.1, some write.trees⟩
  | _, _ =>
    { state with
      isBelowLastCheckpoint := prepared.1
      memory := if keeps then state.memory else none }

/-- The flag is derived again from the stored marker. -/
def reopen (db : TreeDatabase Sprout Notes) (source : Option (FinalFrontiers Sprout Notes)) :
    TreeCommitter Sprout Notes :=
  ⟨db, source, db.treeAbsent, none⟩

end TreeCommitter

end Zakura.Finalized
