import Zakura.Finalized.FrontierCore
import Mathlib.Tactic.ByContra

/-!
Trees are recomputed from the trees of the parent block, in every run in which the write of
the handoff block does not fail after its checks while the stored tip has no trees.
-/

namespace Zakura.Finalized

open Option

variable {Block Sprout Notes : Type} {parent : NoteCommitmentTrees Sprout Notes}

namespace TreeRules

variable (rules : TreeRules Block Sprout Notes) (chain : Nat → Block)

/-- The trees after the first blocks of a chain. -/
def treesAfter : Nat → Option (NoteCommitmentTrees Sprout Notes)
  | 0 => some rules.empty
  | count + 1 => (treesAfter count).bind fun trees =>
    (rules.updateSprout trees.sprout (chain count)).bind fun sprout =>
      (rules.updateNotes trees.notes (chain count)).map (⟨sprout, ·⟩)

variable {rules chain} {count later : Nat} {trees next : NoteCommitmentTrees Sprout Notes}

theorem treesAfter_of_le (before : count ≤ later)
    (found : rules.treesAfter chain later = some trees) :
    ∃ earlier, rules.treesAfter chain count = some earlier := by
  induction before generalizing trees with
  | refl => exact ⟨trees, found⟩
  | step _ ih =>
    obtain ⟨_, isPrevious, _⟩ := bind_eq_some_iff.mp found
    exact ih isPrevious

theorem treesAfter_succ (isParent : rules.treesAfter chain count = some parent) :
    rules.treesAfter chain (count + 1) = some next ↔
      rules.updateSprout parent.sprout (chain count) = some next.sprout ∧
        rules.updateNotes parent.notes (chain count) = some next.notes := by
  rw [treesAfter, isParent, bind_some]
  cases sprout : rules.updateSprout parent.sprout (chain count) <;>
    cases notes : rules.updateNotes parent.notes (chain count) <;>
      simp [NoteCommitmentTrees.ext_iff]

end TreeRules

namespace TreeCommitter

variable {rules : TreeRules Block Sprout Notes} {chain : Nat → Block} {block : Block}
  {final : FinalFrontiers Sprout Notes} {state : TreeCommitter Sprout Notes}

/-- The trees of the parent of the next block. -/
structure Sound (rules : TreeRules Block Sprout Notes) (chain : Nat → Block)
    (final : FinalFrontiers Sprout Notes) (state : TreeCommitter Sprout Notes)
    (parent : NoteCommitmentTrees Sprout Notes) : Prop where
  isParent : rules.treesAfter chain state.db.nextHeight = some parent
  source : ∀ other ∈ state.source, other = final
  marker : ∀ handoff ∈ state.db.syncedBelow, handoff = final.height ∧ state.db.tip.isSome = true
  flag : state.db.treeAbsent = true → state.isBelowLastCheckpoint = true
  sprout : state.db.trees.sprout = parent.sprout ∧ ∀ trees ∈ state.memory,
    trees.sprout = parent.sprout
  exact : state.db.treeAbsent = false → state.db.trees = parent ∧ ∀ trees ∈ state.memory,
    trees = parent

theorem Sound.parentTrees_sprout (sound : state.Sound rules chain final parent) :
    (state.parentTrees rules).sprout = parent.sprout := by
  unfold parentTrees
  cases memory : state.memory with
  | some trees => exact sound.sprout.2 trees memory
  | none =>
    rw [getD_none, TreeDatabase.treesForTip]
    split <;> exact sound.sprout.1

theorem Sound.parentTrees_eq (sound : state.Sound rules chain final parent)
    (above : state.isBelowLastCheckpoint = false) : state.parentTrees rules = parent := by
  have stored : state.db.treeAbsent = false := by
    by_contra absent
    rw [sound.flag (Bool.not_eq_false _ ▸ absent)] at above
    exact absurd above.symm Bool.false_ne_true
  unfold parentTrees
  cases memory : state.memory with
  | some trees => exact (sound.exact stored).2 trees memory
  | none =>
    rw [getD_none, TreeDatabase.treesForTip, stored]
    exact (sound.exact stored).1

variable [DecidableEq Sprout] {supplied : Option RootCheck}

/-- What the checks of the next block end with. -/
inductive Prepared (rules : TreeRules Block Sprout Notes) (state : TreeCommitter Sprout Notes)
    (block : Block) (supplied : Option RootCheck) : Bool × Option (TreeWrite Sprout Notes) → Prop
  | refused : Prepared rules state block supplied (state.isBelowLastCheckpoint, none)
  | handoff {final : FinalFrontiers Sprout Notes} {sprout : Sprout}
      (isSupplied : supplied.isSome = true) (source : state.source = some final)
      (updated : rules.updateSprout (state.parentTrees rules).sprout block = some sprout)
      (atHandoff : state.db.nextHeight = final.height) (same : sprout = final.trees.sprout) :
      Prepared rules state block supplied
        (false, some ⟨⟨sprout, final.trees.notes⟩, final.trees.notes, some final.height⟩)
  | fast {final : FinalFrontiers Sprout Notes} {sprout : Sprout}
      (source : state.source = some final)
      (updated : rules.updateSprout (state.parentTrees rules).sprout block = some sprout)
      (below : state.db.nextHeight < final.height) :
      Prepared rules state block supplied (true, some ⟨⟨sprout, (state.parentTrees rules).notes⟩,
        state.db.trees.notes, some final.height⟩)
  | recomputed {sprout : Sprout} {notes : Notes} (above : state.isBelowLastCheckpoint = false)
      (updated : rules.updateSprout (state.parentTrees rules).sprout block = some sprout)
      (updatedNotes : rules.updateNotes (state.parentTrees rules).notes block = some notes) :
      Prepared rules state block supplied (state.isBelowLastCheckpoint,
        some ⟨⟨sprout, notes⟩, notes, state.db.syncedBelow⟩)

theorem prepared (rules : TreeRules Block Sprout Notes) (state : TreeCommitter Sprout Notes)
    (block : Block) (supplied : Option RootCheck) :
    Prepared rules state block supplied (state.prepare rules block supplied) := by
  unfold prepare
  dsimp only
  split
  next frontiersMatch isExact =>
    unfold exactRoots at isExact
    split at isExact
    next accepts =>
      split
      next final sprout source updated =>
        rw [source] at accepts
        have within : state.db.nextHeight ≤ final.height := of_decide_eq_true accepts
        split
        next atHandoff =>
          split
          next matched =>
            have same := of_decide_eq_true (Bool.and_eq_true_iff.mp matched).2
            exact .handoff (by simp [isExact]) source updated atHandoff same
          · exact .refused
        next notHandoff =>
          exact .fast source updated (Nat.lt_of_le_of_ne within notHandoff)
      · exact .refused
    · cases isExact
  · exact .refused
  · split
    · exact .refused
    rename_i notBelow
    split
    next updated updatedNotes =>
      exact .recomputed (Bool.not_eq_true _ ▸ notBelow) updated updatedNotes
    · exact .refused

inductive Operation
  | commit (supplied : Option RootCheck) (writes keeps : Bool)
  | restart (enabled : Bool)

def apply (rules : TreeRules Block Sprout Notes) (chain : Nat → Block)
    (final : FinalFrontiers Sprout Notes) (state : TreeCommitter Sprout Notes) :
    Operation → TreeCommitter Sprout Notes
  | .commit supplied writes keeps =>
    state.commit rules (chain state.db.nextHeight) supplied writes keeps
  | .restart enabled => reopen state.db (if enabled then some final else none)

/-- While the stored tip has no trees, the write of the handoff block does not fail after its
supplied roots were checked. -/
def HandoffWritten (final : FinalFrontiers Sprout Notes) (state : TreeCommitter Sprout Notes) :
    Operation → Prop
  | .commit supplied writes _ =>
    state.db.nextHeight = final.height → state.db.treeAbsent = true → supplied.isSome = true →
      writes = true
  | .restart _ => True

theorem Sound.commit (sound : state.Sound rules chain final parent)
    (genuine : rules.treesAfter chain (final.height + 1) = some final.trees) (writes keeps : Bool)
    (written : HandoffWritten final state (.commit supplied writes keeps)) :
    ∃ next, (state.commit rules (chain state.db.nextHeight) supplied writes keeps).Sound
      rules chain final next := by
  have stays (flag : Bool) (raised : state.db.treeAbsent = true → flag = true) :
      Sound rules chain final { state with
        isBelowLastCheckpoint := flag
        memory := if keeps then state.memory else none } parent := by
    have fewer : ∀ trees ∈ (if keeps then state.memory else none), trees ∈ state.memory := by
      cases keeps <;> simp
    exact { sound with
      flag := raised
      sprout := sound.sprout.imp_right fun same trees kept => same trees (fewer trees kept)
      exact := fun stored => (sound.exact stored).imp_right fun same trees kept =>
        same trees (fewer trees kept) }
  have plan := prepared rules state (chain state.db.nextHeight) supplied
  unfold TreeCommitter.commit
  generalize state.prepare rules (chain state.db.nextHeight) supplied = result at plan ⊢
  cases plan with
  | refused => exact ⟨parent, stays _ sound.flag⟩
  | @handoff other sprout isSupplied source updated atHandoff same =>
    obtain rfl := sound.source other source
    cases writes with
    | false => exact ⟨parent, stays false fun absent => written atHandoff absent isSupplied⟩
    | true =>
      subst same
      have stored : TreeDatabase.treeAbsent ⟨some state.db.nextHeight, other.trees,
          some other.height⟩ = false := by
        simp [TreeDatabase.treeAbsent, atHandoff]
      refine ⟨other.trees, ?_, sound.source, ?_, ?_, ⟨rfl, ?_⟩, fun _ => ⟨rfl, ?_⟩⟩
      · exact (congrArg (rules.treesAfter chain ·.succ) atHandoff).trans genuine
      · rintro _ ⟨⟩
        exact ⟨rfl, rfl⟩
      · exact fun absent => absurd (stored.symm.trans absent) Bool.false_ne_true
      · rintro _ ⟨⟩
        rfl
      · rintro _ ⟨⟩
        rfl
  | @fast other sprout source updated below =>
    obtain rfl := sound.source other source
    cases writes with
    | false => exact ⟨parent, stays true fun _ => rfl⟩
    | true =>
      obtain ⟨next, isNext⟩ := TreeRules.treesAfter_of_le (Nat.succ_le_succ (Nat.le_of_lt below)) genuine
      have sameSprout := ((TreeRules.treesAfter_succ sound.isParent).mp isNext).1
      rw [sound.parentTrees_sprout, sameSprout, some.injEq] at updated
      have absent : TreeDatabase.treeAbsent ⟨some state.db.nextHeight,
          (⟨sprout, state.db.trees.notes⟩ : NoteCommitmentTrees Sprout Notes),
          some other.height⟩ = true := by
        simp [TreeDatabase.treeAbsent, below]
      refine ⟨next, isNext, sound.source, ?_, fun _ => rfl, ⟨updated.symm, ?_⟩, fun stored => ?_⟩
      · rintro _ ⟨⟩
        exact ⟨rfl, rfl⟩
      · rintro _ ⟨⟩
        exact updated.symm
      · exact absurd (stored.symm.trans absent) Bool.false_ne_true
  | @recomputed sprout notes above updated updatedNotes =>
    cases writes with
    | false => exact ⟨parent, stays _ sound.flag⟩
    | true =>
      rw [sound.parentTrees_eq above] at updated updatedNotes
      refine ⟨⟨sprout, notes⟩, (TreeRules.treesAfter_succ sound.isParent).mpr
        ⟨updated, updatedNotes⟩, sound.source, fun handoff marked =>
          ⟨(sound.marker handoff marked).1, rfl⟩, fun absent => ?_, ⟨rfl, ?_⟩, fun _ => ⟨rfl, ?_⟩⟩
      · refine sound.flag ?_
        obtain ⟨handoff, marked, below⟩ := (any_eq_true _ _).mp absent
        obtain ⟨tip, isTip⟩ := isSome_iff_exists.mp (sound.marker handoff marked).2
        have reached : tip + 1 < handoff := by
          simpa [TreeDatabase.nextHeight, isTip] using below
        have marker : state.db.syncedBelow = some handoff := marked
        simp only [TreeDatabase.treeAbsent, marker, isTip, any_some, decide_eq_true_eq]
        omega
      · rintro _ ⟨⟩
        rfl
      · rintro _ ⟨⟩
        rfl

/-- The runs from an empty database, with or without the fast path. -/
inductive Reachable (rules : TreeRules Block Sprout Notes) (chain : Nat → Block)
    (final : FinalFrontiers Sprout Notes)
    (allowed : TreeCommitter Sprout Notes → Operation → Prop) : TreeCommitter Sprout Notes → Prop
  | start (enabled : Bool) : Reachable rules chain final allowed
      (reopen ⟨none, rules.empty, none⟩ (if enabled then some final else none))
  | step {state : TreeCommitter Sprout Notes} (operation : Operation)
      (reachable : Reachable rules chain final allowed state)
      (isAllowed : allowed state operation) :
      Reachable rules chain final allowed (state.apply rules chain final operation)

theorem Reachable.sound (genuine : rules.treesAfter chain (final.height + 1) = some final.trees)
    (reachable : Reachable rules chain final (HandoffWritten final) state) :
    ∃ parent, state.Sound rules chain final parent := by
  have opened (enabled : Bool) :
      ∀ other ∈ (if enabled then some final else none), other = final := by
    cases enabled <;> simp
  induction reachable with
  | start enabled => exact ⟨rules.empty, rfl, opened enabled, nofun, nofun, ⟨rfl, nofun⟩,
      fun _ => ⟨rfl, nofun⟩⟩
  | step operation _ isAllowed ih =>
    obtain ⟨parent, sound⟩ := ih
    cases operation with
    | commit supplied writes keeps => exact sound.commit genuine writes keeps isAllowed
    | restart enabled =>
      exact ⟨parent, sound.isParent, opened enabled, sound.marker, id, ⟨sound.sprout.1, nofun⟩,
        fun stored => ⟨(sound.exact stored).1, nofun⟩⟩

/-- The next block would be recomputed: it has no exact roots and the flag is down. -/
def Recomputes (state : TreeCommitter Sprout Notes) (supplied : Option RootCheck) : Prop :=
  state.exactRoots supplied = none ∧ state.isBelowLastCheckpoint = false

/-- A block is recomputed only from the trees of its parent, and the flag is up while the
stored tip has no trees. -/
theorem recomputed_from_parent
    (genuine : rules.treesAfter chain (final.height + 1) = some final.trees)
    (reachable : Reachable rules chain final (HandoffWritten final) state) :
    (state.db.treeAbsent = true → state.isBelowLastCheckpoint = true) ∧
      ∀ supplied, state.Recomputes supplied →
        rules.treesAfter chain state.db.nextHeight = some (state.parentTrees rules) := by
  obtain ⟨_, sound⟩ := reachable.sound genuine
  refine ⟨sound.flag, fun supplied recomputes => ?_⟩
  rw [sound.parentTrees_eq recomputes.2]
  exact sound.isParent

namespace Sample

def sums : TreeRules Nat Nat Nat :=
  ⟨⟨0, 0⟩, fun total block => some (total + block), fun total block => some (total + block)⟩

def ones : Nat → Nat := fun _ => 1

/-- The handoff is the third block. -/
def third : FinalFrontiers Nat Nat := ⟨2, ⟨3, 3⟩⟩

/-- Genesis is recomputed and the second block has supplied roots. -/
def frozen : TreeCommitter Nat Nat :=
  ⟨⟨some 1, ⟨2, 1⟩, some 2⟩, some third, true, some ⟨2, 1⟩⟩

/-- The write of the handoff block failed after its checks. -/
def failed : TreeCommitter Nat Nat := ⟨⟨some 1, ⟨2, 1⟩, some 2⟩, some third, false, none⟩

theorem reachable_frozen {allowed : TreeCommitter Nat Nat → Operation → Prop}
    (early : ∀ state operation, state.db.nextHeight < 2 → allowed state operation) :
    Reachable sums ones third allowed frozen :=
  .step (.commit (some (.accepted false)) true true) (.step (.commit none true true)
    (.start true) (early _ _ (by decide))) (early _ _ (by decide))

/-- After the handoff block was written the next block is recomputed. -/
def thawed : TreeCommitter Nat Nat := ⟨⟨some 2, ⟨3, 3⟩, some 2⟩, some third, false, some ⟨3, 3⟩⟩

theorem recomputed_from_parent_of_frozen :
    (frozen.db.treeAbsent = true ∧ frozen.isBelowLastCheckpoint = true) ∧
      thawed.Recomputes none ∧ sums.treesAfter ones 3 = some (thawed.parentTrees sums) := by
  have early (state : TreeCommitter Nat Nat) (operation : Operation)
      (before : state.db.nextHeight < 2) : HandoffWritten third state operation := by
    cases operation with
    | commit => exact fun atHandoff => absurd atHandoff (Nat.ne_of_lt before)
    | restart => trivial
  have reached : Reachable sums ones third (HandoffWritten third) thawed :=
    .step (.commit (some (.accepted true)) true true) (reachable_frozen early) fun _ _ _ => rfl
  have recomputes : thawed.Recomputes none := ⟨rfl, rfl⟩
  exact ⟨⟨rfl, (recomputed_from_parent rfl (reachable_frozen early)).1 rfl⟩, recomputes,
    (recomputed_from_parent rfl reached).2 none recomputes⟩

theorem recomputed_from_frozen : Reachable sums ones third (fun _ _ => True) failed ∧
    failed.db.treeAbsent = true ∧ failed.Recomputes none ∧
      sums.treesAfter ones failed.db.nextHeight ≠ some (failed.parentTrees sums) :=
  ⟨.step (.commit (some (.accepted true)) false false)
    (reachable_frozen fun _ _ _ => trivial) trivial, rfl, ⟨rfl, rfl⟩, by decide⟩

end Sample

end TreeCommitter

end Zakura.Finalized
