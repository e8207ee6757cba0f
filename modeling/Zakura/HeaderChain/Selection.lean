import Zakura.HeaderChain.Edits

/-!
The scan of `select_best_header_chain` is an argmax over ranked tips. It does not
depend on the order of the scan, and no eligible header has more suffix work.
-/

namespace Zakura.HeaderChain

open FiniteMap List Option

def tipCandidate (find : Hash → Option HeaderNode) (anchor : WorkCoordinate) (hash : Hash) :
    Option (Frontier × ChainScore) :=
  match find hash with
  | none => none
  | some node =>
    match node.workCoordinate.suffixAfter anchor with
    | .error _ => none
    | .ok suffixWork =>
      some (node.frontier, { suffixWork := suffixWork, tipHash := node.hash })

section

variable {find : Hash → Option HeaderNode} {anchor : WorkCoordinate} {preferred : Option Frontier}

theorem tipCandidate_eq_some {hash : Hash} {candidate : Frontier × ChainScore} :
    tipCandidate find anchor hash = some candidate ↔ ∃ node suffixWork, find hash = some node ∧
        node.workCoordinate.suffixAfter anchor = .ok suffixWork ∧
        candidate = (node.frontier, { suffixWork := suffixWork, tipHash := node.hash }) := by
  unfold tipCandidate
  cases found : find hash with
  | none => simp
  | some node =>
    cases suffix : node.workCoordinate.suffixAfter anchor with
    | error error => simp [suffix]
    | ok suffixWork => simp [suffix, eq_comm]

theorem selectBestLoop_eq (preferred : Option Frontier) (tips : List Hash)
    (best : Option (Frontier × ChainScore))
    (ranked : ∀ hash ∈ tips, (tipCandidate find anchor hash).isSome = true) :
    selectBestLoop find anchor preferred tips best =
      .ok ((tips.filterMap (tipCandidate find anchor)).foldl (List.argAux fun next current =>
          selectionRank preferred current < selectionRank preferred next) best) := by
  induction tips generalizing best with
  | nil => rfl
  | cons hash rest ih =>
    obtain ⟨_, known⟩ := isSome_iff_exists.mp (ranked hash (by simp))
    obtain ⟨_, _, found, suffix, rfl⟩ := tipCandidate_eq_some.mp known
    simp only [selectBestLoop, found, suffix, filterMap_cons, known, foldl_cons]
    rw [ih _ fun other member => ranked other (by simp [member])]
    congr 2
    cases best with
    | none => rfl
    | some current =>
      simp only [argAux, all_some, decide_eq_true_eq]

theorem selectionRank_injective {first second : Hash}
    (keyed : ∀ {hash node}, find hash = some node → node.hash = hash)
    {left right : Frontier × ChainScore} (leftKnown : tipCandidate find anchor first = some left)
    (rightKnown : tipCandidate find anchor second = some right)
    (same : selectionRank preferred left = selectionRank preferred right) : left = right := by
  obtain ⟨_, _, leftFound, _, leftEq⟩ := tipCandidate_eq_some.mp leftKnown
  obtain ⟨_, _, rightFound, _, rightEq⟩ := tipCandidate_eq_some.mp rightKnown
  have hashes : left.1.hash = right.1.hash := by
    simp only [selectionRank, EmbeddingLike.apply_eq_iff_eq, Prod.mk.injEq] at same
    exact same.2.2
  have firstKey : left.1.hash = first := by
    rw [leftEq]
    exact keyed leftFound
  have secondKey : right.1.hash = second := by
    rw [rightEq]
    exact keyed rightFound
  rw [← firstKey, hashes, secondKey, rightKnown] at leftKnown
  exact (some.inj leftKnown).symm

structure BestCandidate (find : Hash → Option HeaderNode) (anchor : WorkCoordinate)
    (preferred : Option Frontier) (tips : List Hash) (best : Frontier × ChainScore) : Prop where
  listed : ∃ hash ∈ tips, tipCandidate find anchor hash = some best
  maximal : ∀ hash ∈ tips, ∀ candidate, tipCandidate find anchor hash = some candidate →
    selectionRank preferred candidate ≤ selectionRank preferred best

theorem BestCandidate.unique {tips others : List Hash} {first second : Frontier × ChainScore}
    (keyed : ∀ {hash node}, find hash = some node → node.hash = hash)
    (same : ∀ hash, hash ∈ tips ↔ hash ∈ others)
    (firstBest : BestCandidate find anchor preferred tips first)
    (secondBest : BestCandidate find anchor preferred others second) : first = second := by
  obtain ⟨_, firstListed, firstKnown⟩ := firstBest.listed
  obtain ⟨_, secondListed, secondKnown⟩ := secondBest.listed
  apply selectionRank_injective keyed firstKnown secondKnown
  apply le_antisymm
  · exact secondBest.maximal _ ((same _).mp firstListed) _ firstKnown
  · exact firstBest.maximal _ ((same _).mpr secondListed) _ secondKnown

theorem selectBestLoop_best (preferred : Option Frontier) {tips : List Hash} (nonempty : tips ≠ [])
    (ranked : ∀ hash ∈ tips, (tipCandidate find anchor hash).isSome = true) :
    ∃ best, selectBestLoop find anchor preferred tips none = .ok (some best) ∧
      BestCandidate find anchor preferred tips best := by
  rw [selectBestLoop_eq preferred tips none ranked]
  change ∃ best, Except.ok ((tips.filterMap (tipCandidate find anchor)).argmax
    (selectionRank preferred)) = .ok (some best) ∧ _
  cases chosen : (tips.filterMap (tipCandidate find anchor)).argmax (selectionRank preferred) with
  | none =>
    obtain ⟨hash, _, rfl⟩ := exists_cons_of_ne_nil nonempty
    obtain ⟨candidate, known⟩ := isSome_iff_exists.mp (ranked hash (by simp))
    simp [known] at chosen
  | some best =>
    refine ⟨best, rfl, ?_, ?_⟩
    · obtain ⟨hash, member, known⟩ := mem_filterMap.mp (argmax_mem chosen)
      exact ⟨hash, member, known⟩
    · intro hash member candidate known
      exact le_of_mem_argmax (mem_filterMap.mpr ⟨hash, member, known⟩) chosen

end

namespace HeaderGraphView

variable {view : HeaderGraphView} {anchor : HeaderNode}

variable {hash : Hash} {node moved : HeaderNode} {scan : List Hash}

section

variable (coherent : view.Coherent) (rootFound : view.find view.finalized.hash = some anchor)
include coherent rootFound

theorem Coherent.suffixAfter_eq (found : view.find hash = some node) :
    node.workCoordinate.suffixAfter anchor.workCoordinate =
      .ok (node.workCoordinate.cumulative - anchor.workCoordinate.cumulative) := by
  obtain ⟨origin, _⟩ := coherent.coordinate_above_root rootFound found
  exact WorkCoordinate.suffixAfter_eq_ok.mpr ⟨origin, by omega⟩

theorem Coherent.tipCandidate_eq (found : view.find hash = some node) :
    tipCandidate view.find anchor.workCoordinate hash = some (node.frontier, {
      suffixWork := node.workCoordinate.cumulative - anchor.workCoordinate.cumulative
      tipHash := node.hash }) :=
  tipCandidate_eq_some.mpr ⟨node, _, found, coherent.suffixAfter_eq rootFound found, rfl⟩

theorem Coherent.tips_ranked (member : hash ∈ view.tips) :
    (tipCandidate view.find anchor.workCoordinate hash).isSome = true := by
  obtain ⟨_, found⟩ := coherent.tip_found member
  rw [coherent.tipCandidate_eq rootFound found]
  rfl

end

theorem Coherent.tip_above (coherent : view.Coherent) (bounded : view.Bounded)
    (found : view.find hash = some node) (eligible : node.isEligible = true) :
    ∃ tip ∈ view.tips, ∃ tipNode, view.find tip = some tipNode ∧
      node.workCoordinate.cumulative ≤ tipNode.workCoordinate.cumulative := by
  generalize gap : Height.maximum - node.height = distance
  induction distance using Nat.strongRecOn generalizing hash node with
  | ind distance ih =>
    by_cases isTip : view.isEligibleHeaderTip hash = true
    · exact ⟨hash, (coherent.tips hash).mpr isTip, node, found, le_refl _⟩
    rw [isEligibleHeaderTip_iff] at isTip
    push Not at isTip
    obtain ⟨_, member, childNode, childFound, childEligible⟩ := isTip node found eligible
    obtain ⟨_, otherFound, notRoot, link, height⟩ := coherent.child_height found member
    obtain rfl := mem_unique childFound otherFound
    have bound := bounded _ _ childFound notRoot
    obtain ⟨tip, tipMember, tipNode, tipFound, work⟩ := ih (Height.maximum - childNode.height)
      (by omega) childFound (by simpa using childEligible) rfl
    have sum := coherent.work childFound notRoot (link ▸ found)
    have step := (WorkCoordinate.checkedAdd_eq_ok.mp sum).2.1
    exact ⟨tip, tipMember, tipNode, tipFound, by omega⟩

section

variable (coherent : view.Coherent) (bounded : view.Bounded)
  (rootFound : view.find view.finalized.hash = some anchor)
include coherent bounded rootFound

theorem Coherent.selectBestIn_best (eligible : anchor.isEligible = true)
    (scans : ∀ hash, hash ∈ scan ↔ hash ∈ view.tips) :
    ∃ best, selectBestIn view.find view.finalized view.preferred scan = .ok best ∧
      BestCandidate view.find anchor.workCoordinate view.preferred scan best := by
  obtain ⟨tip, member, _⟩ := coherent.tip_above bounded rootFound eligible
  have nonempty : scan ≠ [] := by
    rintro rfl
    simpa using (scans tip).mpr member
  obtain ⟨best, run, isBest⟩ := selectBestLoop_best view.preferred nonempty
    fun hash listed => coherent.tips_ranked rootFound ((scans hash).mp listed)
  exact ⟨best, by simp only [selectBestIn, rootFound, run], isBest⟩

theorem Coherent.best_of_eligible (scans : ∀ hash, hash ∈ scan ↔ hash ∈ view.tips)
    {best : Frontier × ChainScore}
    (isBest : BestCandidate view.find anchor.workCoordinate view.preferred scan best)
    (found : view.find hash = some node) (eligible : node.isEligible = true) :
    ∃ score, view.headerChainScore hash = .ok score ∧ score.suffixWork ≤ best.2.suffixWork := by
  obtain ⟨tip, member, tipNode, tipFound, _⟩ := coherent.tip_above bounded found eligible
  have suffix := coherent.suffixAfter_eq rootFound found
  refine ⟨{ suffixWork := node.workCoordinate.cumulative - anchor.workCoordinate.cumulative
            tipHash := hash }, ?_, ?_⟩
  · simp only [headerChainScore, headerChainScoreIn, rootFound, found, suffix]
  have lower := isBest.maximal tip ((scans tip).mpr member) _
    (coherent.tipCandidate_eq rootFound tipFound)
  have ranks : tipNode.workCoordinate.cumulative - anchor.workCoordinate.cumulative ≤
      best.2.suffixWork := Prod.Lex.monotone_fst _ _ lower
  dsimp only
  omega

end

section

variable {final : HeaderGraphView} (coherent : view.Coherent)
  (rootFound : view.find view.finalized.hash = some anchor)
  (rebased : view.Rebased final anchor.workCoordinate)
include coherent rootFound rebased

theorem Coherent.tipCandidate_rebase (movedFound : final.find final.finalized.hash = some moved)
    (hash : Hash) : tipCandidate final.find moved.workCoordinate hash =
      tipCandidate view.find anchor.workCoordinate hash := by
  have finalCoherent := coherent.rebase rootFound rebased
  have movedEq : moved = rebaseNode view.finalized.hash anchor.workCoordinate anchor := by
    rw [rebased.find, rebased.finalized, rootFound] at movedFound
    exact (some.inj movedFound).symm
  cases found : view.find hash with
  | none =>
    have absent : final.find hash = none := by rw [rebased.find, found, map_none]
    simp [tipCandidate, found, absent]
  | some node =>
    have finalFound : final.find hash =
        some (rebaseNode view.finalized.hash anchor.workCoordinate node) := by
      rw [rebased.find, found, map_some]
    rw [coherent.tipCandidate_eq rootFound found,
      finalCoherent.tipCandidate_eq movedFound finalFound, movedEq,
      coherent.rebaseNode_eq rootFound found, coherent.rebaseNode_eq rootFound rootFound]
    simp [HeaderNode.frontier]

theorem Coherent.selectBestIn_rebase (preferred : Option Frontier)
    (scans : ∀ hash ∈ scan, hash ∈ view.tips) :
    selectBestIn final.find final.finalized preferred scan =
      selectBestIn view.find view.finalized preferred scan := by
  obtain ⟨moved, movedFound, _⟩ := (coherent.rebase rootFound rebased).root
  have candidates := coherent.tipCandidate_rebase rootFound rebased movedFound
  have ranked (hash : Hash) (listed : hash ∈ scan) :=
    coherent.tips_ranked rootFound (scans hash listed)
  have same : selectBestLoop final.find moved.workCoordinate preferred scan none =
      selectBestLoop view.find anchor.workCoordinate preferred scan none := by
    rw [selectBestLoop_eq preferred scan none ranked,
      selectBestLoop_eq preferred scan none fun hash listed => by
        rw [candidates]
        exact ranked hash listed,
      funext candidates]
  rw [rebased.finalized] at movedFound ⊢
  simp [selectBestIn, movedFound, rootFound, same]

end

end HeaderGraphView

end Zakura.HeaderChain
