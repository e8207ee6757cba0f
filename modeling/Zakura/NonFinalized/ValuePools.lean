import Zakura.Lib.Fallible
import Mathlib.Algebra.Order.Group.Int
import Mathlib.Data.Fintype.Pi

/-!
Amounts with their range, the value pools of a chain, and the change of the
pools by a block.
-/

namespace Zakura.NonFinalized

open Fallible

def maxMoney : Int := 21000000 * 100000000

inductive Constraint
  | nonNegative
  | negativeAllowed
deriving DecidableEq, Repr

variable {constraint : Constraint}

def Constraint.lowest : Constraint → Int
  | .nonNegative => 0
  | .negativeAllowed => -maxMoney

def Constraint.Holds (constraint : Constraint) (value : Int) : Prop :=
  constraint.lowest ≤ value ∧ value ≤ maxMoney

instance (constraint : Constraint) : DecidablePred constraint.Holds :=
  fun value => inferInstanceAs (Decidable (constraint.lowest ≤ value ∧ value ≤ maxMoney))

theorem Constraint.lowest_bounds (constraint : Constraint) :
    -maxMoney ≤ constraint.lowest ∧ constraint.lowest ≤ 0 := by
  cases constraint <;> simp [Constraint.lowest, maxMoney]

structure Amount (constraint : Constraint) where
  zatoshis : Int
  inRange : constraint.Holds zatoshis
deriving DecidableEq

inductive AmountError
  | constraint (value : Int) (constraint : Constraint)
deriving DecidableEq, Repr

namespace Amount

theorem ext {first second : Amount constraint} (same : first.zatoshis = second.zatoshis) :
    first = second := by
  cases first
  cases second
  cases same
  rfl

def ofInt (constraint : Constraint) (value : Int) : Except AmountError (Amount constraint) :=
  if inRange : constraint.Holds value then .ok ⟨value, inRange⟩
  else .error (.constraint value constraint)

theorem ofInt_eq_ok {value : Int} {amount : Amount constraint} :
    ofInt constraint value = .ok amount ↔ value = amount.zatoshis := by
  unfold ofInt
  split
  · simp only [Except.ok.injEq]
    constructor
    · rintro rfl
      rfl
    · exact fun same => ext same
  next outside =>
    simp only [reduceCtorEq, false_iff]
    rintro rfl
    exact outside amount.inRange

def zero : Amount constraint :=
  ⟨0, constraint.lowest_bounds.2, by simp [maxMoney]⟩

def add (first second : Amount constraint) : Except AmountError (Amount constraint) :=
  ofInt constraint (first.zatoshis + second.zatoshis)

def neg (amount : Amount constraint) : Amount .negativeAllowed :=
  ⟨-amount.zatoshis, by
    obtain ⟨low, high⟩ := amount.inRange
    have bounds := constraint.lowest_bounds
    exact ⟨Int.neg_le_neg high, by omega⟩⟩

def constrain (target : Constraint) (amount : Amount constraint) :
    Except AmountError (Amount target) :=
  ofInt target amount.zatoshis

def toNegativeAllowed (amount : Amount constraint) : Amount .negativeAllowed :=
  ⟨amount.zatoshis, le_trans constraint.lowest_bounds.1 amount.inRange.1, amount.inRange.2⟩

end Amount

inductive ValuePool
  | transparent
  | sprout
  | sapling
  | orchard
  | deferred
  | ironwood
deriving DecidableEq, Repr

instance : Fintype ValuePool where
  elems := {.transparent, .sprout, .sapling, .orchard, .deferred, .ironwood}
  complete := by
    intro pool
    cases pool <;> decide

inductive SubsidyError
  | overflow
  | underflow
  | unsupportedHeight
  | invalidAmount (error : AmountError)
deriving DecidableEq, Repr

structure ValueBalance (constraint : Constraint) where
  amount : ValuePool → Amount constraint
  nsmValueBalance : Amount .negativeAllowed
deriving DecidableEq

inductive ValueBalanceError
  | pool (pool : ValuePool) (error : AmountError)
  | nsmValueBalance (error : AmountError)
  | nsmSeedMismatch (derived expected : Amount .nonNegative)
  | scheduledIssuance (error : SubsidyError)
  | total (error : AmountError)
deriving DecidableEq

/-- Evaluate one amount for each pool, in the order of the pools, stopping at the first error. -/
def eachPool {constraint : Constraint}
    (field : ValuePool → Except AmountError (Amount constraint)) :
    Except ValueBalanceError (ValuePool → Amount constraint) := do
  let transparent ← (field .transparent).mapError (.pool .transparent)
  let sprout ← (field .sprout).mapError (.pool .sprout)
  let sapling ← (field .sapling).mapError (.pool .sapling)
  let orchard ← (field .orchard).mapError (.pool .orchard)
  let deferred ← (field .deferred).mapError (.pool .deferred)
  let ironwood ← (field .ironwood).mapError (.pool .ironwood)
  return fun
    | .transparent => transparent
    | .sprout => sprout
    | .sapling => sapling
    | .orchard => orchard
    | .deferred => deferred
    | .ironwood => ironwood

theorem eachPool_eq_ok {constraint : Constraint}
    {field : ValuePool → Except AmountError (Amount constraint)}
    {amounts : ValuePool → Amount constraint} :
    eachPool field = .ok amounts ↔ ∀ pool, field pool = .ok (amounts pool) := by
  constructor
  · intro evaluated
    simp only [eachPool, bind, Except.bind] at evaluated
    repeat' split at evaluated
    all_goals try simp only [reduceCtorEq] at evaluated
    simp only [mapError_eq_ok, pure, Except.pure, Except.ok.injEq] at *
    subst evaluated
    intro pool
    cases pool <;> assumption
  · intro each
    simp only [eachPool, each, Except.mapError, bind, Except.bind, pure, Except.pure,
      Except.ok.injEq]
    funext pool
    cases pool <;> rfl

namespace ValueBalance

def zero : ValueBalance constraint where
  amount := fun _ => .zero
  nsmValueBalance := .zero

def setNsmValueBalanceAmount (nsm : Amount .negativeAllowed) (balance : ValueBalance constraint) :
    ValueBalance constraint :=
  { balance with nsmValueBalance := nsm }

def poolSum (balance : ValueBalance constraint) : Int :=
  (balance.amount .transparent).zatoshis + (balance.amount .sprout).zatoshis +
    (balance.amount .sapling).zatoshis + (balance.amount .orchard).zatoshis +
    (balance.amount .deferred).zatoshis + (balance.amount .ironwood).zatoshis

def total (balance : ValueBalance constraint) : Except AmountError (Amount constraint) :=
  Amount.ofInt constraint balance.poolSum

def add (first second : ValueBalance constraint) :
    Except ValueBalanceError (ValueBalance constraint) := do
  let amount ← eachPool fun pool => (first.amount pool).add (second.amount pool)
  let nsm ← (first.nsmValueBalance.add second.nsmValueBalance).mapError .nsmValueBalance
  return { amount := amount, nsmValueBalance := nsm }

def neg (balance : ValueBalance constraint) : ValueBalance .negativeAllowed where
  amount := fun pool => (balance.amount pool).neg
  nsmValueBalance := balance.nsmValueBalance.neg

def constrain (target : Constraint) (balance : ValueBalance constraint) :
    Except ValueBalanceError (ValueBalance target) := do
  let amount ← eachPool fun pool => (balance.amount pool).constrain target
  return { amount := amount, nsmValueBalance := balance.nsmValueBalance }

def toNegativeAllowed (balance : ValueBalance constraint) : ValueBalance .negativeAllowed where
  amount := fun pool => (balance.amount pool).toNegativeAllowed
  nsmValueBalance := balance.nsmValueBalance

/-- The pools after a block's change: every pool stays nonnegative and their sum within
`maxMoney`. -/
def addChainValuePoolChange (pools : ValueBalance .nonNegative)
    (change : ValueBalance .negativeAllowed) :
    Except ValueBalanceError (ValueBalance .nonNegative) := do
  let sum ← pools.toNegativeAllowed.add change
  let changed ← sum.constrain .nonNegative
  let _ ← changed.total.mapError .total
  return changed

theorem poolSum_nonneg (pools : ValueBalance .nonNegative) : 0 ≤ pools.poolSum := by
  have lowest (pool : ValuePool) : 0 ≤ (pools.amount pool).zatoshis := (pools.amount pool).inRange.1
  have first := lowest .transparent
  have second := lowest .sprout
  have third := lowest .sapling
  have fourth := lowest .orchard
  have fifth := lowest .deferred
  have sixth := lowest .ironwood
  unfold poolSum
  omega

theorem addChainValuePoolChange_eq_ok {pools changed : ValueBalance .nonNegative}
    {change : ValueBalance .negativeAllowed} : pools.addChainValuePoolChange change = .ok changed ↔
      (∀ pool, (pools.amount pool).zatoshis + (change.amount pool).zatoshis =
        (changed.amount pool).zatoshis) ∧
      pools.nsmValueBalance.zatoshis + change.nsmValueBalance.zatoshis =
        changed.nsmValueBalance.zatoshis ∧ changed.poolSum ≤ maxMoney := by
  simp only [addChainValuePoolChange, add, constrain, total, bind_eq_ok, eachPool_eq_ok,
    mapError_eq_ok, pure_eq_ok, Amount.add, Amount.constrain, Amount.ofInt_eq_ok,
    toNegativeAllowed, Amount.toNegativeAllowed]
  constructor
  · rintro ⟨_, ⟨_, sums, _, nsmSum, rfl⟩, _, ⟨_, same, rfl⟩, bound, within, rfl⟩
    exact ⟨fun pool => (sums pool).trans (same pool), nsmSum, within ▸ bound.inRange.2⟩
  rintro ⟨sums, nsmSum, within⟩
  have nonneg : 0 ≤ changed.poolSum := changed.poolSum_nonneg
  refine ⟨changed.toNegativeAllowed, ⟨fun pool => (changed.amount pool).toNegativeAllowed,
    sums, changed.nsmValueBalance, nsmSum, rfl⟩, changed, ⟨changed.amount, fun pool => rfl, rfl⟩,
    ⟨changed.poolSum, nonneg, within⟩, rfl, rfl⟩

end ValueBalance

end Zakura.NonFinalized
