import Zakura.Lib.Checked
import Zakura.Lib.Totals

/-!
One limit on the bytes that concurrent readers keep. Each step is one atomic access to
the gauge; a refused lease keeps its charge until the step that drops it.
-/

namespace Zakura.BlockMemory

open Checked FiniteMap Option

structure ByteGauge where
  limit : Nat
  used : Nat

namespace ByteGauge

/-- Growth past the limit is refused unless the caller's `held` is all that is used. -/
def tryAdd (gauge : ByteGauge) (held bytes : Nat) : Option ByteGauge :=
  (add gauge.used bytes).bind fun next =>
    if next ≤ gauge.limit ∨ gauge.used = held then some { gauge with used := next } else none

def release (gauge : ByteGauge) (bytes : Nat) : ByteGauge :=
  { gauge with used := gauge.used - bytes }

def settle (gauge : ByteGauge) (held bytes : Nat) : Option ByteGauge :=
  match sub bytes held with
  | some growth => gauge.tryAdd held growth
  | none => some (gauge.release (held - bytes))

end ByteGauge

/-- What keeps a lease: a reservation, one whose settling was refused, or the last handle
of a payload. -/
inductive Holder
  | reservation
  | refused
  | payload

structure ByteLease where
  bytes : Nat
  holder : Holder

structure ReadMemoryBudget where
  gauge : ByteGauge
  leases : FiniteMap Nat ByteLease

inductive Access
  | tryReserve (id bytes : Nat)
  | settle (id bytes : Nat)
  | retain (id bytes : Nat)
  | drop (id : Nat)

namespace ReadMemoryBudget

def new (limit : Nat) : ReadMemoryBudget := ⟨⟨limit, 0⟩, ∅⟩

def settle (budget : ReadMemoryBudget) (id bytes : Nat) (holder : Holder) :
    Option ReadMemoryBudget :=
  match budget.leases.lookup id with
  | some ⟨held, .reservation⟩ =>
    match budget.gauge.settle held bytes with
    | some gauge => some ⟨gauge, budget.leases.insert id ⟨bytes, holder⟩⟩
    | none => some ⟨budget.gauge, budget.leases.insert id ⟨held, .refused⟩⟩
  | _ => none

/-- The state after an access, or none where no reader can make it. -/
def step (budget : ReadMemoryBudget) : Access → Option ReadMemoryBudget
  | .tryReserve id bytes =>
    match budget.leases.lookup id with
    | some _ => none
    | none =>
      match budget.gauge.tryAdd 0 bytes with
      | some gauge => some ⟨gauge, budget.leases.insert id ⟨bytes, .reservation⟩⟩
      | none => some budget
  | .settle id bytes => budget.settle id bytes .reservation
  | .retain id bytes => budget.settle id bytes .payload
  | .drop id =>
    (budget.leases.lookup id).map fun lease =>
      ⟨budget.gauge.release lease.bytes, budget.leases.erase id⟩

inductive Reachable (limit : Nat) : ReadMemoryBudget → Prop
  | new : Reachable limit (new limit)
  | step {budget next : ReadMemoryBudget} (access : Access) :
      Reachable limit budget → budget.step access = some next → Reachable limit next

def held (budget : ReadMemoryBudget) (id : Nat) : Nat :=
  ((budget.leases.lookup id).map ByteLease.bytes).getD 0

structure Sound (limit : Nat) (budget : ReadMemoryBudget) : Prop where
  limited : budget.gauge.limit = limit
  charged : budget.gauge.used = total ByteLease.bytes budget.leases
  /-- Past the limit there is one holder. -/
  bounded : budget.gauge.used ≤ limit ∨ ∃ id, budget.held id = budget.gauge.used

section

variable {limit id : Nat} {budget next : ReadMemoryBudget}

/-- A write of one lease's charge, with the lease kept or dropped. -/
structure Written (budget next : ReadMemoryBudget) (id bytes : Nat) : Prop where
  limit : next.gauge.limit = budget.gauge.limit
  used : next.gauge.used + budget.held id = budget.gauge.used + bytes
  total : total ByteLease.bytes next.leases + budget.held id =
    total ByteLease.bytes budget.leases + bytes
  held : ∀ query, next.held query = if query = id then bytes else budget.held query

theorem written_insert (budget : ReadMemoryBudget) {used : Nat} {lease : ByteLease}
    (change : used + budget.held id = budget.gauge.used + lease.bytes) :
    Written budget ⟨{ budget.gauge with used }, budget.leases.insert id lease⟩ id lease.bytes := by
  refine ⟨rfl, change, ?_, fun query => ?_⟩
  · unfold held
    cases found : budget.leases.lookup id with
    | none => exact total_insert_of_absent found
    | some old => exact total_insert_of_present found
  · unfold held
    rw [lookup_insert_ite]
    split <;> rfl

theorem total_erase_held (budget : ReadMemoryBudget) (id : Nat) :
    total ByteLease.bytes (budget.leases.erase id) + budget.held id =
      total ByteLease.bytes budget.leases := by
  unfold held
  cases found : budget.leases.lookup id with
  | none => rw [erase_absent found]; rfl
  | some lease => exact total_erase found

theorem held_erase (budget : ReadMemoryBudget) (gauge : ByteGauge) (id query : Nat) :
    held ⟨gauge, budget.leases.erase id⟩ query = if query = id then 0 else budget.held query := by
  unfold held
  rw [lookup_erase_ite]
  split <;> rfl

theorem held_le_total (budget : ReadMemoryBudget) (id : Nat) :
    budget.held id ≤ total ByteLease.bytes budget.leases := by
  rw [← total_erase_held budget id]
  exact Nat.le_add_left _ _

theorem held_add_held_le (budget : ReadMemoryBudget) {other : Nat} (differs : other ≠ id) :
    budget.held id + budget.held other ≤ total ByteLease.bytes budget.leases := by
  have rest := held_le_total ⟨budget.gauge, budget.leases.erase id⟩ other
  rw [held_erase, if_neg differs] at rest
  have erased := total_erase_held budget id
  dsimp only at rest
  omega

theorem Written.sound {bytes : Nat} (written : Written budget next id bytes)
    (sound : Sound limit budget) (allowed : next.gauge.used ≤ limit ∨
      budget.gauge.used = budget.held id ∨ bytes ≤ budget.held id) : Sound limit next := by
  have charged := sound.charged
  have total := written.total
  have used := written.used
  refine ⟨written.limit.trans sound.limited, by omega, ?_⟩
  by_cases within : next.gauge.used ≤ limit
  · exact .inl within
  -- Past the limit the written lease, or the lone one before it, is all that is charged.
  refine .inr ?_
  simp only [written.held]
  rcases allowed with low | alone | shrinks
  · exact absurd low within
  · exact ⟨id, by rw [if_pos rfl]; omega⟩
  obtain low | ⟨lone, isLone⟩ := sound.bounded
  · omega
  by_cases same : lone = id
  · subst same
    exact ⟨lone, by rw [if_pos rfl]; omega⟩
  · have others := held_add_held_le budget (Ne.symm same)
    exact ⟨lone, by rw [if_neg same]; omega⟩

theorem held_of_lookup {lease : ByteLease} (found : budget.leases.lookup id = some lease) :
    budget.held id = lease.bytes := by
  rw [held, found]
  rfl

section

variable (sound : Sound limit budget) {lease : ByteLease}
include sound

theorem Sound.release (id : Nat) :
    Sound limit ⟨budget.gauge.release (budget.held id), budget.leases.erase id⟩ := by
  have fits := held_le_total budget id
  rw [← sound.charged] at fits
  have written : Written budget ⟨budget.gauge.release (budget.held id), budget.leases.erase id⟩ id
      0 := ⟨rfl, Nat.sub_add_cancel fits, total_erase_held budget id, held_erase budget _ id⟩
  exact written.sound sound (.inr (.inr (Nat.zero_le _)))

theorem Sound.add {growth : Nat} {gauge : ByteGauge}
    (added : budget.gauge.tryAdd (budget.held id) growth = some gauge)
    (grown : lease.bytes = budget.held id + growth) :
    Sound limit ⟨gauge, budget.leases.insert id lease⟩ := by
  obtain ⟨sum, isSum, passes⟩ := bind_eq_some_iff.mp added
  simp only [ite_none_right_eq_some, some.injEq] at passes
  obtain ⟨allowed, rfl⟩ := passes
  simp only [Checked.add, ite_none_right_eq_some, some.injEq] at isSum
  obtain ⟨_, rfl⟩ := isSum
  rw [sound.limited] at allowed
  exact (written_insert budget (by omega)).sound sound (allowed.imp_right .inl)

theorem Sound.settle {bytes : Nat} {holder : Holder}
    (settled : budget.settle id bytes holder = some next) : Sound limit next := by
  unfold ReadMemoryBudget.settle at settled
  split at settled
  next held found =>
    have isHeld := held_of_lookup found
    dsimp only at isHeld
    split at settled
    next gauge isSettled =>
      cases settled
      unfold ByteGauge.settle sub at isSettled
      split at isSettled
      next growth isGrowth =>
        simp only [ite_none_right_eq_some, some.injEq] at isGrowth
        rw [← isHeld] at isSettled
        exact sound.add isSettled (by dsimp only; omega)
      next shrinks =>
        cases isSettled
        have less : ¬held ≤ bytes := by simpa using shrinks
        have fits := held_le_total budget id
        rw [← sound.charged] at fits
        exact (written_insert budget (by dsimp only; omega)).sound sound
          (.inr (.inr (by dsimp only; omega)))
    · cases settled
      have written : Written budget ⟨budget.gauge, budget.leases.insert id ⟨held, .refused⟩⟩ id
          held := written_insert budget (by rw [isHeld])
      exact written.sound sound (.inr (.inr isHeld.ge))
  · cases settled

theorem Sound.step (access : Access) (steps : budget.step access = some next) : Sound limit next := by
  cases access with
  | tryReserve id bytes =>
    dsimp only [ReadMemoryBudget.step] at steps
    split at steps
    · cases steps
    next absent =>
      have unheld : budget.held id = 0 := by rw [held, absent]; rfl
      split at steps
      next gauge added =>
        cases steps
        rw [← unheld] at added
        exact sound.add added (by dsimp only; omega)
      · cases steps
        exact sound
  | settle id bytes | retain id bytes => exact sound.settle steps
  | drop id =>
    obtain ⟨lease, found, rfl⟩ := map_eq_some_iff.mp steps
    rw [← held_of_lookup found]
    exact sound.release id

end

theorem Reachable.sound (reachable : Reachable limit budget) : Sound limit budget := by
  induction reachable with
  | new => exact ⟨rfl, rfl, .inl (Nat.zero_le _)⟩
  | step access _ steps ih => exact ih.step access steps

end

namespace Sample

/-- One reader past the limit of ten bytes. -/
def lone : ReadMemoryBudget := ⟨⟨10, 16⟩, Finmap.singleton 0 ⟨16, .reservation⟩⟩

end Sample

end ReadMemoryBudget

end Zakura.BlockMemory
