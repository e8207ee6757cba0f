import Mathlib.Data.List.Perm.Basic

/-!
Reversible edits of a state. When edits that follow each other can also be made
in the other order, a batch of edits can be taken back in any order, whether or
not later batches have been made since.
-/

structure Journal (State Edit : Type) where
  Made : Edit → State → State → Prop
  Undone : Edit → State → State → Prop

namespace Journal

variable {State Edit : Type}

def Run (Step : Edit → State → State → Prop) : List Edit → State → State → Prop
  | [], start, finish => finish = start
  | edit :: rest, start, finish => ∃ next, Step edit start next ∧ Run Step rest next finish

structure Lawful (journal : Journal State Edit) (Valid : State → Prop) : Prop where
  valid : ∀ {edit start finish}, Valid start → journal.Made edit start finish → Valid finish
  undo : ∀ {edit start finish}, Valid start → journal.Made edit start finish →
    journal.Undone edit finish start
  swap : ∀ {first second start middle finish}, journal.Made first start middle →
    journal.Made second middle finish →
    ∃ other, journal.Made second start other ∧ journal.Made first other finish

variable {Step : Edit → State → State → Prop}

variable {start finish : State} {edits : List Edit}

@[simp] theorem run_nil : Run Step [] start finish ↔ finish = start :=
  Iff.rfl

@[simp] theorem run_cons {edit : Edit} {rest : List Edit} :
    Run Step (edit :: rest) start finish ↔ ∃ next, Step edit start next ∧ Run Step rest next finish :=
  Iff.rfl

theorem run_append {first second : List Edit} : Run Step (first ++ second) start finish ↔
      ∃ middle, Run Step first start middle ∧ Run Step second middle finish := by
  induction first generalizing start with
  | nil => simp
  | cons edit rest ih =>
    simp only [List.cons_append, run_cons, ih]
    constructor
    · rintro ⟨next, made, middle, ran, finished⟩
      exact ⟨middle, ⟨next, made, ran⟩, finished⟩
    · rintro ⟨middle, ⟨next, made, ran⟩, finished⟩
      exact ⟨next, made, middle, ran, finished⟩

variable {journal : Journal State Edit} {Valid : State → Prop} {undone reordered : List Edit}

section

variable (lawful : journal.Lawful Valid)
include lawful

theorem Lawful.run_valid (valid : Valid start) (ran : Run journal.Made edits start finish) :
    Valid finish := by
  induction edits generalizing start with
  | nil => exact (run_nil.mp ran) ▸ valid
  | cons edit rest ih =>
    obtain ⟨_, made, ran⟩ := ran
    exact ih (lawful.valid valid made) ran

theorem Lawful.run_perm (permuted : edits.Perm reordered)
    (ran : Run journal.Made edits start finish) : Run journal.Made reordered start finish := by
  induction permuted generalizing start with
  | nil => exact ran
  | cons edit _ ih =>
    obtain ⟨next, made, ran⟩ := ran
    exact ⟨next, made, ih ran⟩
  | swap first second rest =>
    obtain ⟨_, madeSecond, next, madeFirst, ran⟩ := ran
    obtain ⟨other, early, late⟩ := lawful.swap madeSecond madeFirst
    exact ⟨other, early, next, late, ran⟩
  | trans _ _ ihFirst ihSecond => exact ihSecond (ihFirst ran)

theorem Lawful.undo_run (permuted : undone.Perm edits) (valid : Valid start)
    (ran : Run journal.Made edits start finish) : Run journal.Undone undone finish start := by
  induction undone generalizing edits finish with
  | nil =>
    rw [List.nil_perm.mp permuted] at ran
    exact (run_nil.mp ran).symm
  | cons edit rest ih =>
    have last : Run journal.Made (rest ++ [edit]) start finish :=
      lawful.run_perm (permuted.symm.trans (List.perm_append_singleton edit rest).symm) ran
    obtain ⟨middle, ranRest, _, made, same⟩ := run_append.mp last
    obtain rfl := run_nil.mp same
    exact ⟨middle, lawful.undo (lawful.run_valid valid ranRest) made, ih (List.Perm.refl _) ranRest⟩

theorem Lawful.undo_first {first later : List Edit} (permuted : undone.Perm first)
    (valid : Valid start) (ran : Run journal.Made (first ++ later) start finish) :
    ∃ rebuilt, Run journal.Made later start rebuilt ∧ Run journal.Undone undone finish rebuilt := by
  obtain ⟨rebuilt, ranLater, ranFirst⟩ :=
    run_append.mp (lawful.run_perm List.perm_append_comm ran)
  exact ⟨rebuilt, ranLater, lawful.undo_run permuted (lawful.run_valid valid ranLater) ranFirst⟩

end

end Journal
