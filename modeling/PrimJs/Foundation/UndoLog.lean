import Mathlib.Tactic

/-! Undo logs. A log of the previous values of a memory, with marks in it, stands for the copies
of the memory made at the marks. -/

namespace PrimJs.UndoLog

variable {α β μ : Type} (set : μ → α → β → μ)

/-- The memory before the records of the log, the newest first, were made. -/
def undo : List (α × β) → μ → μ
  | [], m => m
  | (a, old) :: log, m => undo log (set m a old)

@[simp] theorem undo_nil (m : μ) : undo set [] m = m := rfl

theorem undo_append (newer older : List (α × β)) (m : μ) :
    undo set (newer ++ older) m = undo set older (undo set newer m) := by
  induction newer generalizing m with
  | nil => rfl
  | cons record newer ih => exact ih _

/-- The marks, the newest first, are copies of the memory: each has the records between the mark
before it and itself, and `top` has those after the newest. -/
def Copies (base : μ) : (top : List (α × β)) → (marks : List (List (α × β) × μ)) → μ → Prop
  | top, [], m => undo set top m = base
  | top, (below, saved) :: marks, m => undo set top m = saved ∧ Copies base below marks saved

variable {set} {base m : μ} {top below : List (α × β)} {marks : List (List (α × β) × μ)} {saved : μ}

theorem copies_start (m : μ) : Copies set m [] [] m := rfl

/-- What holds after undoing the newest records holds with them. -/
theorem Copies.prepend (newer : List (α × β))
    (copies : Copies set base top marks (undo set newer m)) :
    Copies set base (newer ++ top) marks m := by
  cases marks with
  | nil => exact (undo_append set newer top m).trans copies
  | cons mark marks => exact ⟨(undo_append set newer top m).trans copies.1, copies.2⟩

/-- A write whose previous value is recorded. -/
theorem Copies.record {a : α} {old : β} (v : β) (restore : set (set m a v) a old = m)
    (copies : Copies set base top marks m) :
    Copies set base ((a, old) :: top) marks (set m a v) := by
  refine Copies.prepend [(a, old)] ?_
  rwa [undo, undo_nil, restore]

/-- A new mark is a copy of the memory. -/
theorem Copies.mark (copies : Copies set base top marks m) :
    Copies set base [] ((top, m) :: marks) m :=
  ⟨rfl, copies⟩

/-- Undoing down to the newest mark gives its copy back. -/
theorem Copies.restore (copies : Copies set base top ((below, saved) :: marks) m) :
    undo set top m = saved ∧ Copies set base [] ((below, saved) :: marks) saved ∧
      Copies set base below marks saved :=
  ⟨copies.1, ⟨rfl, copies.2⟩, copies.2⟩

/-- A mark is forgotten and its records are kept. -/
theorem Copies.forget (copies : Copies set base top ((below, saved) :: marks) m) :
    Copies set base (top ++ below) marks m :=
  Copies.prepend top (copies.1.symm ▸ copies.2)

theorem Copies.forgetAll (dropped : List (List (α × β) × μ))
    (copies : Copies set base top (dropped ++ marks) m) :
    Copies set base (top ++ dropped.flatMap Prod.fst) marks m := by
  induction dropped generalizing top with
  | nil => simpa using copies
  | cons mark dropped ih =>
      rw [List.flatMap_cons, ← List.append_assoc]
      exact ih copies.forget

end PrimJs.UndoLog
