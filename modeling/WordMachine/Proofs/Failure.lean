import WordMachine.Fault

-- Only the kind of a fault is followed: which of the checks reports it, and that one does, is not said.

namespace WordMachine

def FailsOnly {ε α : Type} (kind : ε → Prop) (x : Except ε α) : Prop :=
  ∀ fault, x = .error fault → kind fault

namespace FailsOnly

variable {ε α β : Type} {kind : ε → Prop}

theorem ok (a : α) : FailsOnly kind (.ok a : Except ε α) := by
  intro fault failed
  cases failed

theorem of_ok {x : Except ε α} {a : α} (succeeds : x = .ok a) : FailsOnly kind x := succeeds ▸ ok a

theorem error {fault : ε} (allowed : kind fault) : FailsOnly kind (.error fault : Except ε α) := by
  intro other failed
  cases failed
  exact allowed

theorem succeeds {x : Except ε α} (never : FailsOnly (fun _ => False) x) : ∃ a, x = .ok a := by
  cases x with
  | error fault => exact (never fault rfl).elim
  | ok a => exact ⟨a,rfl⟩

theorem andThen {x : Except ε α} {f : α → Except ε β} (first : FailsOnly kind x)
    (rest : ∀ a, x = .ok a → FailsOnly kind (f a)) : FailsOnly kind (x >>= f) := by
  cases x with
  | error fault => exact error (first fault rfl)
  | ok a => exact rest a rfl

theorem forM {f : α → Except ε Unit} {items : List α} (each : ∀ a ∈ items, FailsOnly kind (f a)) :
    FailsOnly kind (items.forM f) := by
  induction items with
  | nil => exact ok ()
  | cons a rest ih =>
    obtain ⟨this,others⟩ := List.forall_mem_cons.mp each
    exact this.andThen fun _ _ => ih others

theorem foldlM {f : β → α → Except ε β} {items : List α}
    (each : ∀ state, ∀ a ∈ items, FailsOnly kind (f state a)) (start : β) :
    FailsOnly kind (items.foldlM f start) := by
  induction items generalizing start with
  | nil => exact ok start
  | cons a rest ih =>
    rw [List.foldlM_cons]
    apply (each start a List.mem_cons_self).andThen
    intro next _
    exact ih (fun state b member => each state b (List.mem_cons_of_mem a member)) next

theorem mapM {f : α → Except ε β} {items : List α} (each : ∀ a ∈ items, FailsOnly kind (f a)) :
    FailsOnly kind (items.mapM f) := by
  induction items with
  | nil => exact ok []
  | cons a rest ih =>
    obtain ⟨this,others⟩ := List.forall_mem_cons.mp each
    rw [List.mapM_cons]
    exact this.andThen fun b _ => (ih others).andThen fun bs _ => ok (b :: bs)

theorem of_require {kind : Fault → Prop} {condition : Prop} [Decidable condition] {fault : Fault}
    (allowed : ¬condition → kind fault) : FailsOnly kind (require condition fault) := by
  unfold require
  split
  · exact ok ()
  · rename_i broken
    exact error (allowed broken)

end FailsOnly

end WordMachine
