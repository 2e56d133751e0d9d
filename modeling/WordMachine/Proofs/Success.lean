import Mathlib.Data.List.Forall2

-- What the success of a sequence of checks gives: each of them succeeded. The failures are not looked at.

namespace WordMachine.Success

variable {ε α β : Type}

theorem bind_eq_ok {x : Except ε α} {f : α → Except ε β} {b : β} :
    (x >>= f) = .ok b ↔ ∃ a, x = .ok a ∧ f a = .ok b := by
  cases x with
  | error e => simp [bind,Except.bind]
  | ok a => simp [bind,Except.bind]

theorem forM_eq_ok {f : α → Except ε Unit} {items : List α} :
    items.forM f = .ok () ↔ ∀ a ∈ items, f a = .ok () := by
  induction items with
  | nil => simp [List.forM,pure,Except.pure]
  | cons a rest ih =>
    change (f a >>= fun _ => rest.forM f) = .ok () ↔ _
    rw [bind_eq_ok,List.forall_mem_cons,← ih]
    constructor
    · rintro ⟨_,first,others⟩
      exact ⟨first,others⟩
    · rintro ⟨first,others⟩
      exact ⟨(),first,others⟩

theorem mapM_eq_ok {f : α → Except ε β} {items : List α} {results : List β} :
    items.mapM f = .ok results ↔ List.Forall₂ (fun a b => f a = .ok b) items results := by
  induction items generalizing results with
  | nil => simp [pure,Except.pure,eq_comm]
  | cons a rest ih =>
    rw [List.mapM_cons,List.forall₂_cons_left_iff]
    simp only [bind_eq_ok,ih,pure,Except.pure,Except.ok.injEq]
    constructor
    · rintro ⟨b,first,bs,others,rfl⟩
      exact ⟨b,bs,first,others,rfl⟩
    · rintro ⟨b,bs,first,others,rfl⟩
      exact ⟨b,first,bs,others,rfl⟩

theorem each_of_mapM {f : α → Except ε β} {items : List α} {results : List β}
    (made : items.mapM f = .ok results) : ∀ a ∈ items, ∃ b, f a = .ok b := by
  have pairs := mapM_eq_ok.mp made
  clear made
  induction pairs with
  | nil => simp
  | cons this _ ih => exact List.forall_mem_cons.mpr ⟨⟨_,this⟩,ih⟩

theorem mapM_eq_ok_congr {f g : α → Except ε β} {items : List α} {results : List β}
    (alike : ∀ a ∈ items, ∀ b, f a = .ok b ↔ g a = .ok b) :
    items.mapM f = .ok results ↔ items.mapM g = .ok results := by
  induction items generalizing results with
  | nil => rfl
  | cons a rest ih =>
    obtain ⟨this,others⟩ := List.forall_mem_cons.mp alike
    rw [List.mapM_cons,List.mapM_cons]
    simp only [bind_eq_ok,this,ih others]

end WordMachine.Success
