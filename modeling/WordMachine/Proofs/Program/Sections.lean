import Mathlib.Data.List.Sort
import WordMachine.Program.Check
import WordMachine.Proofs.Success

-- Sections that pass the check for overlaps. It only compares neighbours from the lowest base up, which
-- is enough: a section that stops before the next one stops before all that come later.

namespace WordMachine

open Success

namespace Section

def Precedes (s t : Section) : Prop := s.stop ≤ t.base.toNat

theorem base_le_stop (s : Section) : s.base.toNat ≤ s.stop := Nat.le_add_right _ _

instance : IsTrans Section Precedes where
  trans _ t _ first second := Nat.le_trans first (Nat.le_trans t.base_le_stop second)

def Clear (s t : Section) : Prop := s.Precedes t ∨ t.Precedes s

instance : Std.Symm Clear where
  symm _ _ := Or.symm

def Meets (s : Section) (start stop : Nat) : Prop :=
  ∃ x, s.base.toNat ≤ x ∧ x < s.stop ∧ start ≤ x ∧ x < stop

end Section

theorem checkNeighbours_eq_ok {sections : List Section} :
    checkNeighbours sections = .ok () ↔ sections.Pairwise Section.Precedes := by
  rw [← List.isChain_iff_pairwise]
  induction sections with
  | nil => simp [checkNeighbours]
  | cons s rest ih =>
    cases rest with
    | nil => simp [checkNeighbours]
    | cons t others =>
      simp only [checkNeighbours,bind_eq_ok,require_eq_ok_iff,List.isChain_cons_cons,ih]
      exact exists_const Unit

namespace Section

-- Sections with the same base stay in the order of declaration, so then the first is empty.
def Apart (s t : Section) : Prop :=
  s.base ≤ t.base ∧ s.Precedes t ∨ t.base < s.base ∧ t.Precedes s

theorem Precedes.base_le {s t : Section} (before : s.Precedes t) : s.base ≤ t.base :=
  UInt16.le_iff_toNat_le.mpr (Nat.le_trans s.base_le_stop before)

theorem apart_of_le {s t : Section} (below : s.base ≤ t.base) : s.Apart t ↔ s.Precedes t := by
  constructor
  · intro apart
    rcases apart with ⟨_,before⟩ | ⟨above,_⟩
    · exact before
    · exact absurd above (UInt16.not_lt.mpr below)
  · intro before
    exact .inl ⟨below,before⟩

theorem apart_of_lt {s t : Section} (above : t.base < s.base) : s.Apart t ↔ t.Precedes s := by
  constructor
  · intro apart
    rcases apart with ⟨below,_⟩ | ⟨_,before⟩
    · exact absurd above (UInt16.not_lt.mpr below)
    · exact before
  · intro before
    exact .inr ⟨above,before⟩

theorem insertByBase_eq (s : Section) (sections : List Section) :
    s.insertByBase sections = sections.orderedInsert (fun s t => s.base ≤ t.base) s := by
  induction sections with
  | nil => rfl
  | cons t rest ih => rw [insertByBase,List.orderedInsert_cons,ih]

theorem mem_insertByBase {s t : Section} {sections : List Section} :
    t ∈ s.insertByBase sections ↔ t = s ∨ t ∈ sections := by
  rw [insertByBase_eq,List.mem_orderedInsert]

theorem pairwise_insertByBase {s : Section} {sections : List Section} :
    (s.insertByBase sections).Pairwise Precedes ↔
      sections.Pairwise Precedes ∧ ∀ t ∈ sections, s.Apart t := by
  induction sections with
  | nil => simp [insertByBase]
  | cons t rest ih =>
    unfold insertByBase
    split
    · rename_i below
      rw [List.pairwise_cons,and_comm]
      refine and_congr_right fun sorted => ?_
      have lower : ∀ u ∈ t :: rest, s.base ≤ u.base := by
        intro u member
        rcases List.mem_cons.mp member with rfl | later
        · exact below
        · exact UInt16.le_trans below ((List.pairwise_cons.mp sorted).1 u later).base_le
      exact forall₂_congr fun u member => (apart_of_le (lower u member)).symm
    · rename_i above
      rw [UInt16.not_le] at above
      simp only [List.pairwise_cons,ih,mem_insertByBase,forall_eq_or_imp,List.forall_mem_cons,apart_of_lt above]
      tauto

end Section

theorem sortByBase_eq (sections : List Section) :
    sortByBase sections = sections.insertionSort fun s t => s.base ≤ t.base :=
  congrArg (sections.foldr · []) (funext fun s => funext s.insertByBase_eq)

theorem sortByBase_perm (sections : List Section) : (sortByBase sections).Perm sections := by
  rw [sortByBase_eq]
  exact List.perm_insertionSort _ _

theorem sortByBase_sorted (sections : List Section) :
    (sortByBase sections).Pairwise fun s t => s.base ≤ t.base := by
  have total : Std.Total fun s t : Section => s.base ≤ t.base := ⟨fun _ _ => UInt16.le_total _ _⟩
  have trans : IsTrans Section fun s t => s.base ≤ t.base := ⟨fun _ _ _ => UInt16.le_trans⟩
  rw [sortByBase_eq]
  exact List.pairwise_insertionSort _ _

theorem mem_sortByBase {t : Section} {sections : List Section} : t ∈ sortByBase sections ↔ t ∈ sections :=
  (sortByBase_perm sections).mem_iff

theorem checkOverlaps_eq_ok {sections : List Section} :
    checkOverlaps sections = .ok () ↔ sections.Pairwise Section.Apart := by
  rw [checkOverlaps,checkNeighbours_eq_ok]
  induction sections with
  | nil => simp [sortByBase]
  | cons s rest ih =>
    rw [sortByBase,List.foldr_cons,← sortByBase,Section.pairwise_insertByBase,ih,List.pairwise_cons,and_comm]
    simp only [mem_sortByBase]

end WordMachine
