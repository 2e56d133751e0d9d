import WordMachine.Proofs.DeclarationOrder

-- The check compares each section with the next one only, so a section that reaches past several others is found at the
-- first of them, and the one named second may be a section that nobody declared next to the first.

namespace WordMachine

namespace Section

-- By number, since a section may run past the end of memory.
def Overlaps (s t : Section) : Prop := s.Meets t.base.toNat t.stop

variable {s t : Section}

theorem Clear.not_overlaps (clear : s.Clear t) : ¬s.Overlaps t := by
  rintro ⟨x,first,firstEnd,second,secondEnd⟩
  rcases clear with before | after
  · rw [Precedes] at before
    omega
  · rw [Precedes] at after
    omega

theorem overlaps_of_reached (below : s.base ≤ t.base) (reached : t.base.toNat < s.stop) (filled : 0 < t.size) :
    s.Overlaps t := by
  refine ⟨t.base.toNat,UInt16.le_iff_toNat_le.mp below,reached,Nat.le_refl _,?_⟩
  rw [stop]
  omega

end Section

def TwoOf (sections : List Section) (s t : Section) : Prop :=
  ∃ i j : Nat, i ≠ j ∧ sections[i]? = some s ∧ sections[j]? = some t

section Places

variable {sections rest : List Section} {s t : Section}

theorem TwoOf.related {R : Section → Section → Prop} [Std.Symm R] (two : TwoOf sections s t)
    (ordered : sections.Pairwise R) : R s t := by
  obtain ⟨i,j,apart,first,second⟩ := two
  obtain ⟨inside,rfl⟩ := List.getElem?_eq_some_iff.mp first
  obtain ⟨within,rfl⟩ := List.getElem?_eq_some_iff.mp second
  rcases Nat.lt_or_gt_of_ne apart with before | after
  · exact List.pairwise_iff_getElem.mp ordered i j inside within before
  · exact Std.Symm.symm _ _ (List.pairwise_iff_getElem.mp ordered j i within inside after)

theorem twoOf_of_perm (perm : sections.Perm (s :: t :: rest)) : TwoOf sections s t := by
  obtain ⟨earlier,later,rfl⟩ := List.append_of_mem (perm.mem_iff.mpr List.mem_cons_self)
  have others : (earlier ++ later).Perm (t :: rest) := (List.perm_middle.symm.trans perm).cons_inv
  have here : (earlier ++ s :: later)[earlier.length]? = some s := by simp
  rcases List.mem_append.mp (others.mem_iff.mpr List.mem_cons_self) with before | after
  · obtain ⟨j,inside,found⟩ := List.getElem_of_mem before
    refine ⟨earlier.length,j,by omega,here,?_⟩
    rw [List.getElem?_append_left inside,List.getElem?_eq_getElem inside,found]
  · obtain ⟨k,found⟩ := List.getElem?_of_mem after
    refine ⟨earlier.length,earlier.length + (k + 1),by omega,here,?_⟩
    rw [List.getElem?_append_right (Nat.le_add_right _ _),Nat.add_sub_cancel_left,List.getElem?_cons_succ,found]

end Places

theorem checkNeighbours_eq_error {sections : List Section} {fault : Fault}
    (failed : checkNeighbours sections = .error fault) :
    ∃ before s t after, sections = before ++ s :: t :: after ∧ t.base.toNat < s.stop ∧
      fault = .overlappingSections s.name t.name := by
  induction sections with
  | nil => cases failed
  | cons s rest ih =>
    cases rest with
    | nil => cases failed
    | cons t others =>
      by_cases clear : s.stop ≤ t.base.toNat
      · have later : checkNeighbours (t :: others) = .error fault := by
          simpa [checkNeighbours,require,clear,bind,Except.bind] using failed
        obtain ⟨before,first,second,after,split,reached,named⟩ := ih later
        exact ⟨s :: before,first,second,after,by rw [split,List.cons_append],reached,named⟩
      · simp only [checkNeighbours,require,clear,if_false,bind,Except.bind,Except.error.injEq] at failed
        exact ⟨[],s,t,others,rfl,Nat.not_le.mp clear,failed.symm⟩

theorem checkOverlaps_eq_error {sections : List Section} {fault : Fault}
    (failed : checkOverlaps sections = .error fault) :
    ∃ s t, TwoOf sections s t ∧ s.base ≤ t.base ∧ t.base.toNat < s.stop ∧
      fault = .overlappingSections s.name t.name := by
  obtain ⟨before,s,t,after,split,reached,named⟩ := checkNeighbours_eq_error failed
  have sorted := sortByBase_sorted sections
  have perm := sortByBase_perm sections
  rw [split] at sorted perm
  have below := (List.pairwise_cons.mp (List.pairwise_append.mp sorted).2.1).1 t List.mem_cons_self
  have front : sections.Perm (s :: t :: (before ++ after)) := by
    have moved : (before ++ s :: t :: after).Perm (s :: (before ++ t :: after)) := List.perm_middle
    exact (perm.symm.trans moved).trans (List.perm_middle.cons s)
  exact ⟨s,t,twoOf_of_perm front,below,reached,named⟩

theorem overlaps_found_exactly (p : Program) :
    (checkOverlaps p.sections = .ok () → ∀ s t, TwoOf p.sections s t → ¬s.Overlaps t) ∧
    ((∀ s ∈ p.sections, 0 < s.size) →
      (∀ fault, checkOverlaps p.sections = .error fault → ∃ s t, TwoOf p.sections s t ∧
        fault = .overlappingSections s.name t.name ∧ s.Overlaps t ∧ s.base ≤ t.base) ∧
      (checkOverlaps p.sections = .ok () ↔ ∀ s t, TwoOf p.sections s t → ¬s.Overlaps t)) := by
  have sound : checkOverlaps p.sections = .ok () → ∀ s t, TwoOf p.sections s t → ¬s.Overlaps t := by
    intro passed s t two
    obtain ⟨clear,_⟩ := checkOverlaps_eq_ok_iff.mp passed
    exact (two.related clear).not_overlaps
  refine ⟨sound,?_⟩
  intro filled
  have found : ∀ fault, checkOverlaps p.sections = .error fault → ∃ s t, TwoOf p.sections s t ∧
      fault = .overlappingSections s.name t.name ∧ s.Overlaps t ∧ s.base ≤ t.base := by
    intro fault failed
    obtain ⟨s,t,two,below,reached,named⟩ := checkOverlaps_eq_error failed
    have member : t ∈ p.sections := by
      obtain ⟨_,_,_,_,second⟩ := two
      exact List.mem_of_getElem? second
    exact ⟨s,t,two,named,Section.overlaps_of_reached below reached (filled t member),below⟩
  refine ⟨found,sound,?_⟩
  intro none
  cases checked : checkOverlaps p.sections with
  | ok _ => rfl
  | error fault =>
    obtain ⟨s,t,two,_,overlaps,_⟩ := found fault checked
    exact absurd overlaps (none s t two)

def swallowing : Program where
  sections := [⟨"upper",0x30,[⟨"byte",.bytes [1]⟩]⟩,⟨"wide",0x10,[⟨"room",.reserve 0x30⟩]⟩,
    ⟨"inner",0x20,[⟨"word",.words [7]⟩]⟩]
  code := []

def adjoining : Program where
  sections := [⟨"past",0xFFFF,[⟨"words",.words [7,8]⟩]⟩,⟨"wide",0x10,[⟨"room",.reserve 0x30⟩]⟩,
    ⟨"upper",0x40,[⟨"rest",.reserve 0xFFBF⟩]⟩]
  code := []

theorem swallowing_found :
    (∀ s ∈ swallowing.sections, 0 < s.size) ∧
      checkOverlaps swallowing.sections = .error (.overlappingSections "wide" "inner") ∧
      (∃ s t, TwoOf swallowing.sections s t ∧ s.name = "wide" ∧ t.name = "inner" ∧ s.Overlaps t) ∧
      checkOverlaps adjoining.sections = .ok () ∧
      ∀ s t, TwoOf adjoining.sections s t → ¬s.Overlaps t := by
  have filled : ∀ s ∈ swallowing.sections, 0 < s.size := by decide
  have failed : checkOverlaps swallowing.sections = .error (.overlappingSections "wide" "inner") := rfl
  have passed : checkOverlaps adjoining.sections = .ok () := rfl
  obtain ⟨_,exactly⟩ := overlaps_found_exactly swallowing
  obtain ⟨s,t,two,named,overlaps,_⟩ := (exactly filled).1 _ failed
  obtain ⟨first,second⟩ := Fault.overlappingSections.inj named
  refine ⟨filled,failed,⟨s,t,two,first.symm,second.symm,overlaps⟩,passed,?_⟩
  exact (overlaps_found_exactly adjoining).1 passed

end WordMachine
