import WordMachine.Machine.Dump
import Mathlib.Data.List.Nodup

-- The lines are two bytes apart from the lowest one, which is ten bytes below the top of the stack or at the start of
-- memory. So the top of the stack is among them only if it has the parity of the lowest, and a word starts there.

namespace WordMachine

def linesOf : List Char → List Char → List (List Char)
  | _,[] => []
  | line,c :: rest => if c = '\n' then line.reverse :: linesOf [] rest else linesOf (c :: line) rest

theorem linesOf_line {line : List Char} (plain : '\n' ∉ line) (read rest : List Char) :
    linesOf read (line ++ '\n' :: rest) = (read.reverse ++ line) :: linesOf [] rest := by
  induction line generalizing read with
  | nil => simp [linesOf]
  | cons c others ih =>
    obtain ⟨this,later⟩ := not_or.mp (mt List.mem_cons.mpr plain)
    have other : c ≠ '\n' := fun same => this same.symm
    simp [linesOf,other,ih later]

theorem linesOf_lines {lines : List (List Char)} (plain : ∀ line ∈ lines, '\n' ∉ line) :
    linesOf [] (lines.flatMap (· ++ ['\n'])) = lines := by
  induction lines with
  | nil => rfl
  | cons line rest ih =>
    obtain ⟨this,others⟩ := List.forall_mem_cons.mp plain
    rw [List.flatMap_cons,List.append_assoc,List.singleton_append,linesOf_line this,ih others]
    rfl

namespace Hex

def alphabet : List Char := "0123456789abcdefx".toList

theorem digitChar_mem {d : Nat} (small : d < 16) : d.digitChar ∈ alphabet := by
  have each : ∀ d : Fin 16, d.val.digitChar ∈ alphabet := by decide
  exact each ⟨d,small⟩

theorem mem_toDigits {n : Nat} {c : Char} (member : c ∈ Nat.toDigits 16 n) : c ∈ alphabet := by
  induction n using Nat.strongRecOn with
  | ind n ih =>
    rw [Nat.toDigits_eq_if (by decide)] at member
    split at member
    · rename_i small
      cases List.mem_singleton.mp member
      exact digitChar_mem small
    · rcases List.mem_append.mp member with front | last
      · exact ih (n / 16) (by omega) front
      · cases List.mem_singleton.mp last
        exact digitChar_mem (Nat.mod_lt _ (by decide))

theorem mem_word {n : Nat} {c : Char} (member : c ∈ (word n).toList) : c ∈ alphabet := by
  simp only [word,digits,String.toList_append,String.toList_ofList,List.mem_append] at member
  rcases member with front | zeros | shortest
  · have front : c = '0' ∨ c = 'x' := by simpa using front
    rcases front with rfl | rfl <;> decide
  · cases List.eq_of_mem_replicate zeros
    decide
  · exact mem_toDigits shortest

end Hex

namespace Machine

variable {m : Machine} {a : Nat}

def dumpLines (m : Machine) : List (List Char) := linesOf [] m.stackDump.toList

def Marked (mark : String) (line : List Char) : Prop := mark.toList <:+ line

instance (mark : String) : DecidablePred (Marked mark) :=
  fun line => inferInstanceAs (Decidable (mark.toList <:+ line))

def Addressed (address : Nat) (line : List Char) : Prop := (Hex.word address ++ ": ").toList <+: line

def markAt (m : Machine) (a : Nat) : String :=
  if a = m.registers.sp.toNat then "  <- SP" else if a = m.registers.fp.toNat then "  <- FP" else ""

def wordAt (m : Machine) (a : Nat) : Nat := (m.memory.word (UInt16.ofNat a)).toNat

theorem toList_stackLine (m : Machine) (a : Nat) :
    (m.stackLine a).toList =
      (Hex.word a ++ ": ").toList ++ (Hex.word (m.wordAt a)).toList ++ (m.markAt a).toList := by
  simp only [stackLine,markAt,wordAt,String.toList_append]

def marks : List String := ["<- SP","<- FP"]

theorem markAt_cases (m : Machine) (a : Nat) :
    (∃ mark ∈ marks, m.markAt a = "  " ++ mark) ∨ m.markAt a = "" := by
  unfold markAt
  split
  · exact .inl ⟨"<- SP",by decide,rfl⟩
  · split
    · exact .inl ⟨"<- FP",by decide,rfl⟩
    · exact .inr rfl

theorem newline_not_mem_stackLine (m : Machine) (a : Nat) : '\n' ∉ (m.stackLine a).toList := by
  have outside : '\n' ∉ Hex.alphabet := by decide
  have hex : ∀ n, '\n' ∉ (Hex.word n).toList := fun n member => outside (Hex.mem_word member)
  have mark : '\n' ∉ (m.markAt a).toList := by
    have plain : ∀ mark ∈ marks, '\n' ∉ ("  " ++ mark).toList := by decide
    rcases m.markAt_cases a with ⟨mark,known,same⟩ | none
    · exact same ▸ plain mark known
    · rw [none]
      decide
  simp [toList_stackLine,hex,mark]

theorem dumpLines_eq (m : Machine) : m.dumpLines = m.stackWindow.map fun a => (m.stackLine a).toList := by
  have text : m.stackDump.toList =
      (m.stackWindow.map fun a => (m.stackLine a).toList).flatMap (· ++ ['\n']) := by
    simp [stackDump,stackLines,String.toList_join,List.flatMap_map]
  rw [dumpLines,text]
  apply linesOf_lines
  intro line member
  obtain ⟨a,_,rfl⟩ := List.mem_map.mp member
  exact m.newline_not_mem_stackLine a

theorem mem_stackWindow : a ∈ m.stackWindow ↔ m.registers.sp.toNat - 10 ≤ a ∧
    a ≤ m.registers.sp.toNat + 10 ∧ a ≤ 0xFFFE ∧ a % 2 = (m.registers.sp.toNat - 10) % 2 := by
  have inMemory := m.registers.sp.toNat_lt
  have window : ∀ highest lowest : Nat, lowest ≤ highest →
      (a ∈ (List.range ((highest - lowest) / 2 + 1)).map (fun k => lowest + 2 * k) ↔
        lowest ≤ a ∧ a ≤ highest ∧ a % 2 = lowest % 2) := by
    intro highest lowest below
    rw [List.mem_map]
    constructor
    · intro stepped
      obtain ⟨k,within,rfl⟩ := stepped
      have steps := List.mem_range.mp within
      omega
    · intro bounds
      exact ⟨(a - lowest) / 2,List.mem_range.mpr (by omega),by omega⟩
  unfold stackWindow stackReach memorySize
  rw [window _ _ (by omega)]
  omega

theorem nodup_stackWindow (m : Machine) : m.stackWindow.Nodup := by
  unfold stackWindow
  apply List.Nodup.map
  · intro j k same
    dsimp only at same
    omega
  · exact List.nodup_range

-- A mark at the end of a line is the line's own, since the words in front of it are hexadecimal.
theorem marked_stackLine {mark : String} (known : mark ∈ marks) :
    Marked mark (m.stackLine a).toList ↔ m.markAt a = "  " ++ mark := by
  have apart : ∀ one ∈ marks, ∀ other ∈ marks, one.toList.length ≤ ("  " ++ other).toList.length ∧
      (one.toList <:+ ("  " ++ other).toList ↔ one = other) := by decide
  have letter : ∀ mark ∈ marks, ['P'] <:+ mark.toList := by decide
  rw [Marked,toList_stackLine]
  constructor
  · intro marked
    rcases m.markAt_cases a with ⟨other,also,same⟩ | none
    · rw [same] at marked ⊢
      obtain ⟨short,distinct⟩ := apart mark known other also
      have ends := List.suffix_of_suffix_length_le marked (List.suffix_append _ _) short
      rw [distinct.mp ends]
    · rw [none,String.toList_empty,List.append_nil] at marked
      have last := (letter mark known).trans marked
      have hex : ['P'] <:+ (Hex.word (m.wordAt a)).toList :=
        List.suffix_of_suffix_length_le last (List.suffix_append _ _) (by simp [Hex.word])
      exact absurd (Hex.mem_word (hex.subset List.mem_cons_self)) (by decide)
  · intro same
    rw [same]
    exact ((apart mark known mark known).2.mpr rfl).trans (List.suffix_append _ _)

theorem markAt_top : m.markAt a = "  <- SP" ↔ a = m.registers.sp.toNat := by
  unfold markAt
  split
  · simp_all
  · split <;> simp_all

theorem markAt_frame (apart : m.registers.fp ≠ m.registers.sp) :
    m.markAt a = "  <- FP" ↔ a = m.registers.fp.toNat := by
  have places : m.registers.fp.toNat ≠ m.registers.sp.toNat := fun same => apart (UInt16.toNat_inj.mp same)
  unfold markAt
  split
  · simp_all [eq_comm]
  · split <;> simp_all

theorem filter_dumpLines {mark : String} {place : Nat}
    (marks : ∀ a, Marked mark (m.stackLine a).toList ↔ a = place) :
    m.dumpLines.filter (Marked mark) =
      if place ∈ m.stackWindow then [(m.stackLine place).toList] else [] := by
  have chosen : (fun a => decide (Marked mark (m.stackLine a).toList)) = (· == place) := by
    funext a
    rw [Bool.eq_iff_iff]
    simp [marks]
  rw [dumpLines_eq,List.filter_map]
  change ((m.stackWindow.filter fun a => decide (Marked mark (m.stackLine a).toList)).map _) = _
  rw [chosen,List.filter_beq]
  split
  · rename_i member
    rw [List.count_eq_one_of_mem m.nodup_stackWindow member]
    rfl
  · rename_i absent
    rw [List.count_eq_zero.mpr absent]
    rfl

def Near (a b : Nat) : Prop := a % 2 = b % 2 ∧ a ≤ b + 10 ∧ b ≤ a + 10

structure ShowsStack (m : Machine) : Prop where
  top : m.dumpLines.filter (Marked "<- SP") =
    [(Hex.word m.registers.sp.toNat ++ ": " ++ Hex.word m.top.toNat ++ "  <- SP").toList]
  reach : ∀ line ∈ m.dumpLines, ∃ address, Addressed address line ∧ Near address m.registers.sp.toNat
  frame : m.registers.fp ≠ m.registers.sp → Near m.registers.fp.toNat m.registers.sp.toNat →
    m.registers.fp.toNat ≤ 0xFFFE →
    ∃ line, m.dumpLines.filter (Marked "<- FP") = [line] ∧ Addressed m.registers.fp.toNat line

def TopInWindow (m : Machine) : Prop :=
  m.registers.sp.toNat ≤ 0xFFFE ∧ (m.registers.sp.toNat % 2 = 0 ∨ 10 ≤ m.registers.sp.toNat)

theorem topInWindow_iff : m.registers.sp.toNat ∈ m.stackWindow ↔ m.TopInWindow := by
  rw [mem_stackWindow,TopInWindow]
  omega

theorem filter_top (m : Machine) : m.dumpLines.filter (Marked "<- SP") =
    if m.registers.sp.toNat ∈ m.stackWindow then [(m.stackLine m.registers.sp.toNat).toList] else [] :=
  filter_dumpLines fun _ => (marked_stackLine (by decide)).trans markAt_top

theorem addressed_stackLine (m : Machine) (a : Nat) : Addressed a (m.stackLine a).toList := by
  rw [Addressed,toList_stackLine,List.append_assoc]
  exact List.prefix_append _ _

theorem TopInWindow.shows (visible : m.TopInWindow) : m.ShowsStack := by
  refine ⟨?_,?_,?_⟩
  · have itself : UInt16.ofNat m.registers.sp.toNat = m.registers.sp := UInt16.ofNat_toNat
    rw [filter_top,if_pos (topInWindow_iff.mpr visible)]
    simp [stackLine,top,itself]
  · intro line member
    rw [dumpLines_eq] at member
    obtain ⟨a,within,rfl⟩ := List.mem_map.mp member
    refine ⟨a,m.addressed_stackLine a,?_⟩
    have bounds := mem_stackWindow.mp within
    unfold TopInWindow at visible
    unfold Near
    omega
  · intro apart near fits
    have within : m.registers.fp.toNat ∈ m.stackWindow := by
      rw [mem_stackWindow]
      unfold TopInWindow at visible
      unfold Near at near
      omega
    refine ⟨_,?_,m.addressed_stackLine _⟩
    rw [filter_dumpLines fun _ => (marked_stackLine (by decide)).trans (markAt_frame apart),if_pos within]

end Machine

-- Where the lines do not lead to the top of the stack, none is marked as the top.
theorem stack_shown_exactly (m : Machine) :
    (m.ShowsStack ↔ m.TopInWindow) ∧ (¬m.TopInWindow → m.dumpLines.filter (Machine.Marked "<- SP") = []) := by
  have hidden : ¬m.TopInWindow → m.dumpLines.filter (Machine.Marked "<- SP") = [] := by
    intro outside
    rw [m.filter_top,if_neg (mt Machine.topInWindow_iff.mp outside)]
  refine ⟨⟨?_,Machine.TopInWindow.shows⟩,hidden⟩
  intro shows
  by_cases visible : m.TopInWindow
  · exact visible
  · cases (hidden visible).symm.trans shows.top

def stackAt (sp : Word) : Machine :=
  {Machine.new {} with registers := {ip := 0,sp := sp,fp := 0xFFFB,fs := 0}}

theorem stackAt_shown :
    (stackAt 0xFFF9).ShowsStack ∧ (stackAt 0xFFFF).dumpLines.filter (Machine.Marked "<- SP") = [] := by
  refine ⟨(stack_shown_exactly (stackAt 0xFFF9)).1.mpr ?_,(stack_shown_exactly (stackAt 0xFFFF)).2 ?_⟩
  · exact ⟨by decide,by decide⟩
  · intro visible
    exact absurd visible.1 (by decide)

theorem oddStack_hidden :
    (stackAt 1).stackDump =
      "0x0000: 0x0000\n0x0002: 0x0000\n0x0004: 0x0000\n0x0006: 0x0000\n0x0008: 0x0000\n0x000a: 0x0000\n" ∧
      ¬(stackAt 1).ShowsStack := by
  refine ⟨by decide,?_⟩
  intro shows
  have one := shows.top
  have none : (stackAt 1).dumpLines.filter (Machine.Marked "<- SP") = [] := by decide
  cases none.symm.trans one

end WordMachine
