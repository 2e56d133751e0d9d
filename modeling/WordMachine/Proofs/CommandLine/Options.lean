import WordMachine.CommandLine.Options

-- Only two things can go wrong: a word begins no option, or a limit lacks its number. So what is read is a list of
-- complete options, and it matters which are in it and which step limit is the last.

namespace WordMachine.CommandLine

def Flag.text : Flag → String
  | strict => "--strict"
  | maxSteps => "--max-steps"
  | header => "--header"
  | verbose => "--verbose"

@[simp]
theorem Flag.ofText?_text (flag : Flag) : Flag.ofText? flag.text = some flag := by
  cases flag <;> rfl

theorem Flag.eq_text_of_ofText? {text : String} {flag : Flag} (known : Flag.ofText? text = some flag) :
    text = flag.text := by
  unfold ofText? at known
  repeat' split at known
  all_goals cases known
  all_goals assumption

inductive Setting where
  | strict
  | header
  | verbose
  | maxSteps (text : String) (limit : Nat) (valid : stepLimit? text = some limit)
  deriving DecidableEq

namespace Setting

def words : Setting → List String
  | strict => [Flag.strict.text]
  | header => [Flag.header.text]
  | verbose => [Flag.verbose.text]
  | maxSteps text _ _ => [Flag.maxSteps.text,text]

def limit? : Setting → Option Nat
  | maxSteps _ limit _ => some limit
  | _ => none

end Setting

def spell (settings : List Setting) : List String := settings.flatMap Setting.words

def lastLimit? (settings : List Setting) : Option Nat := (settings.filterMap Setting.limit?).getLast?

def configured (settings : List Setting) : Config where
  guard := if .strict ∈ settings then .strict else .off
  stepLimit := lastLimit? settings

namespace Options

def amend (options : Options) (settings : List Setting) : Options where
  config := {
    guard := if .strict ∈ settings then .strict else options.config.guard
    stepLimit := (lastLimit? settings).or options.config.stepLimit}
  showHeader := .header ∈ settings ∨ options.showHeader
  verbose := .verbose ∈ settings ∨ options.verbose

@[simp]
theorem amend_nil (options : Options) : options.amend [] = options := by
  simp [amend,lastLimit?]

theorem amend_cons (options : Options) (first : Setting) (rest : List Setting) :
    (options.amend [first]).amend rest = options.amend (first :: rest) := by
  cases first with
  | strict => simp [amend,lastLimit?,Setting.limit?]
  | header => simp [amend,lastLimit?,Setting.limit?]
  | verbose => simp [amend,lastLimit?,Setting.limit?]
  | maxSteps text limit valid => simp [amend,lastLimit?,Setting.limit?,List.getLast?_cons]

theorem read_words (options : Options) (first : Setting) (rest : List String) :
    options.read (first.words ++ rest) = (options.amend [first]).read rest := by
  cases first with
  | strict | header | verbose =>
    rw [Setting.words,List.singleton_append,read.eq_def]
    simp [amend,lastLimit?,Setting.limit?]
  | maxSteps text limit valid => simp [Setting.words,read,amend,lastLimit?,Setting.limit?,valid]

theorem read_spell (options : Options) (settings : List Setting) :
    options.read (spell settings) = .ok (options.amend settings) := by
  induction settings generalizing options with
  | nil => simp [spell,read]
  | cons first rest ih =>
    rw [spell,List.flatMap_cons,read_words,← amend_cons options first rest]
    exact ih (options.amend [first])

theorem begins_of_read {options result : Options} {text : String} {rest : List String}
    (accepted : options.read (text :: rest) = .ok result) :
    ∃ (first : Setting) (others : List String), text :: rest = first.words ++ others := by
  unfold read at accepted
  cases known : Flag.ofText? text with
  | none => simp [known] at accepted
  | some flag =>
    cases Flag.eq_text_of_ofText? known
    cases flag with
    | strict => exact ⟨.strict,rest,rfl⟩
    | header => exact ⟨.header,rest,rfl⟩
    | verbose => exact ⟨.verbose,rest,rfl⟩
    | maxSteps =>
      cases rest with
      | nil => simp [known] at accepted
      | cons number others =>
        cases valid : stepLimit? number with
        | none => simp [known,valid] at accepted
        | some limit => exact ⟨.maxSteps number limit valid,others,rfl⟩

end Options

theorem Setting.length_words_pos (s : Setting) : 0 < s.words.length := by
  cases s <;> exact Nat.succ_pos _

theorem spelled_of_read {options result : Options} {words : List String}
    (accepted : options.read words = .ok result) : ∃ settings, words = spell settings := by
  -- An option takes one word or two, so the induction is on how many are left.
  induction size : words.length using Nat.strongRecOn generalizing words options with
  | ind count ih =>
    cases words with
    | nil => exact ⟨[],rfl⟩
    | cons text rest =>
      obtain ⟨first,others,begins⟩ := Options.begins_of_read accepted
      rw [begins,Options.read_words] at accepted
      have shorter : others.length < count := by
        have taken := first.length_words_pos
        rw [← size,begins,List.length_append]
        omega
      obtain ⟨settings,rfl⟩ := ih _ shorter accepted rfl
      exact ⟨first :: settings,begins⟩

end WordMachine.CommandLine
