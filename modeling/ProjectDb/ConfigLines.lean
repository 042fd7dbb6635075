import ProjectDb.ConfigParser

namespace ProjectDb

open Numerals

/-- The settings whose value is a number. -/
inductive UnsignedSetting
  | memTableApproximateMaxSizeInBytes | ssTableApproximateMaxSizeInBytes | ssTableIndexBlockSizeInBytes
  | numSSTableToCompact
  deriving DecidableEq

namespace UnsignedSetting

def name : UnsignedSetting → String
  | memTableApproximateMaxSizeInBytes => "MEMTABLE_APPROXIMATE_MAX_SIZE_IN_BYTES"
  | ssTableApproximateMaxSizeInBytes => "SSTABLE_APPROXIMATE_MAX_SIZE_IN_BYTES"
  | ssTableIndexBlockSizeInBytes => "SSTABLE_INDEX_BLOCK_SIZE_IN_BYTES"
  | numSSTableToCompact => "NUM_SSTABLE_TO_COMPACT"

def get (settings : Settings) : UnsignedSetting → UInt32
  | memTableApproximateMaxSizeInBytes => settings.memTableApproximateMaxSizeInBytes
  | ssTableApproximateMaxSizeInBytes => settings.ssTableApproximateMaxSizeInBytes
  | ssTableIndexBlockSizeInBytes => settings.ssTableIndexBlockSizeInBytes
  | numSSTableToCompact => settings.numSSTableToCompact

def set (n : UInt32) (settings : Settings) : UnsignedSetting → Settings
  | memTableApproximateMaxSizeInBytes => { settings with memTableApproximateMaxSizeInBytes := n }
  | ssTableApproximateMaxSizeInBytes => { settings with ssTableApproximateMaxSizeInBytes := n }
  | ssTableIndexBlockSizeInBytes => { settings with ssTableIndexBlockSizeInBytes := n }
  | numSSTableToCompact => { settings with numSSTableToCompact := n }

@[simp] theorem get_set (u : UnsignedSetting) (n : UInt32) (settings : Settings) : u.get (u.set n settings) = n := by
  cases u <;> rfl

end UnsignedSetting

/-- A decimal number of 32 bits, without a sign or anything else. -/
def decimal? (value : List Char) : Option UInt32 :=
  if value ≠ [] ∧ value.all Char.isDigit = true ∧ magnitude value < 2 ^ 32 then some (.ofNat (magnitude value))
  else none

def flag? (value : List Char) : Option Bool :=
  if value = ['0'] then some false else if value = ['1'] then some true else none

inductive Setting
  | unsigned (u : UnsignedSetting) | keepSSTableFileOpen | dbFilePath
  deriving DecidableEq

namespace Setting

def all : List Setting :=
  [unsigned .memTableApproximateMaxSizeInBytes, unsigned .ssTableApproximateMaxSizeInBytes,
    unsigned .ssTableIndexBlockSizeInBytes, unsigned .numSSTableToCompact, keepSSTableFileOpen, dbFilePath]

def name : Setting → List Char
  | unsigned u => u.name.toList
  | keepSSTableFileOpen => "KEEP_SSTABLE_FILE_OPEN".toList
  | dbFilePath => "DB_FILE_PATH".toList

/-- What a value does, if it is a valid one of the type of the setting. -/
def change? (value : List Char) : Setting → Option (Settings → Settings)
  | unsigned u => (decimal? value).map fun n settings => u.set n settings
  | keepSSTableFileOpen => (flag? value).map fun b settings => { settings with keepSSTableFileOpen := b }
  | dbFilePath => if value = [] then none else some fun settings => { settings with dbFilePath := value }

theorem mem_all (setting : Setting) : setting ∈ all := by
  cases setting with
  | unsigned u => cases u <;> decide
  | keepSSTableFileOpen => decide
  | dbFilePath => decide

theorem name_isName : ∀ setting ∈ all, setting.name ≠ [] ∧ ∀ c ∈ setting.name, isName c = true := by
  have checked : ∀ setting ∈ all, setting.name ≠ [] ∧ setting.name.all isName = true := by decide
  exact fun setting member => ⟨(checked setting member).1, List.all_eq_true.mp (checked setting member).2⟩

theorem name_injective : ∀ setting ∈ all, ∀ other ∈ all, setting.name = other.name → setting = other := by decide

end Setting

/-- The value of the setting in a line of the form `NAME VALUE`. -/
def valueOf? (line : List Char) (setting : Setting) : Option (List Char) :=
  if setting.name ++ [' '] <+: line then some (line.drop (setting.name.length + 1)) else none

/-- What a line is meant to do: it is applied or skipped. -/
def applyLine (line : List Char) (settings : Settings) : Settings :=
  match Setting.all.findSome? fun setting => (valueOf? line setting).bind setting.change? with
  | some change => change settings
  | none => settings

def applyLines (lines : List (List Char)) (settings : Settings) : Settings :=
  lines.foldl (fun settings line => applyLine line settings) settings

/-- The values that are applied or skipped as they are meant to be: valid ones,
ones in which nothing is found, and numbers that are refused as a flag. -/
def Setting.Clean (value : List Char) : Setting → Prop
  | unsigned _ => (decimal? value).isSome = true ∨ value.takeWhile isPoint = []
  | keepSSTableFileOpen =>
    (flag? value).isSome = true ∨ value.takeWhile isPoint = [] ∨
      ∃ n, stoi (value.takeWhile isPoint) = .ok n ∧ n ≠ 0 ∧ n ≠ 1
  | dbFilePath => ∀ c ∈ value, isPoint c = true

def CleanLine (line : List Char) : Prop :=
  ∀ (setting : Setting) (value : List Char), line = setting.name ++ ' ' :: value → setting.Clean value

section Lines
variable (setting : Setting) (value : List Char)

theorem takeWhile_name : (setting.name ++ ' ' :: value).takeWhile isName = setting.name := by
  rw [List.takeWhile_append_of_pos (setting.name_isName setting.mem_all).2]
  simp [isName]

theorem dropWhile_name : (setting.name ++ ' ' :: value).dropWhile isName = ' ' :: value := by
  rw [List.dropWhile_append_of_pos (setting.name_isName setting.mem_all).2]
  simp [isName]

theorem valueOf?_name (other : Setting) :
    valueOf? (setting.name ++ ' ' :: value) other = if other = setting then some value else none := by
  unfold valueOf?
  by_cases same : other = setting
  · subst same
    rw [if_pos rfl, if_pos ⟨value, by simp⟩]
    simp
  · rw [if_neg same, if_neg]
    rintro ⟨rest, whole⟩
    have names := takeWhile_name other rest
    rw [show other.name ++ ' ' :: rest = setting.name ++ ' ' :: value by rw [← whole]; simp, takeWhile_name] at names
    exact same (other.name_injective other.mem_all setting setting.mem_all names.symm)

/-- The only element with an answer is the one that is found. -/
theorem findSome?_unique {α β : Type} {f : α → Option β} {x : α} {xs : List α} (member : x ∈ xs)
    (only : ∀ y, y ≠ x → f y = none) : xs.findSome? f = f x := by
  cases answer : f x with
  | none =>
    refine List.findSome?_eq_none_iff.mpr fun y _ => ?_
    by_cases same : y = x
    · rw [same, answer]
    · exact only y same
  | some b =>
    induction xs with
    | nil => cases member
    | cons y ys ih =>
      by_cases same : y = x
      · rw [same, List.findSome?_cons_of_isSome (by rw [answer]; rfl), answer]
      · rw [List.findSome?_cons_of_isNone (by rw [only y same]; rfl)]
        exact ih ((List.mem_cons.mp member).resolve_left (Ne.symm same))

theorem applyLine_name (settings : Settings) :
    applyLine (setting.name ++ ' ' :: value) settings = ((setting.change? value).getD id) settings := by
  unfold applyLine
  rw [findSome?_unique setting.mem_all fun other differs => by rw [valueOf?_name, if_neg differs]; rfl,
    valueOf?_name, if_pos rfl, Option.bind_some]
  cases setting.change? value <;> rfl

variable {setting value}

/-- A line without a setting in front of a space is skipped. -/
theorem applyLine_other {line : List Char} (unnamed : ∀ (setting : Setting) value, line ≠ setting.name ++ ' ' :: value)
    (settings : Settings) : applyLine line settings = settings := by
  have nothing : (Setting.all.findSome? fun setting => (valueOf? line setting).bind setting.change?) = none := by
    refine List.findSome?_eq_none_iff.mpr fun setting _ => ?_
    rw [valueOf?, if_neg]
    · rfl
    · rintro ⟨rest, rfl⟩
      exact unnamed setting rest (by simp)
  unfold applyLine
  rw [nothing]

theorem searchConfig_name :
    searchConfig (setting.name ++ ' ' :: value) =
      if value.takeWhile isPoint = [] then none else some (setting.name, value.takeWhile isPoint) := by
  have some := (setting.name_isName setting.mem_all).1
  rw [searchConfig, dropWhile_name, takeWhile_name]
  split_ifs with nothing <;> simp_all

/-- What is found stands in front of and behind the first space. -/
theorem searchConfig_some {line config found : List Char} (search : searchConfig line = some (config, found)) :
    ∃ rest, line = config ++ ' ' :: rest := by
  unfold searchConfig at search
  split at search
  · rename_i rest dropped
    split_ifs at search
    cases search
    exact ⟨rest, by rw [← dropped, List.takeWhile_append_dropWhile]⟩
  · cases search

/-- What `updateConfig` does with the name of a setting. -/
def Setting.update (value : List Char) : Setting → ConfigM Unit
  | unsigned u => setConfigUnsigned (fun n settings => u.set n settings) value
  | keepSSTableFileOpen => setConfigBool (fun b settings => { settings with keepSSTableFileOpen := b }) value
  | dbFilePath => setConfigString (fun path settings => { settings with dbFilePath := path }) value

theorem updateConfig_name : updateConfig setting.name value = setting.update value := by
  cases setting with
  | unsigned u => cases u <;> rfl
  | keepSSTableFileOpen => rfl
  | dbFilePath => rfl

theorem updateConfig_other {config : List Char} (unnamed : ∀ setting : Setting, config ≠ setting.name) :
    updateConfig config value = throw (.db (.dbException ("Unsupported config found: " ++ String.ofList config))) := by
  have one : config ≠ "MEMTABLE_APPROXIMATE_MAX_SIZE_IN_BYTES".toList :=
    unnamed (.unsigned .memTableApproximateMaxSizeInBytes)
  have two : config ≠ "SSTABLE_APPROXIMATE_MAX_SIZE_IN_BYTES".toList :=
    unnamed (.unsigned .ssTableApproximateMaxSizeInBytes)
  have three : config ≠ "SSTABLE_INDEX_BLOCK_SIZE_IN_BYTES".toList := unnamed (.unsigned .ssTableIndexBlockSizeInBytes)
  have four : config ≠ "NUM_SSTABLE_TO_COMPACT".toList := unnamed (.unsigned .numSSTableToCompact)
  have five : config ≠ "KEEP_SSTABLE_FILE_OPEN".toList := unnamed .keepSSTableFileOpen
  have six : config ≠ "DB_FILE_PATH".toList := unnamed .dbFilePath
  rw [updateConfig, if_neg one, if_neg two, if_neg three, if_neg four, if_neg five, if_neg six]

theorem catchDbException_throw (msg : String) (settings : Settings) :
    catchDbException (throw (.db (.dbException msg))) settings = .ok () settings := rfl

theorem parseLine_other {line : List Char} (unnamed : ∀ (setting : Setting) value, line ≠ setting.name ++ ' ' :: value)
    (settings : Settings) : parseLine line settings = .ok () settings := by
  unfold parseLine
  cases search : searchConfig line with
  | none => rfl
  | some found =>
    obtain ⟨config, value⟩ := found
    obtain ⟨rest, rfl⟩ := searchConfig_some search
    have refused := @updateConfig_other value config fun setting same => unnamed setting rest (by rw [same])
    simp only [refused]
    exact catchDbException_throw _ settings

/-- The line of a setting, by what the search finds in its value. -/
theorem parseLine_name :
    parseLine (setting.name ++ ' ' :: value) =
      if value.takeWhile isPoint = [] then pure () else catchDbException (setting.update (value.takeWhile isPoint)) := by
  rw [parseLine, searchConfig_name]
  split_ifs with nothing
  · rfl
  · simp only [updateConfig_name]

theorem isPoint_digit {c : Char} (digit : c.isDigit = true) : isPoint c = true := by
  by_cases newline : c = '\n'
  · rw [newline] at digit
    exact absurd digit (by decide)
  · by_cases carriage : c = '\r'
    · rw [carriage] at digit
      exact absurd digit (by decide)
    · simp [isPoint, newline, carriage]

/-- A value with digits only is found whole. -/
theorem points_digits (digits : ∀ c ∈ value, c.isDigit = true) : value.takeWhile isPoint = value :=
  List.takeWhile_eq_self_iff.mpr fun c member => isPoint_digit (digits c member)

theorem decimal?_eq_some {n : UInt32} (valid : decimal? value = some n) :
    value.takeWhile isPoint = value ∧ value ≠ [] ∧ stoul value = .ok (magnitude value) ∧ n = .ofNat (magnitude value) := by
  unfold decimal? at valid
  split_ifs at valid with all
  obtain ⟨some, digits, small⟩ := all
  cases valid
  exact ⟨points_digits (List.all_eq_true.mp digits), some, stoul_digits (List.all_eq_true.mp digits) some (small.trans (by decide)), rfl⟩

theorem flag?_eq_some {b : Bool} (valid : flag? value = some b) : value = [if b then '1' else '0'] := by
  unfold flag? at valid
  split_ifs at valid with zero one
  · cases valid
    exact zero
  · cases valid
    exact one

theorem parseLine_unsigned (u : UnsignedSetting) :
    (∀ settings, parseLine ((Setting.unsigned u).name ++ ' ' :: value) settings =
      .ok () (applyLine ((Setting.unsigned u).name ++ ' ' :: value) settings)) ↔ (Setting.unsigned u).Clean value := by
  simp only [parseLine_name, applyLine_name, Setting.change?, Setting.Clean]
  cases valid : decimal? value with
  | some n =>
    obtain ⟨whole, some, number, rfl⟩ := decimal?_eq_some valid
    refine iff_of_true (fun settings => ?_) (Or.inl rfl)
    rw [whole, if_neg some]
    simp only [catchDbException, Setting.update, setConfigUnsigned, number]
    rfl
  | none =>
    by_cases nothing : value.takeWhile isPoint = []
    · refine iff_of_true (fun settings => ?_) (Or.inr nothing)
      rw [if_pos nothing]
      rfl
    · refine iff_of_false (fun exact_ => ?_) (by simp [nothing])
      rw [if_neg nothing] at exact_
      cases number : stoul (value.takeWhile isPoint) with
      | error e =>
        have thrown := exact_ .default
        simp only [catchDbException, Setting.update, setConfigUnsigned, number] at thrown
        cases thrown
      | ok n =>
        -- The number is applied to settings that have another one.
        obtain ⟨other, differs⟩ : ∃ other : UInt32, other ≠ .ofNat n := by
          by_cases zero : UInt32.ofNat n = 0
          · exact ⟨1, by rw [zero]; decide⟩
          · exact ⟨0, Ne.symm zero⟩
        have applied := exact_ (u.set other .default)
        simp only [catchDbException, Setting.update, setConfigUnsigned, number] at applied
        have same := congrArg u.get (EStateM.Result.ok.inj applied).2
        rw [u.get_set] at same
        exact differs (same.trans (u.get_set ..)).symm

theorem parseLine_keepSSTableFileOpen :
    (∀ settings, parseLine (Setting.keepSSTableFileOpen.name ++ ' ' :: value) settings =
      .ok () (applyLine (Setting.keepSSTableFileOpen.name ++ ' ' :: value) settings)) ↔
        Setting.keepSSTableFileOpen.Clean value := by
  simp only [parseLine_name, applyLine_name, Setting.change?, Setting.Clean]
  cases valid : flag? value with
  | some b =>
    refine iff_of_true (fun settings => ?_) (Or.inl rfl)
    cases flag?_eq_some valid
    cases b <;> rfl
  | none =>
    by_cases nothing : value.takeWhile isPoint = []
    · refine iff_of_true (fun settings => ?_) (Or.inr (Or.inl nothing))
      rw [if_pos nothing]
      rfl
    · rw [if_neg nothing]
      cases number : stoi (value.takeWhile isPoint) with
      | error e =>
        refine iff_of_false (fun exact_ => ?_) (by simp [nothing])
        have thrown := exact_ .default
        simp only [catchDbException, Setting.update, setConfigBool, number] at thrown
        cases thrown
      | ok n =>
        by_cases refused : n ≠ 0 ∧ n ≠ 1
        · refine iff_of_true (fun settings => ?_) (Or.inr (Or.inr ⟨n, rfl, refused⟩))
          simp only [catchDbException, Setting.update, setConfigBool, number, if_pos refused]
          rfl
        · refine iff_of_false (fun exact_ => ?_) ?_
          · have applied := exact_ { Settings.default with keepSSTableFileOpen := !decide (n ≠ 0) }
            simp only [catchDbException, Setting.update, setConfigBool, number, if_neg refused] at applied
            have same := congrArg (fun settings : Settings => settings.keepSSTableFileOpen) (EStateM.Result.ok.inj applied).2
            simp at same
          · rintro (set | found | ⟨m, sameNumber, range⟩)
            · cases set
            · exact nothing found
            · cases sameNumber
              exact refused range

theorem parseLine_dbFilePath :
    (∀ settings, parseLine (Setting.dbFilePath.name ++ ' ' :: value) settings =
      .ok () (applyLine (Setting.dbFilePath.name ++ ' ' :: value) settings)) ↔ Setting.dbFilePath.Clean value := by
  simp only [parseLine_name, applyLine_name, Setting.change?, Setting.Clean]
  rw [← List.takeWhile_eq_self_iff]
  by_cases whole : value.takeWhile isPoint = value
  · refine iff_of_true (fun settings => ?_) whole
    rw [whole]
    split_ifs <;> rfl
  · refine iff_of_false (fun exact_ => ?_) whole
    have some : value ≠ [] := by
      rintro rfl
      exact whole rfl
    rw [if_neg some] at exact_
    -- No path that is in the settings before makes up for the text that is left out.
    have applied := exact_ { Settings.default with dbFilePath := ' ' :: value }
    split_ifs at applied with nothing
    · have same := congrArg (fun settings : Settings => settings.dbFilePath.length) (EStateM.Result.ok.inj applied).2
      simp at same
    · exact whole (congrArg (fun settings : Settings => settings.dbFilePath) (EStateM.Result.ok.inj applied).2)

end Lines

/-- A line does what it is meant to do, from all settings, if and only if it is clean. -/
theorem parseLine_iff (line : List Char) :
    (∀ settings, parseLine line settings = .ok () (applyLine line settings)) ↔ CleanLine line := by
  by_cases named : ∃ (setting : Setting) (value : List Char), line = setting.name ++ ' ' :: value
  · obtain ⟨setting, value, rfl⟩ := named
    have only : CleanLine (setting.name ++ ' ' :: value) ↔ setting.Clean value := by
      refine ⟨fun clean => clean setting value rfl, fun clean other rest same => ?_⟩
      have found := valueOf?_name setting value other
      rw [same, valueOf?_name other rest, if_pos rfl] at found
      split_ifs at found with equal
      cases found
      rw [equal]
      exact clean
    rw [only]
    cases setting with
    | unsigned u => exact parseLine_unsigned u
    | keepSSTableFileOpen => exact parseLine_keepSSTableFileOpen
    | dbFilePath => exact parseLine_dbFilePath
  · have unnamed (setting : Setting) (value : List Char) : line ≠ setting.name ++ ' ' :: value :=
      fun same => named ⟨setting, value, same⟩
    refine iff_of_true (fun settings => ?_) fun setting value same => absurd same (unnamed setting value)
    rw [parseLine_other unnamed, applyLine_other unnamed]

theorem forM_parseLine {lines : List (List Char)}
    (each : ∀ line ∈ lines, ∀ settings, parseLine line settings = .ok () (applyLine line settings)) (settings : Settings) :
    lines.forM parseLine settings = .ok () (applyLines lines settings) := by
  induction lines generalizing settings with
  | nil => rfl
  | cons line lines ih =>
    have rest := ih fun line member => each line (List.mem_cons_of_mem _ member)
    exact (EStateM.bind_ok (each line (List.mem_cons_self ..) settings)).trans (rest _)

/-- Parsing a file applies every line of it or skips it, as it is meant to be
with that line, if and only if all its lines are clean. -/
theorem ConfigParser.parse_iff (configFilePath : String) (text : List Char) :
    ((∀ settings, parse configFilePath (some text) settings = .ok () (applyLines (getlines text) settings)) ∧
        ∀ line ∈ getlines text, ∀ settings, parseLine line settings = .ok () (applyLine line settings)) ↔
      ∀ line ∈ getlines text, CleanLine line := by
  constructor
  · rintro ⟨_, each⟩ line member
    exact (parseLine_iff line).mp (each line member)
  · intro clean
    have each (line) (member : line ∈ getlines text) := (parseLine_iff line).mpr (clean line member)
    exact ⟨forM_parseLine each, each⟩

/-- A file of one line that sets a number, by what the conversion finds in it. -/
theorem ConfigParser.parse_single (configFilePath : String) {text value : List Char} {u : UnsignedSetting}
    (single : getlines text = [(Setting.unsigned u).name ++ ' ' :: value]) (points : value.takeWhile isPoint = value)
    (some : value ≠ []) (settings : Settings) :
    parse configFilePath (.some text) settings =
        (match stoul value with
        | .ok n => .ok () (u.set (.ofNat n) settings)
        | .error e => .error (.conversion e) settings) ∧
      applyLines (getlines text) settings = (((decimal? value).map fun n settings => u.set n settings).getD id) settings := by
  constructor
  · have line : parse configFilePath (.some text) settings =
        (parseLine ((Setting.unsigned u).name ++ ' ' :: value) >>= fun _ => pure ()) settings := by
      rw [parse, single]
      rfl
    rw [line, parseLine_name, points, if_neg some]
    simp only [bind, EStateM.bind, catchDbException, Setting.update, setConfigUnsigned]
    cases stoul value <;> rfl
  · rw [single]
    exact applyLine_name ..

/-- A word in place of a number ends the parsing, and of a number that is
written in groups the first one is applied. Both lines are to be skipped. -/
theorem ConfigParser.parse_rejects :
    (∃ text, text = "NUM_SSTABLE_TO_COMPACT five".toList ∧ applyLines (getlines text) .default = .default ∧
        parse "config" (some text) .default = .error (.conversion .invalidArgument) .default) ∧
      ∃ text, text = "MEMTABLE_APPROXIMATE_MAX_SIZE_IN_BYTES 2,097,152".toList ∧
        applyLines (getlines text) .default = .default ∧
        parse "config" (some text) .default = .ok () { Settings.default with memTableApproximateMaxSizeInBytes := 2 } := by
  constructor
  · have line : getlines "NUM_SSTABLE_TO_COMPACT five".toList =
        [(Setting.unsigned .numSSTableToCompact).name ++ ' ' :: "five".toList] := by decide
    obtain ⟨parsed, applied⟩ := parse_single "config" line (by decide) (by decide) .default
    have number : stoul "five".toList = .error .invalidArgument := by decide
    have valid : decimal? "five".toList = none := by decide
    rw [number] at parsed
    rw [valid] at applied
    exact ⟨_, rfl, applied, parsed⟩
  · have line : getlines "MEMTABLE_APPROXIMATE_MAX_SIZE_IN_BYTES 2,097,152".toList =
        [(Setting.unsigned .memTableApproximateMaxSizeInBytes).name ++ ' ' :: "2,097,152".toList] := by decide
    obtain ⟨parsed, applied⟩ := parse_single "config" line (by decide) (by decide) .default
    have number : stoul "2,097,152".toList = .ok 2 := by decide
    have valid : decimal? "2,097,152".toList = none := by decide
    rw [number] at parsed
    rw [valid] at applied
    exact ⟨_, rfl, applied, parsed⟩

end ProjectDb
