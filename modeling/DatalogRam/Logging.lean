import DatalogRam.Event

/-!
# Showing events in tests

Tests install a filter on the events of their process. Its text is a setting of the process, and a library reads
it. The setting wins if it can be read; otherwise only warnings and errors are shown. The first call installs, and
all others change nothing.
-/

namespace DatalogRam

/-- What is used of a library of filters on events. -/
structure FilterLibrary (Filter : Type) where
  /-- The filter that a text asks for, if all of the text can be read. -/
  read? : String → Option Filter
  /-- The filter of those parts of a text that can be read. -/
  readLeniently : String → Filter
  /-- Whether events of a target and a level are let through. -/
  lets : Filter → String → Level → Bool

namespace FilterLibrary

variable {Filter : Type} (library : FilterLibrary Filter)

def ofSetting (setting : Option String) : Filter :=
  (setting.bind library.read?).getD (library.readLeniently "warn")

/-- Install the filter of the setting, unless the process has one. -/
def initTest (setting : Option String) : Option Filter → Option Filter
  | none => some (library.ofSetting setting)
  | some installed => some installed

/-- Whether a process shows events of a target and a level. -/
def shows (installed : Option Filter) (target : String) (level : Level) : Bool :=
  installed.any (library.lets · target level)

/-- The library documents that a level alone lets through the events of that level and all that are more
important. -/
def ReadsLevels : Prop :=
  ∀ (threshold level : Level) (target : String),
    library.lets (library.readLeniently threshold.name) target level = level.reaches threshold

variable {library} {target : String} {level : Level}

/-- What the filter of a setting lets through. -/
theorem lets_ofSetting (reads : library.ReadsLevels) (setting : Option String) :
    library.lets (library.ofSetting setting) target level =
      (setting.bind library.read?).elim (level.reaches .warn) (library.lets · target level) := by
  cases isRead : setting.bind library.read? with
  | some filter => rw [ofSetting, isRead, Option.getD_some, Option.elim_some]
  | none =>
      rw [ofSetting, isRead, Option.getD_none, Option.elim_none]
      exact reads .warn level target

theorem foldl_initTest_some (settings : List (Option String)) (installed : Filter) :
    settings.foldl (fun state setting => library.initTest setting state) (some installed) = some installed := by
  induction settings with
  | nil => rfl
  | cons setting settings ih => exact ih

/-- However often tests are set up, the first setting decides what is shown. -/
theorem shows_foldl_initTest (reads : library.ReadsLevels) (first : Option String) (others : List (Option String)) :
    library.shows ((first :: others).foldl (fun state setting => library.initTest setting state) none) target level =
      (first.bind library.read?).elim (level.reaches .warn) (library.lets · target level) := by
  have installed : (first :: others).foldl (fun state setting => library.initTest setting state) none =
      some (library.ofSetting first) := foldl_initTest_some others _
  rw [installed, shows, Option.any_some]
  exact lets_ofSetting reads first

end FilterLibrary

end DatalogRam
