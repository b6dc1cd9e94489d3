import CommandShell.Disk.Calls
import CommandShell.Fault
import CommandShell.Path.Normal
import CommandShell.Settings.Toml

/-!
# Settings

- `Settings.ofToml`: the settings in a document. Keys that are left out have their default, unknown
  and repeated keys are refused.
- `Settings.load`, `Settings.ofEnvironment`: the settings in a file, or in the file that the
  environment names.
- `Settings.homeOr`: the home directory, from the settings, the environment, or else the given one.
-/

namespace CommandShell

/-- How the shell looks and where it is at home. -/
structure Settings where
  /-- What follows the working directory in the prompt. -/
  promptSuffix : String
  /-- The first line shown; none when it is empty. -/
  banner : String
  /-- Which messages are logged. -/
  logFilter : String
  /-- The home directory, when it is set. -/
  home : Option Path
  deriving DecidableEq, Repr

/-- The variables that the shell looks at. -/
structure Environment where
  /-- The home directory. -/
  home : Option String
  /-- The home directory, where the other one is not set. -/
  userProfile : Option String
  /-- The file with the settings. -/
  settingsFile : Option String
  deriving DecidableEq, Repr

namespace Settings

/-- The settings when nothing is set. -/
def default : Settings where
  promptSuffix := " >> "
  banner := "Command Line Interpreter (Type 'exit' to quit)"
  logFilter := "warn"
  home := none

/-! ## Documents -/

/-- The keys of settings. -/
def keys : List String := ["prompt_suffix", "banner", "log_filter", "home"]

/-- The settings that keys with their texts make; nothing when a key is unknown or repeated. -/
def ofPairs? (pairs : List (String × String)) : Option Settings :=
  let given := pairs.map Prod.fst
  if given.all (· ∈ keys) ∧ given.Nodup then
    some
      { promptSuffix := (pairs.lookup "prompt_suffix").getD default.promptSuffix
        banner := (pairs.lookup "banner").getD default.banner
        logFilter := (pairs.lookup "log_filter").getD default.logFilter
        home := (pairs.lookup "home").map Path.ofString }
  else none

/-- The settings in a document. -/
def ofToml (document : String) : Except Fault Settings :=
  match (Toml.texts? document.toList).bind ofPairs? with
  | none => .error .malformedSettings
  | some settings =>
    if '\n' ∈ settings.promptSuffix.toList then .error (.settings .promptSpansLines)
    else .ok settings

/-! ## Files -/

/-- The settings in a file, whose path is read from a directory and shown as typed. -/
def load (d : Disk) (directory : Path) (typed : String) : Except Fault Settings :=
  match d.content (if typed = "" then .ofString typed else directory.resolve typed) with
  | .error refusal => .error (.settings (.unreadable (.ofString typed) refusal))
  | .ok bytes =>
    match Utf8.toString? bytes with
    | none => .error (.settings (.notText (.ofString typed)))
    | some document => ofToml document

/-- The settings in the file that the environment names, or the default ones. -/
def ofEnvironment (d : Disk) (directory : Path) (env : Environment) : Except Fault Settings :=
  match env.settingsFile with
  | none => .ok default
  | some typed => if typed = "" then .ok default else load d directory typed

/-! ## Home -/

/-- A variable that is set to nothing counts as not set. -/
def nonempty (setting : Option String) : Option String :=
  setting.filter (· ≠ "")

/-- The home directory: the one of the settings, else that of the environment, else the given
one. -/
def homeOr (settings : Settings) (env : Environment) (fallback : Path) : Path :=
  match settings.home with
  | some home => home
  | none =>
    match (nonempty env.home).or (nonempty env.userProfile) with
    | some home => .ofString home
    | none => fallback

end Settings

end CommandShell
