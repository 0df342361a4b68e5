import LineShell.FileTree
import LineShell.Toml.Document

/-!
The settings of a session, and the places where they and the line history are
kept. Settings are read from a TOML file; what the file does not give has a
value all the same, and keys that mean nothing here are let pass.
-/

namespace LineShell

/-- The settings of a session. -/
structure Config where
  /-- What is written before every line that is read. -/
  prompt : Text := "> ".toList
  /-- Whether the session begins and ends with a greeting. -/
  banner : Bool := true
  /-- Whether the lines are remembered from one session to the next. -/
  history : Bool := true
  /-- The file in which they are remembered, if it is not the usual one. -/
  historyFile : Option Text := none
deriving DecidableEq, Repr

/-- Why there are no settings. -/
inductive ConfigError where
  | unreadable (path : Text)
  /-- The file is no TOML, or a setting in it is of another kind. -/
  | malformed (path : Text)
deriving DecidableEq, Repr

def ConfigError.message : ConfigError → Text
  | unreadable path => "Failed to read config from ".toList ++ path
  | malformed path => "Failed to parse config from ".toList ++ path

/-- Where a user keeps things: the surroundings that a program is started in. -/
structure Surroundings where
  /-- The home directory, as the surroundings give it. -/
  home : Option Text := none
  /-- The home directory of the account, used where the surroundings give
  none. -/
  accountHome : Text
  /-- A place for settings, if the surroundings give one. -/
  configHome : Option Text := none
  /-- A place for data, if the surroundings give one. -/
  dataHome : Option Text := none
deriving DecidableEq, Repr

namespace Surroundings

/-- The home directory. An empty one counts as none. -/
def homeDirectory (around : Surroundings) : Text :=
  match around.home with
  | some home => if home = [] then around.accountHome else home
  | none => around.accountHome

/-- A given place if it is absolute, and otherwise one below the home
directory. -/
def placeOr (around : Surroundings) (given : Option Text) (below : String) : Text :=
  match given with
  | some path =>
    if Path.isAbsolute path then path else Path.join around.homeDirectory below.toList
  | none => Path.join around.homeDirectory below.toList

/-- The name of the directory that the program has for itself. -/
def ownName : Text := "pipesh".toList

def configPath (around : Surroundings) : Text :=
  Path.join (Path.join (around.placeOr around.configHome ".config") ownName)
    "config.toml".toList

/-- The file that lines are remembered in, unless the settings name another. -/
def historyPath (around : Surroundings) : Text :=
  Path.join (Path.join (around.placeOr around.dataHome ".local/share") ownName)
    "history.txt".toList

end Surroundings

namespace Config

def textSetting (entries : Toml.Entries) (key : String) : Option (Option Text) :=
  match entries.find? key.toList with
  | some (.string text) => some (some text)
  | some _ => none
  | none => some none

def flagSetting (entries : Toml.Entries) (key : String) : Option (Option Bool) :=
  match entries.find? key.toList with
  | some (.boolean value) => some (some value)
  | some _ => none
  | none => some none

/-- The settings in a document, provided that each is of its kind. -/
def ofEntries? (entries : Toml.Entries) : Option Config := do
  let prompt ← textSetting entries "prompt"
  let banner ← flagSetting entries "banner"
  let history ← flagSetting entries "history"
  let historyFile ← textSetting entries "history_file"
  let usual : Config := {}
  pure { prompt := prompt.getD usual.prompt
         banner := banner.getD usual.banner
         history := history.getD usual.history
         historyFile }

def parse? (text : Text) : Option Config :=
  (Toml.parse? text).bind ofEntries?

def loadFrom (files : FileTree) (path : Text) : Except ConfigError Config :=
  match (files.read? path).bind Text.decode? with
  | none => .error (.unreadable path)
  | some text =>
    match parse? text with
    | some config => .ok config
    | none => .error (.malformed path)

/-- The settings in the usual file. Where there is no such file all settings have
their usual values. -/
def load (files : FileTree) (around : Surroundings) : Except ConfigError Config :=
  if files.isPresent around.configPath then loadFrom files around.configPath
  else .ok {}

/-- The file that lines are remembered in, if they are. -/
def historyPath? (config : Config) (around : Surroundings) : Option Text :=
  if config.history then
    match config.historyFile with
    | some path => some path
    | none => some around.historyPath
  else none

end Config

end LineShell
