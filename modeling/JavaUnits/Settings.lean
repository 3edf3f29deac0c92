import JavaUnits.Path
import JavaUnits.Policy
import JavaUnits.Text.Quoted

/-!
Settings read from named values of the environment.
-/

namespace JavaUnits

structure Settings where
  policy : Policy
  logLevel : Text
  corsOrigins : List Text
  serviceUrl : Text
  submissionsFolder : Path
  deriving DecidableEq

inductive SettingsError where
  | unknownPolicy (name : Text)
  | unknownHome
  | unknownLevel (name : Text)
  deriving DecidableEq

namespace SettingsError

def message : SettingsError → Text
  | unknownPolicy name =>
    Text.ofString "ENTRY_POINT_POLICY must be one of " ++ Policy.choices ++ ", got " ++ name.quoted
  | unknownHome => "Could not determine home directory."
  | unknownLevel name => Text.ofString "Unknown level: " ++ name.quoted

end SettingsError

namespace Settings

abbrev Environment := List (Text × Text)

def value (env : Environment) (name fallback : Text) : Text :=
  (env.lookup name).getD fallback

/-- The homes of the accounts that every system has. -/
def accounts : List (Text × Text) :=
  [("root", "/root"), ("daemon", "/usr/sbin"), ("bin", "/bin"), ("sys", "/dev"), ("sync", "/bin"),
   ("games", "/usr/games"), ("man", "/var/cache/man"), ("lp", "/var/spool/lpd"),
   ("mail", "/var/mail"), ("news", "/var/spool/news"), ("uucp", "/var/spool/uucp"),
   ("proxy", "/bin"), ("www-data", "/var/www"), ("backup", "/var/backups"), ("list", "/var/list"),
   ("irc", "/run/ircd"), ("_apt", "/nonexistent"), ("nobody", "/nonexistent")]

/-- The home of an account, or one's own where none is named. One without a name is the root. -/
def home (env : Environment) (account : Text) : Except SettingsError Path :=
  let named? :=
    if account.isEmpty then some (value env "HOME" "/home/u") else accounts.lookup account
  match named? with
  | none => .error .unknownHome
  | some named =>
    if named.startsWith "~" then .error .unknownHome
    else if named.all fun c : CodePoint => c = '/' then .ok ⟨1, []⟩
    else .ok (.ofText named)

/-- A tilde at the start of a relative path stands for a home, of the account whose name follows in
the same part. -/
def expandHome (env : Environment) (p : Path) : Except SettingsError Path := do
  match p.slashes, p.parts with
  | 0, (c :: account) :: rest =>
    if c = '~' then
      let base ← home env account
      return ⟨base.slashes, base.parts ++ rest⟩
    else return p
  | _, _ => return p

def folder (env : Environment) : Except SettingsError Path := do
  let named := (value env "SUBMISSIONS_FOLDER" []).strip
  if named.isEmpty then return (← home env []).child "lambdachecker"
  else expandHome env (.ofText named)

def load (env : Environment) : Except SettingsError Settings := do
  let policyName := (value env "ENTRY_POINT_POLICY" "last").strip.toLower
  match Policy.ofName? policyName with
  | none => throw (.unknownPolicy policyName)
  | some policy =>
    let origins := value env "CORS_ORIGINS" "http://localhost:5173,http://localhost:3000"
    return {
      policy := policy
      logLevel := (value env "LOG_LEVEL" "INFO").toUpper
      corsOrigins := ((origins.splitOn ',').map Text.strip).filter fun origin => !origin.isEmpty
      serviceUrl := value env "MULTICLASS_CORE_URL" "http://127.0.0.1:7075"
      submissionsFolder := ← folder env }

def levels : List (Text × Nat) :=
  [("CRITICAL", 50), ("FATAL", 50), ("ERROR", 40), ("WARNING", 30), ("WARN", 30), ("INFO", 20),
   ("DEBUG", 10), ("NOTSET", 0)]

/-- The number of the level that is taken where no other is known. -/
def defaultLevel : Nat := 20

/-- What the log knows by a name without its being a level. -/
def formats : List (Text × Text) :=
  [("BASIC_FORMAT", "%(levelname)s:%(name)s:%(message)s")]

/-- The number of the level asked for, or else of the configured one. -/
def effectiveLevel (settings : Settings) (asked : Option Text) : Except SettingsError Nat :=
  let name :=
    match asked with
    | some (c :: s) => c :: s
    | _ => settings.logLevel
  match levels.lookup name, formats.lookup name with
  | some n, _ => .ok n
  | none, some format => .error (.unknownLevel format)
  | none, none => .ok defaultLevel

end Settings

end JavaUnits
