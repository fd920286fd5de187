/-
# `Settings` — configuration from the environment

Settings are read from environment variables.  A variable that is not set, or
that holds bytes that are no text, leaves its setting at the default; the address
of the database has none and is required.  A number can have white space around
it and one plus sign in front; it is refused if it does not read or lies outside
the range of its setting.  The first variable at fault is reported.
-/
import BalanceLedger.Operation.Retry
import BalanceLedger.Outbox.Maintenance
import BalanceLedger.Outbox.Processor
import BalanceLedger.Text.Blank

namespace BalanceLedger

open Time (Span)

/-- What an environment variable holds. -/
inductive Variable where
  | text (s : String)
  /-- Bytes that are no text. -/
  | bytes
deriving DecidableEq, Repr

/-- The variables that are set. -/
abbrev Environment := List (String × Variable)

namespace Environment

/-- The text of a variable. -/
def text? (env : Environment) (name : String) : Option String :=
  match env.lookup name with
  | some (.text s) => some s
  | _ => none

end Environment

/-- Why settings cannot be read. -/
inductive SettingsError where
  | missing (name : String)
  | invalid (name : String)
  | outOfRange (name : String)
deriving DecidableEq, Repr

def SettingsError.code : SettingsError → String
  | missing _ => "missing_env"
  | invalid _ => "invalid_value"
  | outOfRange _ => "out_of_range"

def SettingsError.message : SettingsError → String
  | missing name => "Missing environment variable: " ++ name
  | invalid name => "Invalid value for environment variable: " ++ name
  | outOfRange name => "Value out of range for environment variable: " ++ name

/-- How the log is written. -/
inductive LogFormat where
  | text
  | json
deriving DecidableEq, Repr

def LogFormat.name : LogFormat → String
  | text => "text"
  | json => "json"

/-- What the program is told from outside. -/
structure Settings where
  databaseUrl : String
  databaseMaxConnections : Nat
  environment : String
  logFormat : LogFormat
  outboxPollSeconds : Nat
  outboxBatchSize : Nat
  outboxMaxRetries : Nat
  outboxLeaseSeconds : Nat
  outboxStartupSeconds : Nat
  outboxRetentionDays : Nat
  ledgerMaxAttempts : Nat
deriving DecidableEq, Repr

namespace Settings

/-- A numeric setting: its variable, the numbers that can be written in it, those that are in
range, and the default. -/
structure Number where
  name : String
  /-- The least and the greatest number that can be written. -/
  least : Int
  greatest : Int
  /-- The range, both ends included. -/
  first : Nat
  last : Nat
  default : Nat
deriving DecidableEq, Repr

/-- A setting that is an unsigned 32-bit number. -/
def unsigned32 (name : String) (default first last : Nat) : Number :=
  { name, least := 0, greatest := Word.maxNat32, first, last, default }

/-- A setting that is an unsigned 64-bit number. -/
def unsigned64 (name : String) (default first last : Nat) : Number :=
  { name, least := 0, greatest := Word.maxNat64, first, last, default }

/-- A setting that is a signed 32-bit number. -/
def signed32 (name : String) (default first last : Nat) : Number :=
  { name, least := Word.minInt32, greatest := Word.maxInt32, first, last, default }

/-- The number of a text of decimal digits. -/
def digits? (cs : List Char) : Option Nat :=
  if cs.isEmpty || !cs.all Char.isDigit then none
  else some (cs.foldl (fun n c => n * 10 + (c.toNat - 48)) 0)

/-- The number of a text of digits with a sign in front; a minus sign only where numbers below
zero can be written. -/
def signed? (negatives : Bool) : List Char → Option Int
  | '+' :: cs => (digits? cs).map Int.ofNat
  | '-' :: cs => if negatives then (digits? cs).map fun n => -(n : Int) else none
  | cs => (digits? cs).map Int.ofNat

namespace Number

/-- Read the number from a text. -/
def parse? (d : Number) (s : String) : Option Int :=
  (signed? (decide (d.least < 0)) (Text.trim s).toList).filter fun n =>
    decide (d.least ≤ n ∧ n ≤ d.greatest)

def read (d : Number) (env : Environment) : Except SettingsError Nat :=
  match env.text? d.name with
  | none => .ok d.default
  | some s =>
    match d.parse? s with
    | none => .error (.invalid d.name)
    | some n =>
      if (d.first : Int) ≤ n ∧ n ≤ d.last then .ok n.toNat else .error (.outOfRange d.name)

end Number

def readLogFormat (env : Environment) : Except SettingsError LogFormat :=
  match env.text? "LOG_FORMAT" with
  | none => .ok .text
  | some "text" => .ok .text
  | some "json" => .ok .json
  | some _ => .error (.invalid "LOG_FORMAT")

def ofEnvironment (env : Environment) : Except SettingsError Settings := do
  let some databaseUrl := env.text? "DATABASE_URL" | throw (.missing "DATABASE_URL")
  let environment := (env.text? "ENVIRONMENT").getD "development"
  let logFormat ← readLogFormat env
  return {
    databaseUrl, environment, logFormat
    databaseMaxConnections := ← (unsigned32 "DATABASE_MAX_CONNECTIONS" 10 1 1000).read env
    outboxPollSeconds := ← (unsigned64 "OUTBOX_POLL_INTERVAL_SECS" 10 1 3600).read env
    outboxBatchSize := ← (unsigned64 "OUTBOX_BATCH_SIZE" 50 1 10000).read env
    outboxMaxRetries := ← (signed32 "OUTBOX_MAX_RETRIES" 3 1 100).read env
    outboxLeaseSeconds := ← (unsigned64 "OUTBOX_CLAIM_LEASE_SECS" 300 1 86400).read env
    outboxStartupSeconds := ← (unsigned64 "OUTBOX_STARTUP_DELAY_SECS" 5 0 3600).read env
    outboxRetentionDays := ← (unsigned64 "OUTBOX_RETENTION_DAYS" 7 1 3650).read env
    ledgerMaxAttempts := ← (unsigned32 "LEDGER_MAX_CONCURRENCY_RETRIES" 5 1 100).read env }

def isProduction (s : Settings) : Bool :=
  s.environment == "production"

def hasJsonLog (s : Settings) : Bool :=
  s.logFormat = .json

def processor (s : Settings) : Outbox.ProcessorConfig where
  pollInterval := .ofSeconds s.outboxPollSeconds
  batchSize := s.outboxBatchSize
  maxRetries := Int32.ofNat s.outboxMaxRetries
  claimLease := .ofSeconds s.outboxLeaseSeconds
  startupDelay := .ofSeconds s.outboxStartupSeconds

def maintenance (s : Settings) : Outbox.MaintenanceConfig where
  retention := .ofSeconds (s.outboxRetentionDays * 24 * 3600)

def retryPolicy (s : Settings) : RetryPolicy :=
  .ofAttempts s.ledgerMaxAttempts

/-- All settings, and what the parts of the program make of them: the `processor`, the `maintenance`
and the `retryPolicy`. -/
def toJson (s : Settings) : Json :=
  let p := s.processor
  let m := s.maintenance
  let seconds (length : Span) : Json := .nat length.seconds
  .obj
    [("database_url", .str s.databaseUrl),
      ("database_max_connections", .nat s.databaseMaxConnections),
      ("environment", .str s.environment), ("log_format", .str s.logFormat.name),
      ("outbox_poll_interval_secs", .nat s.outboxPollSeconds),
      ("outbox_batch_size", .nat s.outboxBatchSize),
      ("outbox_max_retries", .nat s.outboxMaxRetries),
      ("outbox_claim_lease_secs", .nat s.outboxLeaseSeconds),
      ("outbox_startup_delay_secs", .nat s.outboxStartupSeconds),
      ("outbox_retention_days", .nat s.outboxRetentionDays),
      ("ledger_max_concurrency_retries", .nat s.ledgerMaxAttempts),
      ("is_production", .bool s.isProduction), ("json_logs", .bool s.hasJsonLog),
      ("processor", .arr
        [seconds p.pollInterval, .nat p.batchSize, .int32 p.maxRetries, seconds p.claimLease,
          seconds p.startupDelay]),
      ("jobs", .arr
        [seconds m.cleanupInterval, seconds m.reportInterval, seconds m.retention]),
      ("retry", .arr
        [.nat s.retryPolicy.maxAttempts, .nat s.retryPolicy.baseDelay.millis])]

end Settings

end BalanceLedger
