/-
# `Sql.Schema` — the tables of the ledger

The script that creates the tables, and the checks that a program makes before
it relies on them.
-/
import BalanceLedger.Log
import BalanceLedger.Sql.Wire

namespace BalanceLedger.Sql.Schema

/-- The tables that have to be there. -/
def requiredTables : List String :=
  ["account_balances", "ledger_entries", "outbox_messages"]

/-- The table of slots: one row per account and currency. -/
def slotTable : String :=
  "CREATE TABLE IF NOT EXISTS account_balances ( account_id UUID NOT NULL, " ++
    "currency_code VARCHAR(3) NOT NULL, balance_minor_units BIGINT NOT NULL DEFAULT 0, " ++
    "reserved_minor_units BIGINT NOT NULL DEFAULT 0, version BIGINT NOT NULL, " ++
    "last_updated_at TIMESTAMPTZ NOT NULL DEFAULT NOW(), " ++
    "PRIMARY KEY (account_id, currency_code), " ++
    "CONSTRAINT chk_account_balances_non_negative CHECK (balance_minor_units >= 0), " ++
    "CONSTRAINT chk_account_balances_reserved CHECK ( reserved_minor_units >= 0 AND " ++
    "reserved_minor_units <= balance_minor_units ), " ++
    "CONSTRAINT chk_account_balances_version CHECK (version >= 1) );"

/-- The table of entries: rows are only added. -/
def entryTable : String :=
  "CREATE TABLE IF NOT EXISTS ledger_entries ( seq BIGSERIAL NOT NULL, id UUID PRIMARY KEY, " ++
    "account_id UUID NOT NULL, currency_code VARCHAR(3) NOT NULL, " ++
    "entry_type VARCHAR(10) NOT NULL, amount_minor_units BIGINT NOT NULL, " ++
    "description VARCHAR(500) NOT NULL, reference VARCHAR(100), transaction_id UUID, " ++
    "original_entry_id UUID REFERENCES ledger_entries (id), entry_date TIMESTAMPTZ NOT NULL, " ++
    "running_balance BIGINT NOT NULL, idempotency_key VARCHAR(100), " ++
    "CONSTRAINT chk_ledger_entries_type CHECK (entry_type IN ('Debit', 'Credit')), " ++
    "CONSTRAINT chk_ledger_entries_amount CHECK (amount_minor_units > 0), " ++
    "CONSTRAINT uq_ledger_entries_idempotency_key UNIQUE (idempotency_key), " ++
    "CONSTRAINT uq_ledger_entries_original_entry_id UNIQUE (original_entry_id) ); " ++
    "CREATE INDEX IF NOT EXISTS idx_ledger_entries_account_history " ++
    "ON ledger_entries (account_id, currency_code, entry_date DESC, seq DESC);"

/-- The table of messages. -/
def messageTable : String :=
  "CREATE TABLE IF NOT EXISTS outbox_messages ( seq BIGSERIAL NOT NULL, id UUID PRIMARY KEY, " ++
    "event_type VARCHAR(100) NOT NULL, payload JSONB NOT NULL, " ++
    "occurred_at TIMESTAMPTZ NOT NULL, processed_at TIMESTAMPTZ, claimed_at TIMESTAMPTZ, " ++
    "status VARCHAR(20) NOT NULL DEFAULT 'pending', retry_count INTEGER NOT NULL DEFAULT 0, " ++
    "error TEXT, correlation_id VARCHAR(100), initiated_by VARCHAR(100), " ++
    "CONSTRAINT chk_outbox_messages_status CHECK ( status IN ('pending', 'processing', " ++
    "'completed', 'failed') ) ); " ++
    "CREATE INDEX IF NOT EXISTS idx_outbox_messages_claimable " ++
    "ON outbox_messages (status, occurred_at, seq) WHERE status IN ('pending', 'processing');"

/-- The type of a column, of the tables and of what statements compute. -/
def kindOf (column : String) : Value.Kind :=
  if ["id", "account_id", "transaction_id", "original_entry_id"].contains column then .uuid
  else if ["balance_minor_units", "reserved_minor_units", "version", "amount_minor_units",
      "running_balance", "count"].contains column then .int8
  else if column = "retry_count" then .int4
  else if column = "payload" then .json
  else if column = "exists" then .bool
  else if column = "entry_date" || column.endsWith "_at" then .time
  else .text

/-- The script that creates the tables that are missing. -/
def script : String :=
  slotTable ++ " " ++ entryTable ++ " " ++ messageTable

/-- Does a table exist? -/
def tableExists : String :=
  "SELECT EXISTS ( SELECT 1 FROM information_schema.tables " ++
    "WHERE table_schema = 'public' AND table_name = $1 )"

/-- The first of some tables of which `tableExists` says that it does not exist. -/
def firstMissing : List String → Program Wire (Reading (Option String))
  | [] => return .ok none
  | table :: rest => do
    match ← Wire.query tableExists [.text table] (·.first (·.placed 0 .bool)) with
    | .error e => return .error e
    | .ok true => firstMissing rest
    | .ok false => return .ok (some table)

def check : Program Wire (Reading (Option String)) :=
  firstMissing requiredTables

/-- What is logged of a table that does not exist. -/
def missingLine (table : String) : Log.Line where
  level := .error
  message := "Required table '" ++ table ++ "' does not exist"

/-- Run the `script`, which creates the tables that are missing. -/
def apply : Program Wire (Except DatabaseError Unit) :=
  Program.call (I := Wire) (.script script)

/-- What is logged when the tables have been created. -/
def appliedLine : Log.Line where
  level := .info
  message := "Ledger schema applied"

/-- See whether the database answers. -/
def ping : Program Wire (Except DatabaseError Unit) := do
  return (← Wire.execute "SELECT 1" []).map fun _ => ()

end BalanceLedger.Sql.Schema
