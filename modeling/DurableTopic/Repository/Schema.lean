import DurableTopic.Failure
/-! The tables of the SQL backends. Every statement may run again on a database that has them. -/

namespace DurableTopic.Repository.Schema

/-- The tables of an embedded database. -/
def embedded : List String := [
  "CREATE TABLE IF NOT EXISTS topic_messages (destination TEXT NOT NULL, " ++
    "sequence_id INTEGER NOT NULL, message_id TEXT NOT NULL, priority INTEGER NOT NULL DEFAULT 0, " ++
    "data BLOB, PRIMARY KEY (destination, sequence_id), UNIQUE (destination, message_id));",
  "CREATE TABLE IF NOT EXISTS topic_subscriptions (destination TEXT NOT NULL, " ++
    "client_id TEXT NOT NULL, subscription_name TEXT NOT NULL, name_set INTEGER NOT NULL, " ++
    "selector TEXT NOT NULL DEFAULT '', retroactive INTEGER NOT NULL DEFAULT 0, " ++
    "last_acked_seq INTEGER NOT NULL DEFAULT -1, last_acked_priority INTEGER NOT NULL DEFAULT 0, " ++
    "PRIMARY KEY (destination, client_id, subscription_name, name_set));",
  "CREATE TABLE IF NOT EXISTS topicstore_schema_migrations (version INTEGER PRIMARY KEY, " ++
    "applied_at_ms INTEGER NOT NULL DEFAULT (unixepoch() * 1000));",
  "INSERT OR IGNORE INTO topicstore_schema_migrations(version) VALUES(1);"]

/-- The tables of a database server. -/
def server : List String := [
  "CREATE TABLE IF NOT EXISTS topic_messages (destination TEXT NOT NULL, " ++
    "sequence_id BIGINT NOT NULL, message_id TEXT NOT NULL, priority INTEGER NOT NULL DEFAULT 0, " ++
    "data BYTEA, PRIMARY KEY (destination, sequence_id), UNIQUE (destination, message_id));",
  "CREATE TABLE IF NOT EXISTS topic_subscriptions (destination TEXT NOT NULL, " ++
    "client_id TEXT NOT NULL, subscription_name TEXT NOT NULL, name_set BOOLEAN NOT NULL, " ++
    "selector TEXT NOT NULL DEFAULT '', retroactive BOOLEAN NOT NULL DEFAULT FALSE, " ++
    "last_acked_seq BIGINT NOT NULL DEFAULT -1, last_acked_priority INTEGER NOT NULL DEFAULT 0, " ++
    "PRIMARY KEY (destination, client_id, subscription_name, name_set));",
  "CREATE TABLE IF NOT EXISTS topicstore_schema_migrations (version INTEGER PRIMARY KEY, " ++
    "applied_at TIMESTAMPTZ DEFAULT NOW());",
  "INSERT INTO topicstore_schema_migrations(version) VALUES(1) ON CONFLICT DO NOTHING;"]

/-- Runs statements in order until one fails. Gives the outcome and the statements that
succeeded. -/
def migrate (execute : Nat → String → Except Failure Unit) (place : Nat) :
    List String → Except Failure Unit × List String
  | [] => (.ok (), [])
  | s :: rest =>
    match execute place s with
    | .error f => (.error f, [])
    | .ok _ => let (r, ran) := migrate execute (place + 1) rest; (r, s :: ran)

/-- Runs statements of which the one at a given place fails. -/
def run (failing : Option Nat) (sqls : List String) : Except Failure Unit × List String :=
  migrate (fun place sql =>
    if failing = some place then .error (.runtime ("statement failed: " ++ sql)) else .ok ()) 0 sqls

end DurableTopic.Repository.Schema
