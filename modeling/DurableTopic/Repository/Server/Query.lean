import DurableTopic.Text
/-! What is sent to a database server: statements and their parameters. A statement is sent as text or
by the name under which a connection has prepared it. -/

namespace DurableTopic.Repository.Server

/-- A parameter of a statement. -/
inductive Parameter where
  | text (s : String)
  | int (i : Int)
  | flag (b : Bool)
  | bytes (b : Bytes)
  deriving Repr, DecidableEq, Inhabited

/-- The statements that every connection prepares. -/
inductive Prepared where
  | resolveSequence | persistWatermark | loadWatermark | scanAfter | scanAll | countUndelivered
  | getSubscription
  deriving Repr, DecidableEq, Inhabited

namespace Prepared

/-- All prepared statements, in the order in which a connection prepares them. -/
def all : List Prepared :=
  [resolveSequence, persistWatermark, loadWatermark, scanAfter, scanAll, countUndelivered,
   getSubscription]

def name : Prepared → String
  | resolveSequence => "resolve_sequence"
  | persistWatermark => "persist_watermark"
  | loadWatermark => "load_watermark"
  | scanAfter => "scan_after"
  | scanAll => "scan_all"
  | countUndelivered => "count_undelivered"
  | getSubscription => "get_subscription"

def messageColumns : String :=
  "SELECT m.destination, m.sequence_id, m.message_id, m.priority, m.data "

/-- The messages of the destination of a subscriber. -/
def joined : String :=
  "FROM topic_messages m JOIN topic_subscriptions s ON s.destination = m.destination " ++
  "WHERE s.destination=$1 AND s.client_id=$2 AND s.subscription_name=$3 AND s.name_set=$4 "

/-- The row of a subscriber. -/
def ofSubscriber : String :=
  "WHERE destination=$1 AND client_id=$2 AND subscription_name=$3 AND name_set=$4"

def sql : Prepared → String
  | resolveSequence =>
    "SELECT sequence_id, priority FROM topic_messages WHERE destination=$1 AND message_id=$2"
  | persistWatermark =>
    "UPDATE topic_subscriptions SET last_acked_seq=$5, last_acked_priority=$6 " ++ ofSubscriber ++
      " AND last_acked_seq < $5"
  | loadWatermark =>
    "SELECT last_acked_seq, last_acked_priority FROM topic_subscriptions " ++ ofSubscriber
  | scanAfter =>
    messageColumns ++ joined ++ "AND m.sequence_id > $5 ORDER BY m.sequence_id ASC LIMIT $6"
  | scanAll =>
    messageColumns ++ joined ++ "AND m.sequence_id > s.last_acked_seq ORDER BY m.sequence_id ASC"
  | countUndelivered => "SELECT COUNT(*) " ++ joined ++ "AND m.sequence_id > s.last_acked_seq"
  | getSubscription =>
    "SELECT destination, client_id, subscription_name, name_set, selector, retroactive, " ++
      "last_acked_seq, last_acked_priority FROM topic_subscriptions " ++ ofSubscriber

end Prepared

/-- How a statement is sent. -/
inductive Statement where
  | direct (sql : String)
  /-- As text, by a client that reads one row of the answer. -/
  | single (sql : String)
  | prepared (p : Prepared)
  deriving Repr, DecidableEq

namespace Statement

/-- Takes the lock under which sequence numbers of a destination are given out. -/
def lockDestination : Statement := direct "SELECT pg_advisory_xact_lock(hashtext($1));"

def nextSequence : Statement :=
  single "SELECT COALESCE(MAX(sequence_id), 0) + 1 FROM topic_messages WHERE destination=$1;"

def insertMessage : Statement :=
  direct <| "INSERT INTO topic_messages(destination,sequence_id,message_id,priority,data) " ++
    "VALUES($1,$2,$3,$4,$5);"

/-- Inserts a subscriber, or changes the selector and the flag of one that is there. -/
def upsertSubscription : Statement :=
  direct <| "INSERT INTO topic_subscriptions" ++
    "(destination,client_id,subscription_name,name_set,selector,retroactive,last_acked_seq," ++
    "last_acked_priority) VALUES($1,$2,$3,$4,$5,$6," ++
    "CASE WHEN $6 THEN -1 ELSE (SELECT COALESCE(MAX(sequence_id), -1) FROM topic_messages " ++
    "WHERE destination=$1) END,0) " ++
    "ON CONFLICT(destination,client_id,subscription_name,name_set) DO UPDATE SET " ++
    "selector=EXCLUDED.selector, retroactive=EXCLUDED.retroactive;"

def deleteSubscription : Statement :=
  direct ("DELETE FROM topic_subscriptions " ++ Prepared.ofSubscriber ++ ";")

def listSubscriptions : Statement :=
  direct <| "SELECT destination,client_id,subscription_name,name_set,selector,retroactive," ++
    "last_acked_seq,last_acked_priority FROM topic_subscriptions WHERE destination=$1;"

end Statement
end DurableTopic.Repository.Server
