/-! A bounded pool of connections. It gives out the connection that was released last; while none is
idle it lets its clients establish new ones, up to a limit, and beyond that they wait. A client
that failed to establish one gives its place back. -/

namespace DurableTopic.Repository.Server

/-- A connection, by the number of the attempt that established it. -/
abbrev Connection := Nat

/-- A pool: the idle connections, the one released last first, and how many connections are live,
whether idle, given out or being established. -/
structure Pool where
  limit : Nat
  idle : List Connection := []
  live : Nat := 0
  deriving Repr, DecidableEq, Inhabited

/-- What a client that asks for a connection gets. -/
inductive Grant where
  | reuse (c : Connection)
  /-- A place for a connection that the client establishes itself. -/
  | place
  | wait
  deriving Repr, DecidableEq

namespace Pool

/-- An empty pool. There is always room for one connection. -/
def ofLimit (n : Nat) : Pool := { limit := max 1 n }

def request (p : Pool) : Grant × Pool :=
  match p.idle with
  | c :: rest => (.reuse c, { p with idle := rest })
  | [] => if p.live < p.limit then (.place, { p with live := p.live + 1 }) else (.wait, p)

/-- Gives back the place of a connection that could not be established. -/
def giveBack (p : Pool) : Pool := { p with live := p.live - 1 }

def release (p : Pool) (c : Connection) : Pool := { p with idle := c :: p.idle }

end Pool
end DurableTopic.Repository.Server
