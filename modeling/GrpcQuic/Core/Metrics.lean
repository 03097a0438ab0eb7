import GrpcQuic.Transition.Counting

/-! # The metrics of a process

Counter families registered by `get_metrics` and the functions that move them. Nothing
but these functions writes to them. `connections_total` is counted with the connections.
-/
namespace GrpcQuic
open Transition

/-- Labels: `role` of the stream and byte counters, `role` and `path` of the requests. -/
structure Metrics where
  streamsTotal : CounterVec String
  requestsTotal : CounterVec (String × String)
  reconnectsTotal : CounterVec Unit
  bytesSent : CounterVec String
  bytesReceived : CounterVec String

namespace Metrics

def zero : Metrics := ⟨[],[],[],[],[]⟩

def recordStream (role : String) (m : Metrics) : Metrics :=
  { m with streamsTotal := m.streamsTotal.incBy role 1 }

def recordRequest (role path : String) (m : Metrics) : Metrics :=
  { m with requestsTotal := m.requestsTotal.incBy (role,path) 1 }

def recordReconnect (m : Metrics) : Metrics :=
  { m with reconnectsTotal := m.reconnectsTotal.incBy () 1 }

def recordBytesSent (role : String) (bytes : ℕ) (m : Metrics) : Metrics :=
  { m with bytesSent := m.bytesSent.incBy role bytes }

def recordBytesReceived (role : String) (bytes : ℕ) (m : Metrics) : Metrics :=
  { m with bytesReceived := m.bytesReceived.incBy role bytes }

def requests (role : String) (m : Metrics) : ℕ := m.requestsTotal.total fun k => k.1 == role

def streams (role : String) (m : Metrics) : ℕ := m.streamsTotal.total fun k => k == role

def sent (role : String) (m : Metrics) : ℕ := m.bytesSent.total fun k => k == role

def received (role : String) (m : Metrics) : ℕ := m.bytesReceived.total fun k => k == role

end Metrics

end GrpcQuic
