import Mathlib.Data.Nat.Notation

/-! # Error values of the crates and their texts

Only the texts are observable where an error crosses a task: a waiter of the
pool and the response body both receive the rendered message, never the value.
A message that comes from another library is a string.
-/
namespace GrpcQuic

/-- `grpc_quic_transport::TransportError`. -/
inductive TransportError where
  | endpointBind (message : String)
  | connection (message : String)
  | stream (message : String)
  | tls (message : String)
  | io (message : String)
  deriving DecidableEq, Repr

/-- `grpc_quic_core::CoreError`. -/
inductive CoreError where
  | h3Stream (message : String)
  | h3Connection (message : String)
  | io (message : String)
  | transport (message : String)
  | connectionClosed
  | invalidResponse (message : String)
  deriving DecidableEq, Repr

/-- `grpc_quic_client::ClientError`. -/
inductive ClientError where
  | transport (error : TransportError)
  | retriesExhausted (attempts : ℕ) (lastError : String)
  | closed
  | streamIo (message : String)
  | invalidResponse (message : String)
  | requestBuild (message : String)
  deriving DecidableEq, Repr

def TransportError.toString : TransportError → String
  | endpointBind m => "endpoint bind error: " ++ m
  | connection m => "connection error: " ++ m
  | stream m => "stream error: " ++ m
  | tls m => "TLS error: " ++ m
  | io m => "I/O error: " ++ m

def CoreError.toString : CoreError → String
  | h3Stream m => "h3 stream error: " ++ m
  | h3Connection m => "h3 connection error: " ++ m
  | io m => "I/O error: " ++ m
  | transport m => "QUIC transport error: " ++ m
  | connectionClosed => "connection closed"
  | invalidResponse m => "invalid response: " ++ m

def ClientError.toString : ClientError → String
  | transport e => "transport error: " ++ e.toString
  | retriesExhausted n e => "retries exhausted after " ++ n.repr ++ " attempts: " ++ e
  | closed => "channel closed"
  | streamIo m => "stream I/O error: " ++ m
  | invalidResponse m => "invalid response: " ++ m
  | requestBuild m => "request build error: " ++ m

/-- The text a blocked caller gets when the sender of its channel disappears. -/
def taskCancelled : String := "connection task cancelled"

end GrpcQuic
