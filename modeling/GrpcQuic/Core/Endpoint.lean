import GrpcQuic.Core.Errors

/-! # TLS roles and QUIC endpoints

One `TlsConfig` type serves both roles, and the endpoint checks the role. What
rustls, the socket and quinn answer is given by the environment.
-/
namespace GrpcQuic

/-- The rustls configuration inside is opaque: only its role is read. -/
inductive TlsConfig where
  | server (config : ℕ)
  | client (config : ℕ)
  deriving DecidableEq, Repr

def TlsConfig.clientConfig : TlsConfig → Except TransportError ℕ
  | client c => .ok c
  | server _ => .error (.tls "expected client config")

/-- What the libraries answer on the way to a connection: the conversion of the
rustls configuration, the socket, `quinn::Endpoint::connect` and the handshake. -/
structure Dial where
  crypto : Except String Unit
  bind : Except String Unit
  start : Except String Unit
  handshake : Except String Unit

namespace QuicEndpoint

def client (tls : TlsConfig) (dial : Dial) : Except TransportError Unit := do
  let _ ← tls.clientConfig
  dial.crypto.mapError .tls
  dial.bind.mapError .io

def connect (dial : Dial) : Except TransportError Unit := do
  dial.start.mapError .stream
  dial.handshake.mapError .connection

end QuicEndpoint

end GrpcQuic
