import GrpcQuic.Core.Endpoint
import GrpcQuic.Client.Retry

/-! # Building a channel

`QuicChannelBuilder::connect` fixes the remote address and the server name of a
channel; it opens no connection. `connect_fn` is what the pool runs when a call
needs one.
-/
namespace GrpcQuic.Client
open Retry

abbrev Resolver (Addr : Type*) := String → List Addr

/-- `str::parse` for socket addresses, and `ip().to_string()`. -/
class SocketAddr (Addr : Type*) where
  parse : String → Option Addr
  ip : Addr → String

structure QuicChannelBuilder (Addr : Type*) where
  retry : RetryPolicy
  serverName : Option String
  tls : Option TlsConfig
  resolver : Option (Resolver Addr)
  concurrencyLimit : ℕ

structure QuicChannel (Addr : Type*) where
  remote : Addr
  serverName : String
  tls : Option TlsConfig
  retry : RetryPolicy
  concurrencyLimit : ℕ

variable {Addr : Type*}

namespace QuicChannelBuilder

def withTls (b : QuicChannelBuilder Addr) (tls : TlsConfig) : QuicChannelBuilder Addr :=
  { b with tls := some tls }

/-- The address is parsed first; only what is no address goes to the resolver. -/
def remote [SocketAddr Addr] (b : QuicChannelBuilder Addr) (addrStr : String) : Except ClientError Addr :=
  match SocketAddr.parse addrStr with
  | some addr => .ok addr
  | none =>
    match b.resolver with
    | some resolve =>
      match resolve addrStr with
      | [] => .error (.requestBuild ("resolver returned no addresses for: " ++ addrStr))
      | addr :: _ => .ok addr
    | none => .error (.requestBuild ("invalid address and no resolver configured: " ++ addrStr))

def connect [SocketAddr Addr] (b : QuicChannelBuilder Addr) (addrStr : String) :
    Except ClientError (QuicChannel Addr) := do
  let remote ← b.remote addrStr
  return ⟨remote,b.serverName.getD (SocketAddr.ip remote),b.tls,b.retry,b.concurrencyLimit⟩

variable [SocketAddr Addr] {b : QuicChannelBuilder Addr} {addrStr : String}

theorem connect_eq_ok {ch : QuicChannel Addr} : b.connect addrStr = .ok ch ↔ ∃ remote,
    b.remote addrStr = .ok remote ∧
      ch = ⟨remote,b.serverName.getD (SocketAddr.ip remote),b.tls,b.retry,b.concurrencyLimit⟩ := by
  unfold connect
  cases b.remote addrStr with
  | error e => exact ⟨nofun,fun ⟨_,h,_⟩ => nomatch h⟩
  | ok remote =>
    refine ⟨fun h => ⟨remote,rfl,(Except.ok.inj h).symm⟩,fun ⟨r,hr,h⟩ => ?_⟩
    cases hr
    rw [h]
    rfl

/-- A channel is made for every target that is an address or that the resolver knows,
and for no other. -/
theorem connects_iff : (∃ ch, b.connect addrStr = .ok ch) ↔
    (SocketAddr.parse addrStr : Option Addr).isSome = true ∨
      ∃ resolve, b.resolver = some resolve ∧ resolve addrStr ≠ [] := by
  have hremote : (∃ ch, b.connect addrStr = .ok ch) ↔ ∃ remote, b.remote addrStr = .ok remote := by
    constructor
    · rintro ⟨ch,h⟩
      obtain ⟨remote,hr,-⟩ := connect_eq_ok.mp h
      exact ⟨remote,hr⟩
    · rintro ⟨remote,hr⟩
      exact ⟨_,connect_eq_ok.mpr ⟨remote,hr,rfl⟩⟩
  rw [hremote]
  unfold remote
  cases (SocketAddr.parse addrStr : Option Addr) with
  | some addr => simp
  | none =>
    cases b.resolver with
    | none => simp
    | some resolve => cases h : resolve addrStr <;> simp [h]

end QuicChannelBuilder

/-- `TlsConfig::client_default`. -/
def clientDefault : TlsConfig := .client 0

/-- The connect function of `QuicChannel::call`: an endpoint of its own, then the
connection. -/
def QuicChannel.connectFn (ch : QuicChannel Addr) (dial : Dial) : Except ClientError Unit :=
  Except.mapError .transport do
    QuicEndpoint.client (ch.tls.getD clientDefault) dial
    QuicEndpoint.connect dial

/-- A channel with the configuration of a server never dials. -/
theorem QuicChannel.connectFn_server {ch : QuicChannel Addr} {c : ℕ} (h : ch.tls = some (.server c))
    (dial : Dial) : ch.connectFn dial = .error (.transport (.tls "expected client config")) := by
  unfold connectFn
  rw [h]
  rfl

end GrpcQuic.Client
