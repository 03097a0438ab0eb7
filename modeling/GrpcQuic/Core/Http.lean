import Mathlib.Data.Nat.Notation

/-! # Message heads, frames and polls

The parts of `http` and `http_body` values that the crates read and write.
-/
namespace GrpcQuic

/-- A header map as its list of fields; `insert` replaces every field of the name. -/
abbrev HeaderMap := List (String × String)

def HeaderMap.insert (headers : HeaderMap) (name value : String) : HeaderMap :=
  headers.filter (fun field => field.1 != name) ++ [(name,value)]

def HeaderMap.get (headers : HeaderMap) (name : String) : Option String :=
  (headers.find? fun field => field.1 == name).map Prod.snd

abbrev Bytes := List UInt8

inductive Frame where
  | data (data : Bytes)
  | trailers (trailers : HeaderMap)
  deriving DecidableEq, Repr

structure RequestHead where
  method : String
  uri : String
  headers : HeaderMap
  deriving DecidableEq, Repr

structure ResponseHead where
  status : ℕ
  headers : HeaderMap
  deriving DecidableEq, Repr

inductive Poll (α : Type*) where
  | ready (value : α)
  | pending
  deriving DecidableEq, Repr

def Poll.toList {α : Type*} : Poll α → List α
  | ready value => [value]
  | pending => []

inductive Ending where
  | clean
  | trailers (trailers : HeaderMap)
  | error (message : String)
  deriving DecidableEq, Repr

/-- What a body still has to yield. A body that has been read to its ending
stays there and yields the clean end. -/
structure Body where
  frames : List Bytes
  ending : Ending
  ended : Bool
  deriving DecidableEq, Repr

def Body.new (frames : List Bytes) (ending : Ending) : Body := ⟨frames,ending,false⟩

def Ending.result : Ending → Option (Except String Frame)
  | clean => none
  | trailers t => some (.ok (.trailers t))
  | error e => some (.error e)

def Body.finish (body : Body) : Body := { body with ended := true }

def Body.next (body : Body) : Option (Except String Frame) × Body :=
  match body.frames with
  | d :: rest => (some (.ok (.data d)),{ body with frames := rest })
  | [] => if body.ended then (none,body) else (body.ending.result,body.finish)

end GrpcQuic
