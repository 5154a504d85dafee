/-
  Portcullis.Endpoint — the participants of a rule.

  A target is a group of the document, a tag, or a block of addresses in one of three roles.
  An endpoint is a target with a port restriction and the text it was read from. Two
  endpoints are the same participant when targets and ports agree; the text does not count.
-/

import Portcullis.Key
import Portcullis.Ports

namespace Portcullis

/-- Which of the two kinds of names a reference uses. -/
inductive Space where
  | group
  | tag
  deriving DecidableEq, Repr

def Space.text : Space → String
  | .group => "group"
  | .tag => "tag"

/-- What a block of addresses stands for: one address, several, or either of them as the
    origin of traffic. -/
inductive Role where
  | host
  | network
  | origin
  deriving DecidableEq, Repr

/-- The kinds of simple objects. -/
inductive Kind where
  | group
  | host
  | network
  | origin
  deriving DecidableEq, Repr

namespace Kind

def text : Kind → String
  | .group => "group"
  | .host => "host"
  | .network => "network"
  | .origin => "net-res-to-group"

/-- An origin of traffic is declared as a group. -/
def isGroup : Kind → Bool
  | .group | .origin => true
  | .host | .network => false

end Kind

def Role.kind : Role → Kind
  | .host => .host
  | .network => .network
  | .origin => .origin

inductive Target where
  | named (space : Space) (name : String)
  | block (role : Role) (name address : String)
  deriving DecidableEq, Repr

namespace Target

def name : Target → String
  | .named _ n => n
  | .block _ n _ => n

def kind : Target → Kind
  | .named _ _ => .group
  | .block r _ _ => r.kind

/-- Groups and tags of one name share a key. -/
def key (t : Target) : String := Key.simple t.kind.text t.name

def isGroup (t : Target) : Bool := t.kind.isGroup

end Target

structure Endpoint where
  target : Target
  ports : Ports
  token : String
  deriving DecidableEq, Repr

namespace Endpoint

def key (e : Endpoint) : String := e.target.key

def name (e : Endpoint) : String := e.target.name

def isGroup (e : Endpoint) : Bool := e.target.isGroup

def withPorts (e : Endpoint) (ports : Ports) : Endpoint := { e with ports }

/-- Whether two endpoints are the same participant. -/
def same (a b : Endpoint) : Bool := a.target = b.target && a.ports = b.ports

/-- A block of addresses as the origin of traffic, on all ports; a name has no such form. -/
def asOrigin? (e : Endpoint) : Option Endpoint :=
  match e.target with
  | .named _ _ => none
  | .block _ n a => some ⟨.block .origin n a, none, e.token⟩

end Endpoint

end Portcullis
