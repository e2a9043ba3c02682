import PeerAccess.Environment

/-!
# Settings

What a server needs to know. Each part is settled on its own: a given value wins, then the
environment, then the default. The environment is not asked about a part that is given.
-/

namespace PeerAccess

/-- Where a server listens when nobody says otherwise: `127.0.0.1:8080`. -/
def Endpoint.default : Endpoint := .v4 Ipv4.loopback 8080

structure Settings where
  listen : Endpoint := Endpoint.default
  access : Declaration := {}
deriving DecidableEq

def Endpoint.resolve (given : Option Endpoint) (lookup : Lookup) : Reading SettingError Endpoint :=
  match given with
  | some e => pure e
  | none => Endpoint.fromEnvironment Endpoint.default lookup

def Declaration.resolve (given : Option Declaration) (lookup : Lookup) :
    Reading SettingError Declaration :=
  match given with
  | some d => pure d
  | none => Declaration.fromEnvironment lookup

namespace Settings

def resolve (listen : Option Endpoint) (access : Option Declaration) (lookup : Lookup) :
    Reading SettingError Settings := do
  let listen ← Endpoint.resolve listen lookup
  let access ← Declaration.resolve access lookup
  return { listen, access }

def validate (s : Settings) : Except PatternError Unit := s.access.validate

end Settings

end PeerAccess
