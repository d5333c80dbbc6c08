import Gatehouse.Duration
import Gatehouse.Files.Path

/-!
# Settings

The settings have defaults, and later layers override earlier ones.  A layer overrides a setting
when its value is not the default one; paths count as the default if they have its components.
-/

namespace Gatehouse

open Gatehouse.Files

/-- Where files are. -/
structure PathSettings where
  /-- The folder of the ACL documents. -/
  aclDir : String
  /-- The pattern of their file names. -/
  aclPattern : String
  /-- The folder of the configuration packages. -/
  uciDir : String
  deriving DecidableEq, Repr

/-- How long things last. -/
structure SessionSettings where
  /-- After how many idle seconds a session ends. -/
  timeoutSecs : UInt64
  /-- How many thousandths of a second a call may take. -/
  callTimeoutMs : UInt64
  deriving DecidableEq, Repr

/-- How the broker is reached. -/
structure BrokerSettings where
  /-- The path of the client program. -/
  clientPath : String
  deriving DecidableEq, Repr

/-- All settings. -/
structure Config where
  paths : PathSettings
  session : SessionSettings
  broker : BrokerSettings
  deriving DecidableEq, Repr

namespace Config

/-- The settings that hold if nothing else is said. -/
def default : Config where
  paths := ⟨"/usr/share/luci2/acl.d", "*.json", "/etc/config"⟩
  session := ⟨3600, 500⟩
  broker := ⟨"ubus"⟩

/-- The value of a later layer, unless it is the default. -/
def override {α : Type} (same : α → α → Bool) (usual base later : α) : α :=
  if same later usual then base else later

/-- The settings with a later layer over them. -/
def merge (base later : Config) : Config where
  paths :=
    ⟨override samePath default.paths.aclDir base.paths.aclDir later.paths.aclDir,
      override (· == ·) default.paths.aclPattern base.paths.aclPattern later.paths.aclPattern,
      override samePath default.paths.uciDir base.paths.uciDir later.paths.uciDir⟩
  session :=
    ⟨override (· == ·) default.session.timeoutSecs base.session.timeoutSecs
        later.session.timeoutSecs,
      override (· == ·) default.session.callTimeoutMs base.session.callTimeoutMs
        later.session.callTimeoutMs⟩
  broker :=
    ⟨override samePath default.broker.clientPath base.broker.clientPath later.broker.clientPath⟩

/-- After how long an idle session ends. -/
def idleTime (c : Config) : Duration :=
  .ofSecs c.session.timeoutSecs

/-- How long a call may take. -/
def callTime (c : Config) : Duration :=
  .ofMillis c.session.callTimeoutMs

end Config

end Gatehouse
