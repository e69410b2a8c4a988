import NodeInventory.Protocol
import NodeInventory.Text
import NodeInventory.Toml.Reader

/-!
# Settings of a client

`Settings` say where the store is, which version of its API to speak, and where the credentials are.

* `Settings.ofValues` takes them as given, `Settings.parse` from a TOML text, whose missing optional
  values have defaults and whose unknown keys are ignored.
* The entries of a table are looked at in their order, and the first that is not as it should be is
  what the fault is about; after them come entries that are missing.
* Instead of a table there may be an array with the values of all entries in their order.
* `Settings.load` reads the bytes of a file; `SettingsError.message` is the wording of what can go
  wrong.
-/

namespace NodeInventory

/-- Where the store is, and how it is addressed. -/
structure ServerSettings where
  host : String
  port : Nat
  apiVersion : ApiVersion
  /-- The name that the client certificate was issued to. -/
  certname : String
deriving DecidableEq, Repr

/-- The host and the port, as they stand in an address. -/
def ServerSettings.authority (s : ServerSettings) : String := s!"{s.host}:{s.port}"

/-- The files with the credentials. -/
structure TlsSettings where
  /-- The certificates that a server's certificate has to come from. -/
  caCert : String
  /-- The client's certificate, perhaps with its key. -/
  clientCert : String
  /-- The client's key, if it is in a file of its own. -/
  clientKey : Option String
deriving DecidableEq, Repr

/-- The settings of a client. -/
structure Settings where
  server : ServerSettings
  tls : TlsSettings
  timeoutSeconds : Nat
deriving DecidableEq, Repr

namespace Settings

/-- The port of a store unless another is given. -/
def defaultPort : Nat := 8081

/-- The version to speak unless another is given. -/
def defaultVersion : ApiVersion := .v4

/-- The seconds to wait for the store unless another number is given. -/
def defaultTimeout : Nat := 30

/-- Settings from their values. -/
def ofValues (version certname host : String) (port : Nat) (tls : TlsSettings) :
    Except ClientError Settings :=
  match ApiVersion.ofToken version with
  | .ok version => .ok ⟨⟨host, port, version, certname⟩, tls, defaultTimeout⟩
  | .error e => .error (.ofQuery e)

/-! ### Values -/

open Toml

/-- Reads a value; a fault is that of the value. -/
abbrev Reads (α : Type) := Value → Except DecodeError α

/-- A string. -/
def text : Reads String
  | .string s => .ok s
  | _ => .error .malformed

/-- An integer from 0 up to a limit. -/
def number (limit : Nat) : Reads Nat
  | .integer n => if 0 ≤ n ∧ n ≤ limit then .ok n.toNat else .error .malformed
  | _ => .error .malformed

/-- A version of the API. -/
def version : Reads ApiVersion
  | .string s => (ApiVersion.ofToken s).mapError .unknown
  | _ => .error .malformed

/-- A value that has to be there. -/
def required {α : Type} : Option α → Except DecodeError α
  | some x => .ok x
  | none => .error .malformed

/-! ### Tables -/

/-- Reads the entries of a table in their order, each into the draft of a record. -/
def readEntries {α : Type} (step : α → String → Value → Except DecodeError α) (draft : α)
    (entries : Entries) : Except DecodeError α :=
  entries.foldlM (fun draft (key, v) => step draft key v) draft

/-- What has been read of the server's settings. -/
structure ServerDraft where
  host : Option String := none
  port : Option Nat := none
  apiVersion : Option ApiVersion := none
  certname : Option String := none

namespace ServerDraft

/-- Reads the value of a key. -/
def read (d : ServerDraft) (key : String) (v : Value) : Except DecodeError ServerDraft :=
  match key with
  | "host" => do return { d with host := some (← text v) }
  | "port" => do return { d with port := some (← number (UInt16.size - 1) v) }
  | "api_version" => do return { d with apiVersion := some (← version v) }
  | "certname" => do return { d with certname := some (← text v) }
  | _ => return d

/-- The keys in their order. -/
def keys : List String := ["host", "port", "api_version", "certname"]

/-- The settings, if nothing is missing that has no default. -/
def finish (d : ServerDraft) : Except DecodeError ServerSettings := do
  return ⟨← required d.host, d.port.getD defaultPort, d.apiVersion.getD defaultVersion,
    ← required d.certname⟩

end ServerDraft

/-- Reads the server's settings. -/
def readServer : Reads ServerSettings
  | .table _ entries => do (← readEntries ServerDraft.read {} entries).finish
  | .array items => do (← readEntries ServerDraft.read {} (ServerDraft.keys.zip items)).finish
  | _ => .error .malformed

/-- What has been read of the files with the credentials. -/
structure TlsDraft where
  caCert : Option String := none
  clientCert : Option String := none
  clientKey : Option String := none

namespace TlsDraft

/-- Reads the value of a key. -/
def read (d : TlsDraft) (key : String) (v : Value) : Except DecodeError TlsDraft :=
  match key with
  | "ca_cert" => do return { d with caCert := some (← text v) }
  | "client_cert" => do return { d with clientCert := some (← text v) }
  | "client_key" => do return { d with clientKey := some (← text v) }
  | _ => return d

/-- The keys in their order. -/
def keys : List String := ["ca_cert", "client_cert", "client_key"]

/-- The files, if neither certificate is missing. -/
def finish (d : TlsDraft) : Except DecodeError TlsSettings := do
  return ⟨← required d.caCert, ← required d.clientCert, d.clientKey⟩

end TlsDraft

/-- Reads the files with the credentials; an array has to name all three. -/
def readTls : Reads TlsSettings
  | .table _ entries => do (← readEntries TlsDraft.read {} entries).finish
  | .array items => do
    let draft ← readEntries TlsDraft.read {} (TlsDraft.keys.zip items)
    let _ ← required draft.clientKey
    draft.finish
  | _ => .error .malformed

/-- What has been read of all settings. -/
structure Draft where
  server : Option ServerSettings := none
  tls : Option TlsSettings := none
  timeoutSeconds : Option Nat := none

namespace Draft

/-- Reads the value of a key. -/
def read (d : Draft) (key : String) (v : Value) : Except DecodeError Draft :=
  match key with
  | "server" => do return { d with server := some (← readServer v) }
  | "tls" => do return { d with tls := some (← readTls v) }
  | "timeout_seconds" => do return { d with timeoutSeconds := some (← number (UInt64.size - 1) v) }
  | _ => return d

/-- The settings, if nothing is missing that has no default. -/
def finish (d : Draft) : Except DecodeError Settings := do
  return ⟨← required d.server, ← required d.tls, d.timeoutSeconds.getD defaultTimeout⟩

end Draft

/-- The settings that a TOML text holds. -/
def parse (s : List Char) : Except DecodeError Settings :=
  match Toml.parse s with
  | none => .error .malformed
  | some entries => do (← readEntries Draft.read {} entries).finish

end Settings

/-! ### Files -/

/-- Why settings cannot be had from a file. -/
inductive SettingsError where
  /-- The file cannot be read, or is not UTF-8. -/
  | unreadable (path : String)
  /-- The text is not TOML, or does not hold settings. -/
  | unusable (path : String) (cause : DecodeError)
deriving DecidableEq, Repr

namespace SettingsError

/-- The wording of an error. -/
def message : SettingsError → String
  | .unreadable path => "Failed to read config file: " ++ path
  | .unusable path _ => "Failed to parse config file: " ++ path

/-- The wording of the cause, if a token is unknown. -/
def cause? : SettingsError → Option String
  | .unusable _ (.unknown e) => some e.message
  | _ => none

end SettingsError

/-- The settings in a file, of which the path and the bytes are given; a file that cannot be read
has no bytes. -/
def Settings.load (path : String) (content : Option (List UInt8)) : Except SettingsError Settings :=
  match content with
  | none => .error (.unreadable path)
  | some bytes =>
    match Text.Utf8.decode bytes with
    | .error _ => .error (.unreadable path)
    | .ok text => (Settings.parse text).mapError (.unusable path)

end NodeInventory
