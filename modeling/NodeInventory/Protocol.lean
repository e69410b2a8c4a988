/-!
# The protocol of the store

The versions of the query API, and what can go wrong between a filter and an answer.
-/

namespace NodeInventory

/-!
## Errors

* `QueryError` arises while a filter is built or a query is encoded.
* `DecodeError` arises while a filter or a token is read from JSON.
* `ClientError` arises while a client is set up or talks to the store; a `QueryError` becomes one by
  `ClientError.ofQuery`.

The wording of an error is `QueryError.message` or `ClientError.message`. Some messages of a client
end in what a library says of a `LibraryFault`; its words are not known here, so they are a
parameter of the wording.
-/

/-- What can be wrong with a filter or a query. -/
inductive QueryError where
  /-- A connective that is none of the three. -/
  | unknownConnective (token : String)
  /-- A comparison sign that is none of the seven. -/
  | unknownSign (token : String)
  /-- An API version that is none of the four. -/
  | unknownVersion (token : String)
  /-- A filter text that does not follow the grammar. -/
  | unreadableFilter (reason : String)
  /-- A parameter that has no JSON form. -/
  | unencodable (reason : String)
deriving DecidableEq, Repr

/-- The wording of an error. -/
def QueryError.message : QueryError → String
  | .unknownConnective token => "Cannot render filter chain with operator: " ++ token
  | .unknownSign token => "Unknown comparison sign: " ++ token
  | .unknownVersion token => "Got unknown PuppetDB API version: " ++ token
  | .unreadableFilter reason => "Filter parse error: " ++ reason
  | .unencodable reason => "Failed to encode query parameter " ++ reason

/-- Why JSON does not make a value. -/
inductive DecodeError where
  /-- It is not JSON, or not of the form of such a value. -/
  | malformed
  /-- A token in it is unknown. -/
  | unknown (error : QueryError)
deriving DecidableEq, Repr

/-- What a library reports in its own words. -/
inductive LibraryFault where
  /-- The body of the reply to a path is not JSON of the expected form. -/
  | body (path text : String)
  /-- There is no reply. -/
  | connection
  /-- A reply breaks off. -/
  | reply
  /-- A text of trusted certificates is malformed. -/
  | bundle
  /-- A text does not hold certificates and a key. -/
  | identity
  /-- Certificates and keys do not serve for a connection. -/
  | credentials
deriving DecidableEq, Repr

/-- Why something went wrong: in the words of the client, and behind them those of a library. -/
structure Reason where
  text : String
  fault : Option LibraryFault := none
deriving DecidableEq, Repr

/-- A reason in the words of the client alone. -/
instance : Coe String Reason := ⟨fun text => { text }⟩

/-- The wording of a reason, if `words` are those of the libraries. -/
def Reason.message (words : LibraryFault → String) (reason : Reason) : String :=
  match reason.fault with
  | none => reason.text
  | some fault => reason.text ++ ": " ++ words fault

/-- What can go wrong for a client. -/
inductive ClientError where
  /-- An unsupported API version or unusable credentials. -/
  | configuration (reason : Reason)
  /-- No connection, or it broke. -/
  | transport (reason : Reason)
  /-- An answer whose status is not a success. -/
  | httpStatus (statusLine body : String)
  /-- A body that is not JSON of the expected form. -/
  | malformedResponse (reason : Reason)
  /-- A filter that cannot be made into a query. -/
  | query (error : QueryError)
deriving DecidableEq, Repr

namespace ClientError

/-- A query error as an error of the client: an unknown API version is a matter of configuration. -/
def ofQuery : QueryError → ClientError
  | .unknownVersion token => .configuration (QueryError.unknownVersion token).message
  | error => .query error

/-- The wording of an error, if `words` are those of the libraries. -/
def message (words : LibraryFault → String) : ClientError → String
  | .configuration reason => "Configuration error: " ++ reason.message words
  | .transport reason => "Transport error: " ++ reason.message words
  | .httpStatus statusLine body => "Status: " ++ statusLine ++ ", Response: " ++ body
  | .malformedResponse reason => "Malformed response: " ++ reason.message words
  | .query error => error.message

end ClientError

/-!
## Versions of the store's API

The four versions, `ApiVersion.all`, and what they differ in: the paths of their endpoints, the name
of the ordering parameter, and what queries they support.
-/

/-- A version of the query API. -/
inductive ApiVersion where
  | v1
  | v2
  | v3
  | v4
deriving DecidableEq, Repr

namespace ApiVersion

/-- All versions, the latest first. -/
def all : List ApiVersion := [v4, v3, v2, v1]

/-- The version in writing. -/
def token : ApiVersion → String
  | v1 => "v1"
  | v2 => "v2"
  | v3 => "v3"
  | v4 => "v4"

/-- The version of a token. -/
def ofToken (s : String) : Except QueryError ApiVersion :=
  match all.find? fun version => version.token = s with
  | some version => .ok version
  | none => .error (.unknownVersion s)

/-- The path that the query endpoints are under. -/
def basePath : ApiVersion → String
  | v1 => ""
  | v2 => "/v2"
  | v3 => "/v3"
  | v4 => "/pdb/query/v4"

/-- The path of the command endpoint, which the latest version alone has. -/
def commandPath? : ApiVersion → Option String
  | v4 => some "/pdb/cmd/v1"
  | _ => none

/-- The name of the ordering parameter. -/
def orderParameter : ApiVersion → String
  | v4 => "order_by"
  | _ => "order-by"

/-- Queries for resources have to list the columns they want. -/
def requiresExtract (version : ApiVersion) : Bool := version = v4

/-- Queries may count and group. -/
def supportsAggregation (version : ApiVersion) : Bool := version = v4

/-- The names of all facts can be listed. -/
def supportsFactNames (version : ApiVersion) : Bool := version ≠ v1

end ApiVersion

end NodeInventory
