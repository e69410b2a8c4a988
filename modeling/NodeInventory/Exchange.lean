import NodeInventory.Json.Reader
import NodeInventory.Protocol

/-!
# Exchanges with the store

Single requests and what became of them (`Exchange`), and the fetch of a long list page by page
(`Paging.fetchAll`).
-/

namespace NodeInventory

/-!
## Requests and what becomes of them

An `Exchange` is a piece of work that asks requests of the store, each request after the answer to
the one before. It is run on the answers to come, which may depend on the request, and says what
became of it: the requests it made, its result, and the answers that it did not use.

* `Exchange.ask` makes one request; `Exchange.get` and `Exchange.post` are its two kinds.
* `Exchange.bind` goes on after a success; a failure ends the whole.
* `decodeBody` makes a value of a body, or says which request the malformed body belongs to.
-/

/-- What a request does to the store. -/
inductive Method where
  | get
  | post
deriving DecidableEq, Repr

/-- The name of a method in a request. -/
def Method.token : Method → String
  | get => "GET"
  | post => "POST"

/-- A request to an endpoint, with the JSON that it carries. -/
structure Request where
  method : Method
  path : String
  body : Option Json
deriving DecidableEq

namespace Request

/-- A request to read. -/
def get (path : String) : Request := ⟨.get, path, none⟩

/-- A request that brings JSON. -/
def post (path : String) (body : Json) : Request := ⟨.post, path, some body⟩

end Request

/-- What comes back: the body of a success, or an error. -/
abbrev Reply := Except ClientError String

/-- How the store replies to a request. -/
abbrev Answer := Request → Reply

/-- What became of an exchange. -/
structure Outcome (α : Type) where
  /-- The requests in the order in which they were made, also those that failed. -/
  requests : List Request
  result : Except ClientError α
  /-- The answers that were not used. -/
  unused : List Answer

/-- The outcome with a request in front of the others. -/
def Outcome.after {α : Type} (request : Request) (o : Outcome α) : Outcome α :=
  { o with requests := request :: o.requests }

/-- The error where no answer is left: the connection is at its end. -/
def ClientError.endOfAnswers : ClientError := .transport "no more responses"

/-- Work that talks to the store, run on the answers to come. -/
def Exchange (α : Type) := List Answer → Outcome α

namespace Exchange

variable {α β : Type}

/-- A result without any request. -/
def pure (x : α) : Exchange α := fun answers => ⟨[], .ok x, answers⟩

/-- A result or an error without any request. -/
def ofExcept (result : Except ClientError α) : Exchange α := fun answers => ⟨[], result, answers⟩

/-- One exchange and then another, which knows the result of the first; a failure of the first is
that of the whole. -/
def bind (x : Exchange α) (f : α → Exchange β) : Exchange β := fun answers =>
  match x answers with
  | ⟨requests, .error e, unused⟩ => ⟨requests, .error e, unused⟩
  | ⟨requests, .ok a, unused⟩ =>
    let o := f a unused
    { o with requests := requests ++ o.requests }

instance : Monad Exchange where
  pure := pure
  bind := bind

/-- One request, which takes one answer. -/
def ask (request : Request) : Exchange String
  | [] => ⟨[request], .error .endOfAnswers, []⟩
  | answer :: unused => ⟨[request], answer request, unused⟩

/-- A request to read. -/
def get (path : String) : Exchange String := ask (.get path)

/-- A request that brings JSON. -/
def post (path : String) (body : Json) : Exchange String := ask (.post path body)

end Exchange

/-- The value that the body of a reply to a request for `path` writes. -/
def decodeBody {α : Type} (d : Json.Decoder α) (path body : String) : Except ClientError α :=
  match d.run body with
  | some x => .ok x
  | none =>
    .error (.malformedResponse
      ⟨"Failed to decode response from " ++ path, some (.body path body)⟩)

/-!
## Paging

Long lists of rows are fetched in windows: a path is asked for `step` rows from an offset on, and
the offset grows by `step` until a page has fewer rows. A list whose length is a multiple of `step`
costs one more request, for an empty page.

Rows are never sorted here: pages fit together only if the path carries an ordering that leaves no
two rows tied.
-/

namespace Paging

variable {α : Type}

/-- The number of rows in a page unless another is chosen. -/
def defaultStep : Nat := 3000

/-- The path that asks for `step` rows of a path from an offset on. -/
def pagePath (path : String) (step offset : Nat) : String :=
  let separator := if path.toList.contains '?' then "&" else "?"
  s!"{path}{separator}limit={step}&offset={offset}"

/-- The rows that a reply to a request for a page brings. -/
def readPage (d : Json.Decoder α) (page : String) (reply : Reply) : Except ClientError (List α) :=
  match reply with
  | .ok body => decodeBody (.list d) page body
  | .error e => .error e

/-- Fetches the pages from an offset on, when the rows before it have been fetched. The first page
that fails ends it, and the rows are lost. -/
def fetchFrom (d : Json.Decoder α) (path : String) (step offset : Nat) (rows : List α) :
    Exchange (List α)
  | [] => ⟨[.get (pagePath path step offset)], .error .endOfAnswers, []⟩
  | answer :: unused =>
    let page := pagePath path step offset
    match readPage d page (answer (.get page)) with
    | .error e => ⟨[.get page], .error e, unused⟩
    | .ok more =>
      if more.length < step then ⟨[.get page], .ok (rows ++ more), unused⟩
      else (fetchFrom d path step (offset + step) (rows ++ more) unused).after (.get page)

/-- Fetches all rows of a path, `step` by `step`; a step of zero counts as one. -/
def fetchAll (d : Json.Decoder α) (step : Nat) (path : String) : Exchange (List α) :=
  fetchFrom d path (max step 1) 0 []

end Paging

end NodeInventory
